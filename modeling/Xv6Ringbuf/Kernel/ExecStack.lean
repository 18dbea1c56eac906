import Xv6Ringbuf.Kernel.ExecArgs
import Xv6Ringbuf.Kernel.ExecLoad

namespace Xv6Ringbuf.Kernel

open Machine Function

section Clear

variable [Image] {s₀ s : State} {trampoline trapframe : UInt64} {n : Nat}

variable {va : UInt64} {pte : Pte}

theorem Building.setPerm (h : Building s₀ trampoline trapframe s n) (hva : vpn va < n)
    (hpte : s.pagetable.leaf (vpn va) = some pte) {perm : Perm}
    (hperm : perm ≠ ⟨false, false, false, false⟩) :
    Building s₀ trampoline trapframe
      { s with pagetable := s.pagetable.setPte va (some ⟨pte.pa, perm⟩) } n := by
  have hmissing : s.pagetable.missing (vpn va) = 0 := missing_of_leaf (by simp [hpte])
  have hlt := lt_of_leaf_eq hpte
  have hbound := h.bound
  have hleaf := leaf_setPte (some ⟨pte.pa, perm⟩) hmissing hlt
  -- Whatever an entry leads to, it led there before.
  have hold : ∀ m pte', (s.pagetable.setPte va (some ⟨pte.pa, perm⟩)).leaf m = some pte' →
      ∃ pte'', s.pagetable.leaf m = some pte'' ∧ pte''.pa = pte'.pa ∧
        (pte'.perm = pte''.perm ∨ pte'.perm = perm) := by
    intro m pte' hpte'
    rw [hleaf] at hpte'
    by_cases hm : m = vpn va
    · rw [hm, update_self] at hpte'
      cases hpte'
      exact ⟨pte, hm ▸ hpte, rfl, .inr rfl⟩
    · rw [update_of_ne hm] at hpte'
      exact ⟨pte', hpte', rfl, .inl rfl⟩
  refine ⟨⟨h.heap.free, h.heap.nodup, ?_, ?_, ?_⟩, ⟨h.aside.spares.table _, ?_⟩,
    ⟨h.tree.free, h.tree.tree.setPte _ _⟩, ?_, ?_⟩
  · intro m hm
    rw [← h.heap.mapped m hm]
    show (s.pagetable.setPte va _).leaf m ≠ none ↔ _
    rw [hleaf]
    by_cases heq : m = vpn va
    · rw [heq, update_self, hpte]
      simp
    · rw [update_of_ne heq]
  · intro m hm pte' hpte'
    obtain ⟨pte'', hpte'', hpa, hperms⟩ := hold m pte' hpte'
    obtain ⟨hvalid, hperm'', hused⟩ := h.heap.page m hm pte'' hpte''
    rw [hpa] at hvalid hused
    refine ⟨hvalid, ?_, hused⟩
    rcases hperms with heq | heq
    · rw [heq]
      exact hperm''
    · rw [heq]
      exact hperm
  · intro m hm m' hm' pte₁ pte₂ hpte₁ hpte₂ hpa
    obtain ⟨pte₁', hpte₁', hpa₁, _⟩ := hold m pte₁ hpte₁
    obtain ⟨pte₂', hpte₂', hpa₂, _⟩ := hold m' pte₂ hpte₂
    exact h.heap.once m hm m' hm' pte₁' pte₂' hpte₁' hpte₂' (by rw [hpa₁, hpa₂, hpa])
  · intro m hm pte' hpte'
    obtain ⟨pte'', hpte'', hpa, _⟩ := hold m pte' hpte'
    rw [← hpa]
    exact h.aside.off m hm pte'' hpte''
  · have hpages := pages_setPte (some ⟨pte.pa, perm⟩) hmissing hlt
    rw [hpte, Option.elim_some, Option.elim_some] at hpages
    rw [← h.balance]
    exact congrArg (_ + ·) (add_right_cancel hpages)
  · intro m hm
    show (s.pagetable.setPte va _).leaf m = _
    rw [hleaf, update_of_ne (by omega)]
    exact h.top m hm

theorem uvmclear_building (h : Building s₀ trampoline trapframe s n) (hva : vpn va < n)
    (hpte : s.pagetable.leaf (vpn va) = some pte) (hr : pte.perm.r = true) :
    wp (uvmclear va) s
      (fun _ s' => Building s₀ trampoline trapframe s' n ∧
        s'.pagetable.leaf = update s.pagetable.leaf (vpn va)
          (some ⟨pte.pa, { pte.perm with u := false }⟩)) fun _ => False := by
  have hmissing : s.pagetable.missing (vpn va) = 0 := missing_of_leaf (by simp [hpte])
  have hlt := lt_of_leaf_eq hpte
  have hlow : ¬MAXVA ≤ va := UInt64.not_le.mpr (lt_MAXVA_iff.mpr hlt)
  have hperm : ({ pte.perm with u := false } : Perm) ≠ ⟨false, false, false, false⟩ := by
    simp [hr]
  unfold uvmclear walk
  rw [if_neg hlow, if_neg (by decide)]
  apply wp_bind
  apply wp_get_bind
  rw [lookup_of_leaf rfl hpte]
  apply wp_pure
  apply wp_modify
  exact ⟨h.setPerm hva hpte hperm, leaf_setPte _ hmissing hlt⟩

end Clear

theorem byteAddr_sub_lt {pt : Pagetable} {a : Nat} {pa : UInt64} (h : pt.user (a / 4096) = some pa) :
    pt.byteAddr a - pa < PGSIZE := by
  rw [Pagetable.byteAddr, h, Option.getD_some, add_sub_self, UInt64.lt_iff_toNat_lt,
    UInt64.toNat_ofNat', toNat_PGSIZE]
  omega

section Stack

variable [Image] {s₀ s : State} {trampoline trapframe : UInt64} {n : Nat}

theorem Building.userPages (h : Building s₀ trampoline trapframe s n) : UserPages s.pagetable := by
  intro m pte hpte huser
  by_cases hm : m < n
  · exact (h.heap.page m hm pte hpte).1
  · by_cases htop : 2 ^ 26 - 2 ≤ m
    · rw [h.top m htop] at hpte
      unfold kernelPages at hpte
      rw [update_apply, update_apply] at hpte
      split at hpte
      · cases hpte
        cases huser
      · split at hpte
        · cases hpte
          cases huser
        · cases hpte
    · exact absurd ((h.heap.mapped m (by omega)).mp (by simp [hpte])) hm

theorem Building.within (h : Building s₀ trampoline trapframe s n) {m : Nat} (hm : m < n)
    (huser : s.pagetable.user m ≠ none) {mem : UInt64 → UInt8}
    (hwithin : Within s.pagetable (4096 * m) (4096 * (m + 1)) s.mem mem) :
    Building s₀ trampoline trapframe { s with mem := mem } n := by
  obtain ⟨pte, hpte, _, heq⟩ := user_eq_some huser
  apply h.write
  intro a ha
  apply hwithin
  intro b hb hb' haddr
  apply ha m hm pte hpte
  rw [← haddr]
  apply byteAddr_sub_lt
  rw [show b / 4096 = m by omega, heq]

end Stack

end Xv6Ringbuf.Kernel
