import Xv6Ringbuf.Kernel.Building

namespace Xv6Ringbuf.Kernel

open Machine Function

theorem userPages_eq {sz : UInt64} (h : pagesOf sz ≤ 2 ^ 26) : userPages sz = pagesOf sz := by
  unfold userPages
  rw [UInt64.toNat_div, toNat_PGROUNDUP h, toNat_PGSIZE]
  exact Nat.mul_div_cancel_left _ (by decide)

def AllUser (s : State) (n : Nat) : Prop :=
  ∀ m < n, ∀ pte, s.pagetable.leaf m = some pte → pte.perm.u = true

section Building

variable [Image] {s₀ s : State} {trampoline trapframe : UInt64} {n : Nat}

theorem Building.bound (h : Building s₀ trampoline trapframe s n) : n ≤ 2 ^ 15 := by
  have hbound := h.heap.bound (by decide)
  omega

theorem Building.mapped (h : Building s₀ trampoline trapframe s n) {m : Nat} (hm : m < n) :
    ∃ pte, s.pagetable.leaf m = some pte := by
  have hbound := h.bound
  exact Option.ne_none_iff_exists'.mp ((h.heap.mapped m (by omega)).mpr hm)

theorem Building.layout {sz : UInt64} (h : Building s₀ trampoline trapframe s (pagesOf sz)) :
    Layout s.pagetable sz fun _ => False := by
  have hbound := h.bound
  have hpages : userPages sz = pagesOf sz := userPages_eq (by omega)
  refine ⟨h.tree.tree, by omega, ?_, ?_, ?_⟩
  · intro m hm
    rw [hpages] at hm
    obtain ⟨pte, hpte⟩ := h.mapped hm
    obtain ⟨hvalid, hperm, _⟩ := h.heap.page m hm pte hpte
    exact ⟨pte, hpte, hperm, fun _ => hvalid⟩
  · intro m hm hm'
    rw [h.top m hm]
    by_cases heq : m = 2 ^ 26 - 2
    · rw [heq]
      exact ⟨⟨trapframe, ⟨true, true, false, false⟩⟩, update_self .., by simp, rfl⟩
    · have hlast : m = 2 ^ 26 - 1 := by omega
      refine ⟨⟨trampoline, ⟨true, false, true, false⟩⟩, ?_, by simp, rfl⟩
      rw [hlast, kernelPages, update_of_ne (by decide), update_self]
  · intro m hm hm' pte hpte
    rw [hpages] at hm
    have hlow := (h.heap.mapped m hm').mp (by rw [hpte]; simp)
    omega

theorem Building.release {sz : UInt64} (h : Building s₀ trampoline trapframe s (pagesOf sz)) :
    wp (procFreepagetable sz) s (fun _ s' => Returned s₀ s') fun _ => False := by
  have hcode : s.pagetable.leaf (2 ^ 26 - 1) = some ⟨trampoline, ⟨true, false, true, false⟩⟩ := by
    rw [h.top _ (by decide), kernelPages, update_of_ne (by decide), update_self]
  have hframe : s.pagetable.leaf (2 ^ 26 - 2) = some ⟨trapframe, ⟨true, true, false, false⟩⟩ := by
    rw [h.top _ (by decide), kernelPages, update_self]
  have hfree : ∀ w : Multiset UInt64, s.balance = w + {trampoline} + {trapframe} →
      w = s₀.freelist := by
    intro w hw
    rw [h.balance] at hw
    exact (add_right_cancel (add_right_cancel hw)).symm
  have hkeep : ∀ w : Multiset UInt64, s.balance = w + {trampoline} + {trapframe} →
      ∀ pa ∈ w, ¬NotFree s₀ pa := by
    intro w hw pa hpa hused
    rw [hfree w hw] at hpa
    exact hused.2 (Multiset.mem_coe.mp hpa)
  apply (procFreepagetable_release h.tree.free h.layout hcode hframe (fun _ hused => hused.1) hkeep
    h.aside.spares.same).mono _ fun _ h => h
  rintro _ s' ⟨hbalance, hbytes⟩
  exact ⟨hfree _ hbalance, hbytes⟩

theorem Building.write (h : Building s₀ trampoline trapframe s n) {mem : UInt64 → UInt8}
    (hmem : ∀ a, (∀ m < n, ∀ pte, s.pagetable.leaf m = some pte → ¬a - pte.pa < PGSIZE) →
      mem a = s.mem a) : Building s₀ trampoline trapframe { s with mem := mem } n := by
  have hspares := h.aside.spares
  refine ⟨⟨h.heap.free, h.heap.nodup, h.heap.mapped, h.heap.page, h.heap.once⟩,
    ⟨⟨hspares.valid, hspares.nodup, hspares.apart, hspares.held, ?_⟩, h.aside.off⟩,
    ⟨h.tree.free, h.tree.tree⟩, h.balance, h.top⟩
  intro pa hused a ha
  have hother : ∀ m < n, ∀ pte, s.pagetable.leaf m = some pte → ¬a - pte.pa < PGSIZE := by
    intro m hm pte hpte ha'
    have heq := hused.1.apart (h.heap.page m hm pte hpte).1 ha ha'
    exact h.aside.off m hm pte hpte (heq ▸ hused)
  show mem a = s₀.mem a
  rw [hmem a hother]
  exact hspares.same pa hused a ha

theorem Building.store (h : Building s₀ trampoline trapframe s n) {m : Nat} (hm : m < n) {pte : Pte}
    (hpte : s.pagetable.leaf m = some pte) {bytes : List UInt8} (hlen : bytes.length ≤ 4096)
    {Q : Unit → State → Prop} {E : Panic → Prop}
    (hnext : ∀ s', Building s₀ trampoline trapframe s' n → s'.pagetable = s.pagetable → Q () s') :
    wp (storeBytes pte.pa bytes) s Q E := by
  unfold storeBytes
  apply wp_modify
  refine hnext _ (h.write ?_) rfl
  intro a ha
  apply if_neg
  intro hin
  apply ha m hm pte hpte
  rw [UInt64.lt_iff_toNat_lt, toNat_PGSIZE]
  omega

theorem uvmalloc_building (xperm : Perm) {oldsz newsz : UInt64}
    (h : Building s₀ trampoline trapframe s (pagesOf oldsz)) (hle : oldsz ≤ newsz) :
    wp (uvmalloc oldsz newsz xperm) s
      (fun r s' => r = newsz ∧ Building s₀ trampoline trapframe s' (pagesOf newsz) ∧
          Resized (2 ^ 26 - 2) (permUser xperm) s s' (pagesOf oldsz) (pagesOf newsz) ∨
        r = 0 ∧ Building s₀ trampoline trapframe s' (pagesOf oldsz) ∧
          Resized (2 ^ 26 - 2) (permUser xperm) s s' (pagesOf oldsz) (pagesOf oldsz))
      fun _ => False := by
  have hbound := h.bound
  have hround : (PGROUNDUP oldsz).toNat = 4096 * pagesOf oldsz := toNat_PGROUNDUP (by omega)
  have hbalance : wp (uvmalloc oldsz newsz xperm) s
      (fun _ s' => s'.balance = s.balance ∧ TreeState s') fun _ => True := by
    unfold uvmalloc
    rw [if_neg (UInt64.not_lt.mpr hle)]
    apply ((uvmallocLoop_balance _ newsz xperm _ (by omega) s).and
      (uvmallocLoop_keeps _ newsz xperm _ _ s h.tree)).mono (fun _ _ h => h) fun _ _ => trivial
  apply ((uvmalloc_heap xperm (by decide) (by decide) h.heap h.aside hle).and hbalance).mono _
    fun _ h => h.1
  rintro r s' ⟨⟨rfl, hresized, haside⟩ | ⟨rfl, hresized, haside⟩, hbalance', htree⟩
  · refine .inl ⟨rfl, ⟨hresized.heap, haside, htree, hbalance'.trans h.balance, ?_⟩, hresized⟩
    intro m hm
    rw [hresized.beyond m hm, h.top m hm]
  · refine .inr ⟨rfl, ⟨hresized.heap, haside, htree, hbalance'.trans h.balance, ?_⟩, hresized⟩
    intro m hm
    rw [hresized.beyond m hm, h.top m hm]

theorem Resized.allUser {xperm : Perm} {s' : State} {k : Nat}
    (h : Resized (2 ^ 26 - 2) (permUser xperm) s s' n k) (huser : AllUser s n) : AllUser s' k := by
  intro m hm pte hpte
  by_cases hold : m < n
  · rw [h.kept m hold hm] at hpte
    exact huser m hold pte hpte
  · obtain ⟨pte', hpte', hperm, _⟩ := h.fresh m (Nat.le_of_not_lt hold) hm
    rw [hpte, Option.some.injEq] at hpte'
    rw [hpte', hperm]
    rfl

end Building

theorem readi_length_le (content : List UInt8) (off n : UInt32) :
    (readi content off n).length ≤ n.toNat := by
  unfold readi
  simp only
  split
  · exact Nat.zero_le _
  · rename_i hin
    rw [not_or, UInt32.not_lt, UInt32.not_lt] at hin
    obtain ⟨hoff, hwrap⟩ := hin
    split
    · rename_i hend
      rw [List.length_take]
      apply Nat.le_trans (Nat.min_le_left _ _)
      rw [UInt32.toNat_sub_of_le _ _ hoff]
      rw [UInt32.lt_iff_toNat_lt, UInt32.toNat_add] at hend
      rw [UInt32.le_iff_toNat_le, UInt32.toNat_add] at hwrap
      have hlt := n.toNat_lt
      have hlt' := off.toNat_lt
      omega
    · rw [List.length_take]
      exact Nat.min_le_left _ _

section Load

variable [Image] {s₀ s : State} {trampoline trapframe : UInt64} {n : Nat}

theorem Building.walkaddr (h : Building s₀ trampoline trapframe s n) (huser : AllUser s n)
    {va : UInt64} (hva : vpn va < n) :
    ∃ pte, s.pagetable.leaf (vpn va) = some pte ∧ s.pagetable.walkaddr va = pte.pa ∧ pte.pa ≠ 0 := by
  have hbound := h.bound
  have hlt : va < MAXVA := by
    rw [UInt64.lt_iff_toNat_lt, toNat_MAXVA]
    unfold vpn at hva
    omega
  obtain ⟨pte, hpte⟩ := h.mapped hva
  refine ⟨pte, hpte, ?_, (h.heap.page _ hva pte hpte).1.ne_zero⟩
  rw [walkaddr_eq _ hlt, Pagetable.user, hpte]
  simp only [huser _ hva pte hpte, if_true, Option.getD_some]

theorem loadsegLoop_building {va : UInt64} (content : List UInt8) (offset : UInt32) {sz : UInt32}
    (hmod : va.toNat % 4096 = 0) (hend : va.toNat + sz.toNat ≤ 4096 * n) (fuel : Nat) {i : UInt32}
    (hi : i.toNat % 4096 = 0) (h : Building s₀ trampoline trapframe s n) (huser : AllUser s n) :
    wp (loadsegLoop va content offset sz fuel i) s
      (fun _ s' => Building s₀ trampoline trapframe s' n ∧ s'.pagetable = s.pagetable)
      fun _ => False := by
  induction fuel generalizing i s with
  | zero => exact ⟨h, rfl⟩
  | succ fuel ih =>
    have hbound := h.bound
    rw [loadsegLoop]
    by_cases hlt : i < sz
    · have hlt' := UInt32.lt_iff_toNat_lt.mp hlt
      have haddr : (va + i.toUInt64).toNat = va.toNat + i.toNat := by
        rw [UInt64.toNat_add, UInt32.toNat_toUInt64]
        omega
      have hvpn : vpn (va + i.toUInt64) < n := by
        unfold vpn
        omega
      obtain ⟨pte, hpte, hwalk, hne⟩ := h.walkaddr huser hvpn
      rw [if_pos hlt]
      apply wp_bind
      apply walkaddr_wp
      rw [hwalk, if_neg hne]
      have hcount : (if sz - i < 4096 then sz - i else 4096).toNat ≤ 4096 := by
        split
        · rename_i hless
          exact Nat.le_of_lt (UInt32.lt_iff_toNat_lt.mp hless)
        · decide
      generalize (if sz - i < 4096 then sz - i else 4096) = count at hcount ⊢
      have hlen := readi_length_le content (offset + i) count
      apply wp_bind
      apply h.store hvpn hpte (by omega)
      intro s' h' hpt
      split
      · exact ⟨h', hpt⟩
      · have hnext : (i + 4096).toNat % 4096 = 0 := by
          rw [UInt32.toNat_add, show (4096 : UInt32).toNat = 4096 by rfl]
          omega
        have huser' : AllUser s' n := by
          unfold AllUser
          rw [hpt]
          exact huser
        apply (ih hnext h' huser').mono _ fun _ h => h
        rintro _ s'' ⟨h'', hpt'⟩
        exact ⟨h'', hpt'.trans hpt⟩
    · rw [if_neg hlt]
      exact ⟨h, rfl⟩

theorem loadLoop_building (content : List UInt8) (count : Nat) (off : UInt32) {sz : UInt64}
    (h : Building s₀ trampoline trapframe s (pagesOf sz)) (huser : AllUser s (pagesOf sz)) :
    wp (loadLoop content count off sz) s
      (fun r s' => Building s₀ trampoline trapframe s' (pagesOf r.2) ∧ AllUser s' (pagesOf r.2))
      fun _ => False := by
  induction count generalizing off sz s with
  | zero => exact ⟨h, huser⟩
  | succ count ih =>
    rw [loadLoop]
    generalize Proghdr.ofBytes (readi content off 56) = ph
    split
    · exact ⟨h, huser⟩
    split
    · exact ih (off + 56) h huser
    split
    · exact ⟨h, huser⟩
    rename_i hsize
    split
    · exact ⟨h, huser⟩
    rename_i hwrap
    split
    · exact ⟨h, huser⟩
    rename_i hmod
    rw [UInt64.not_lt, UInt64.le_iff_toNat_le] at hsize hwrap
    rw [not_not] at hmod
    have hmod' : ph.vaddr.toNat % 4096 = 0 := by
      have hnat := congrArg UInt64.toNat hmod
      rwa [UInt64.toNat_mod] at hnat
    have hend : ph.vaddr.toNat + ph.filesz.toUInt32.toNat ≤ (ph.vaddr + ph.memsz).toNat := by
      have hlt := ph.memsz.toNat_lt
      have hlt' := ph.vaddr.toNat_lt
      rw [UInt64.toNat_toUInt32, UInt64.toNat_add] at *
      omega
    -- What is common to the two cases of `uvmalloc`: the segment ends below `sz1`.
    have hload : ∀ (sz1 : UInt64) (s₁ : State), (ph.vaddr + ph.memsz).toNat ≤ sz1.toNat →
        Building s₀ trampoline trapframe s₁ (pagesOf sz1) → AllUser s₁ (pagesOf sz1) →
        wp (do
          if (← loadseg ph.vaddr content ph.off.toUInt32 ph.filesz.toUInt32) < 0 then
            return (false, sz1)
          else loadLoop content count (off + 56) sz1) s₁
        (fun r s' => Building s₀ trampoline trapframe s' (pagesOf r.2) ∧
          AllUser s' (pagesOf r.2)) fun _ => False := by
      intro sz1 s₁ hle h₁ huser₁
      have hroom : ph.vaddr.toNat + ph.filesz.toUInt32.toNat ≤ 4096 * pagesOf sz1 := by
        unfold pagesOf
        omega
      apply wp_bind
      unfold loadseg
      apply (loadsegLoop_building content _ hmod' hroom _ (by decide) h₁ huser₁).mono _
        fun _ h => h
      rintro r s₂ ⟨h₂, hpt⟩
      have huser₂ : AllUser s₂ (pagesOf sz1) := by
        unfold AllUser
        rw [hpt]
        exact huser₁
      split
      · exact ⟨h₂, huser₂⟩
      · exact ih (off + 56) h₂ huser₂
    apply wp_bind
    by_cases hless : ph.vaddr + ph.memsz < sz
    · unfold uvmalloc
      rw [if_pos hless]
      apply wp_pure
      rw [UInt64.lt_iff_toNat_lt] at hless
      split
      · exact ⟨h, huser⟩
      · exact hload sz s (by omega) h huser
    · apply (uvmalloc_building _ h (UInt64.not_lt.mp hless)).mono _ fun _ h => h
      rintro r s₁ (⟨rfl, h₁, hresized⟩ | ⟨rfl, h₁, hresized⟩)
      · have huser₁ := hresized.allUser huser
        split
        · rename_i hzero
          have hsame : sz = ph.vaddr + ph.memsz := by
            rw [UInt64.not_lt, UInt64.le_iff_toNat_le] at hless
            rw [hzero] at hless ⊢
            exact UInt64.toNat_inj.mp (Nat.eq_zero_of_le_zero hless)
          rw [hsame]
          exact ⟨h₁, huser₁⟩
        · exact hload _ s₁ (Nat.le_refl _) h₁ huser₁
      · rw [if_pos rfl]
        exact ⟨h₁, hresized.allUser huser⟩

end Load

end Xv6Ringbuf.Kernel
