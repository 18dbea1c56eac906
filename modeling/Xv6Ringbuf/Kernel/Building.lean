import Xv6Ringbuf.Kernel.Exec
import Xv6Ringbuf.Kernel.Release
import Xv6Ringbuf.Kernel.Uvmalloc
import Xv6Ringbuf.Kernel.Uvmcopy

namespace Xv6Ringbuf.Kernel

open Machine Function

section Uvmalloc

variable [Image]

theorem uvmallocLoop_balance (oldsz newsz : UInt64) (xperm : Perm) (fuel : Nat) {a : UInt64}
    (ha : a.toNat % 4096 = 0) (s : State) :
    wp (uvmallocLoop oldsz newsz xperm fuel a) s (fun _ s' => s'.balance = s.balance)
      fun _ => True := by
  induction fuel generalizing a s with
  | zero => rfl
  | succ fuel ih =>
    have hundo : ∀ s' : State, s'.balance = s.balance →
        wp (do
          let _ ← uvmdealloc a oldsz
          return (0 : UInt64)) s' (fun _ s'' => s''.balance = s.balance) fun _ => True := by
      intro s' h
      refine wp_call (uvmdealloc_balance a oldsz s') ?_
      intro _ s'' h'
      exact h'.trans h
    rw [uvmallocLoop]
    by_cases hlt : a < newsz
    · rw [if_pos hlt]
      apply wp_bind
      apply kalloc_rule
      · intro _
        exact hundo s rfl
      · intro page rest hfree
        apply wp_modify_bind
        refine wp_call (mappages_balance ha _) ?_
        rintro r s' (⟨rfl, hbalance⟩ | ⟨hr, hbalance⟩)
        · rw [if_neg (by decide)]
          have hnext : (a + PGSIZE).toNat % 4096 = 0 := by
            rw [UInt64.toNat_add, toNat_PGSIZE]
            omega
          apply (ih hnext s').mono _ fun _ h => h
          intro _ s'' h'
          rw [h', hbalance]
          exact balance_taken hfree
        · rw [if_pos hr]
          refine wp_call (kfree_balance page s') ?_
          rintro _ s'' ⟨hfreed, _⟩
          apply hundo s''
          rw [hfreed, hbalance]
          exact balance_taken hfree
    · rw [if_neg hlt]
      rfl

theorem uvmallocLoop_keeps (oldsz newsz : UInt64) (xperm : Perm) (fuel : Nat) (a : UInt64) :
    Keeps TreeState (uvmallocLoop oldsz newsz xperm fuel a) := by
  induction fuel generalizing a with
  | zero => exact Keeps.pure _
  | succ fuel ih =>
    refine Keeps.ite (fun _ => ?_) fun _ => Keeps.pure _
    refine kalloc_keeps.bind fun r => ?_
    match r with
    | none => exact (uvmdealloc_keeps a oldsz).bind fun _ => Keeps.pure _
    | some page =>
      refine (setPage_keeps page 0).bind fun _ => (mappages_keeps _ _ _ _).bind fun _ => ?_
      refine Keeps.ite (fun _ => ?_) fun _ => ?_
      · exact (kfree_keeps page).bind fun _ => (uvmdealloc_keeps a oldsz).bind fun _ =>
          Keeps.pure _
      · exact ih _

end Uvmalloc

-- A new page table whose tables come from the pages that were free in `s₀`: what it
-- maps, and the pages that are free or in it.
structure Tabled [Image] (s₀ s : State) (w : Multiset UInt64) (leaf : Nat → Option Pte) : Prop where
  spares : Spares (NotFree s₀) s₀.mem s
  tree : TreeState s
  balance : s.balance = w
  leaf_eq : s.pagetable.leaf = leaf

-- The memory is as it was before a page table was made: the same pages are free,
-- and the others have their bytes.
structure Returned [Image] (s₀ s : State) : Prop where
  free : (s.freelist : Multiset UInt64) = s₀.freelist
  bytes : Undisturbed (NotFree s₀) s₀.mem s

theorem leaf_empty (page : UInt64) (n : Nat) : Pagetable.leaf ⟨page, fun _ => none⟩ n = none := by
  unfold Pagetable.leaf Pagetable.slot
  simp

section Table

variable [Image] {s₀ : State}

theorem emptyTable_tree {page : UInt64} (h : ValidPage page) :
    Pagetable.Tree ⟨page, fun _ => none⟩ := by
  refine ⟨h, ?_, ?_, ?_⟩
  · intro i l1 hl1
    cases hl1
  · intro i l1 hl1
    cases hl1
  · intro i l1 j l0 hl1
    cases hl1

theorem uvmcreate_tabled (hvalid : ∀ pa ∈ s₀.freelist, ValidPage pa) (hnodup : s₀.freelist.Nodup) :
    wp uvmcreate s₀ (fun r s => r = false ∧ Returned s₀ s ∨
      r = true ∧ Tabled s₀ s s₀.freelist fun _ => none) fun _ => False := by
  have hstart := Spares.start hvalid hnodup
  unfold uvmcreate newTable
  rw [bind_assoc]
  apply wp_bind
  apply kalloc_rule
  · intro _
    exact .inl ⟨rfl, rfl, fun _ _ _ _ => rfl⟩
  · intro page rest hfree
    obtain ⟨htaken, hpage, hkeep, _⟩ := hstart.taken hfree
    have hzero := htaken.memset hpage hkeep 0
    refine .inr ⟨rfl, hzero.table _, ⟨hzero.valid, emptyTable_tree hpage⟩, ?_, ?_⟩
    · show (rest : Multiset UInt64) + Pagetable.pages ⟨page, fun _ => none⟩ = _
      rw [Pagetable.pages, Table.total_empty, hfree, ← Multiset.cons_coe, add_comm,
        Multiset.singleton_add]
    · funext n
      exact leaf_empty page n

theorem Tabled.map {s : State} {w : Multiset UInt64} {leaf : Nat → Option Pte}
    (h : Tabled s₀ s w leaf) {va pa : UInt64} {perm : Perm} {n : Nat} (hva : Aligned va)
    (hvpn : vpn va = n) (hnone : leaf n = none) :
    wp (mappages va PGSIZE pa perm) s
      (fun r s' => r = 0 ∧ Tabled s₀ s' (w + {pa}) (update leaf n (some ⟨pa, perm⟩)) ∨
        r = -1 ∧ Tabled s₀ s' w leaf) fun _ => False := by
  apply (((mappages_wp hva s).and (mappages_spares va PGSIZE pa perm s h.spares)).and
    ((mappages_balance hva.mod s).and (mappages_keeps va PGSIZE pa perm s h.tree))).mono
  · rintro r s' ⟨⟨hcases, hspares⟩, hbalance, htree⟩
    rw [hvpn] at hcases
    rcases hcases with ⟨rfl, hmapped⟩ | ⟨rfl, hshort⟩
    · refine .inl ⟨rfl, hspares, htree, ?_, by rw [hmapped.leaf, h.leaf_eq]⟩
      rcases hbalance with ⟨_, hbalance⟩ | ⟨hr, _⟩
      · rw [hbalance, h.balance]
      · exact absurd rfl hr
    · refine .inr ⟨rfl, hspares, htree, ?_, by rw [hshort.leaf, h.leaf_eq]⟩
      rcases hbalance with ⟨hr, _⟩ | ⟨_, hbalance⟩
      · exact absurd hr (by decide)
      · rw [hbalance, h.balance]
  · rintro _ ⟨⟨hbad, _⟩, _⟩
    apply hbad
    rw [h.leaf_eq, hvpn]
    exact hnone

theorem Tabled.dissolve {s : State} (h : Tabled s₀ s s₀.freelist fun _ => none) :
    wp (uvmfree 0) s (fun _ s' => Returned s₀ s') fun _ => False := by
  have hwalk : wp (uvmfree 0) s (fun _ _ => True) fun _ => False := by
    unfold uvmfree
    rw [if_neg (by decide)]
    apply wp_get_bind
    apply (freewalk_wp h.tree.tree (by simp [h.leaf_eq]) s).mono (fun _ _ _ => trivial)
    rintro _ ⟨⟨n, hn⟩, _⟩
    exact hn (congrFun h.leaf_eq n)
  apply ((hwalk.and (uvmfree_balance 0 s)).and (uvmfree_changedFree 0 s)).mono
  · rintro _ s' ⟨⟨_, hbalance⟩, hchanged⟩
    have hfree := hbalance.trans h.balance
    refine ⟨hfree, hchanged.undisturbed h.spares.same (fun _ hused => hused.1) fun pa hpa hused => ?_⟩
    rw [← Multiset.mem_coe, hfree] at hpa
    exact hused.2 hpa
  · rintro _ ⟨⟨hfalse, _⟩, _⟩
    exact hfalse

end Table

def kernelPages (trampoline trapframe : UInt64) : Nat → Option Pte :=
  update (update (fun _ => none) (2 ^ 26 - 1)
    (some ⟨trampoline, ⟨true, false, true, false⟩⟩)) (2 ^ 26 - 2)
    (some ⟨trapframe, ⟨true, true, false, false⟩⟩)

theorem kernelPages_low {trampoline trapframe : UInt64} {m : Nat} (h : m < 2 ^ 26 - 2) :
    kernelPages trampoline trapframe m = none := by
  unfold kernelPages
  rw [update_of_ne (by omega), update_of_ne (by omega)]

-- An address space in the making, with `n` pages of memory.
structure Building [Image] (s₀ : State) (trampoline trapframe : UInt64) (s : State) (n : Nat) :
    Prop where
  heap : Heap (2 ^ 26 - 2) s n
  aside : Aside (NotFree s₀) s₀.mem s n
  tree : TreeState s
  balance : s.balance = s₀.freelist + {trampoline} + {trapframe}
  top : ∀ m, 2 ^ 26 - 2 ≤ m → s.pagetable.leaf m = kernelPages trampoline trapframe m

section Building

variable [Image] {s₀ s : State} {trampoline trapframe : UInt64} {n : Nat}

theorem Tabled.building
    (h : Tabled s₀ s (s₀.freelist + {trampoline} + {trapframe}) (kernelPages trampoline trapframe)) :
    Building s₀ trampoline trapframe s 0 := by
  refine ⟨⟨h.spares.valid, h.spares.nodup, ?_, by simp, by simp⟩, ⟨h.spares, by simp⟩, h.tree,
    h.balance, fun m _ => congrFun h.leaf_eq m⟩
  intro m hm
  rw [h.leaf_eq, kernelPages_low hm]
  simp

theorem procPagetable_building (hvalid : ∀ pa ∈ s₀.freelist, ValidPage pa)
    (hnodup : s₀.freelist.Nodup) :
    wp (procPagetable trampoline trapframe) s₀
      (fun r s => r = false ∧ Returned s₀ s ∨ r = true ∧ Building s₀ trampoline trapframe s 0)
      fun _ => False := by
  have hTrampoline : vpn TRAMPOLINE = 2 ^ 26 - 1 := by decide
  have hTrapframe : vpn TRAPFRAME = 2 ^ 26 - 2 := by decide
  unfold procPagetable
  refine wp_call (uvmcreate_tabled hvalid hnodup) ?_
  rintro r s (⟨rfl, hreturned⟩ | ⟨rfl, htabled⟩)
  · exact .inl ⟨rfl, hreturned⟩
  · rw [if_pos rfl]
    refine wp_call (htabled.map ⟨by decide, by decide⟩ hTrampoline rfl) ?_
    rintro r s₁ (⟨rfl, htabled₁⟩ | ⟨rfl, htabled₁⟩)
    · rw [if_neg (by decide)]
      apply wp_bind
      have hnone : update (fun _ => none) (2 ^ 26 - 1)
          (some (⟨trampoline, ⟨true, false, true, false⟩⟩ : Pte)) (2 ^ 26 - 2) = none :=
        update_of_ne (by decide) _ _
      apply (htabled₁.map ⟨by decide, by decide⟩ hTrapframe hnone).mono _ fun _ h => h
      rintro r s₂ (⟨rfl, htabled₂⟩ | ⟨rfl, htabled₂⟩)
      · rw [if_neg (by decide)]
        exact .inr ⟨rfl, htabled₂.building⟩
      · -- The trampoline's entry goes first, then the tables.
        rw [if_pos (by decide)]
        apply wp_bind
        have hcode : s₂.pagetable.leaf (vpn TRAMPOLINE) =
            some ⟨trampoline, ⟨true, false, true, false⟩⟩ := by
          rw [htabled₂.leaf_eq, hTrampoline, update_self]
        have hunmap := uvmunmap_wp false TRAMPOLINE 1 (by decide) (by decide) s₂
        apply ((hunmap.and (uvmunmap_keeps TRAMPOLINE 1 false s₂ htabled₂.tree)).and
          (uvmunmapOne_balance ⟨by decide, by decide⟩ hcode)).mono
        · rintro _ s₃ ⟨⟨⟨_, hunmapped⟩, htree⟩, hbalance⟩
          have htabled₃ : Tabled s₀ s₃ s₀.freelist fun _ => none := by
            obtain ⟨hfree, hmem⟩ := hunmapped.free rfl
            refine ⟨?_, htree, ?_, ?_⟩
            · have hspares := htabled₂.spares
              refine ⟨?_, ?_, ?_, hspares.held, ?_⟩
              · rw [hfree]
                exact hspares.valid
              · rw [hfree]
                exact hspares.nodup
              · rw [hfree]
                exact hspares.apart
              · rw [hmem]
                exact hspares.same
            · rw [htabled₂.balance] at hbalance
              exact add_right_cancel hbalance
            · rw [hunmapped.leaf, htabled₂.leaf_eq, hTrampoline]
              funext m
              by_cases hm : m = 2 ^ 26 - 1
              · rw [if_pos (by omega)]
              · rw [if_neg (by omega), update_of_ne hm]
          refine wp_call htabled₃.dissolve ?_
          intro _ s₄ hreturned
          exact .inl ⟨rfl, hreturned⟩
        · rintro _ ⟨⟨⟨⟨m, hm, hm', hbad⟩, -⟩, -⟩, -⟩
          apply hbad
          rw [hTrampoline] at hm hm'
          have heq : m = vpn TRAMPOLINE := by omega
          rw [heq, hcode]
          exact ⟨_, rfl, by simp, by simp⟩
    · rw [if_pos (by decide)]
      refine wp_call htabled₁.dissolve ?_
      intro _ s₂ hreturned
      exact .inl ⟨rfl, hreturned⟩

end Building

end Xv6Ringbuf.Kernel
