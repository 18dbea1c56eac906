import Xv6Ringbuf.Kernel.Leaf

namespace Xv6Ringbuf.Kernel

open Machine

-- The parts of the state that the allocator and the page tables do not touch.
structure Frame (s s' : State) : Prop where
  ringbufs : s'.ringbufs = s.ringbufs
  reads : s'.reads = s.reads
  given : s'.given = s.given

theorem Frame.refl (s : State) : Frame s s := ⟨rfl, rfl, rfl⟩

variable {s s' : State} {n : Nat} {l1 : Level1} {pt : Pagetable} {va : UInt64}

theorem Frame.trans {s'' : State} (h : Frame s s') (h' : Frame s' s'') : Frame s s'' :=
  ⟨h'.ringbufs.trans h.ringbufs, h'.reads.trans h.reads, h'.given.trans h.given⟩

theorem kalloc_wp (s : State) :
    wp kalloc s (fun r s' => Frame s s' ∧ s'.pagetable = s.pagetable ∧
      (r = none ∧ s.freelist = [] ∧ s'.freelist = [] ∨
        ∃ page, r = some page ∧ s.freelist = page :: s'.freelist)) (fun _ => False) := by
  unfold kalloc
  apply wp_get_bind
  cases hfree : s.freelist with
  | nil => exact ⟨Frame.refl s, rfl, .inl ⟨rfl, rfl, hfree⟩⟩
  | cons page rest => exact ⟨⟨rfl, rfl, rfl⟩, rfl, .inr ⟨page, rfl, rfl⟩⟩

theorem newTable_wp (α : Type) (s : State) :
    wp (newTable α) s (fun r s' => Frame s s' ∧ s'.pagetable = s.pagetable ∧
      (r = none ∧ s.freelist = [] ∧ s'.freelist = [] ∨
        ∃ page, r = some ⟨page, fun _ => none⟩ ∧ s.freelist = page :: s'.freelist))
      (fun _ => False) := by
  unfold newTable
  refine wp_call (kalloc_wp s) ?_
  rintro r s' ⟨hframe, hpt, ⟨rfl, hfree, hfree'⟩ | ⟨page, rfl, hfree⟩⟩
  · exact ⟨hframe, hpt, .inl ⟨rfl, hfree, hfree'⟩⟩
  · exact ⟨hframe.trans ⟨rfl, rfl, rfl⟩, hpt, .inr ⟨page, rfl, hfree⟩⟩

def growth (missing : Nat → Nat) (n m : Nat) : Nat :=
  if index 2 m = index 2 n then if index 1 m = index 1 n then 0 else min (missing m) 1
  else missing m

structure Grown (s s' : State) (n : Nat) : Prop where
  frame : Frame s s'
  leaf : s'.pagetable.leaf = s.pagetable.leaf
  free : ∃ popped, s.freelist = popped ++ s'.freelist ∧ popped.length = s.pagetable.missing n
  missing : ∀ m, s'.pagetable.missing m = growth s.pagetable.missing n m

theorem Grown.present (h : Grown s s' n) : s'.pagetable.missing n = 0 := by
  rw [h.missing n, growth, if_pos rfl, if_pos rfl]

structure Short (s s' : State) (n : Nat) : Prop where
  frame : Frame s s'
  leaf : s'.pagetable.leaf = s.pagetable.leaf
  free : s.freelist.length < s.pagetable.missing n

theorem allocLevel1_wp (va : UInt64) (s : State) :
    wp (allocLevel1 va) s (fun r s' =>
      ((∃ l1, s.pagetable.entry (index 2 (vpn va)) = some l1) ∧ r = true ∧ s' = s) ∨
      (s.pagetable.entry (index 2 (vpn va)) = none ∧ Frame s s' ∧
        ((∃ page, r = true ∧ s.freelist = page :: s'.freelist ∧ s'.pagetable =
            Table.set s.pagetable (index 2 (vpn va)) (some ⟨page, fun _ => none⟩)) ∨
          (r = false ∧ s.freelist = [] ∧ s'.pagetable = s.pagetable))))
      (fun _ => False) := by
  unfold allocLevel1
  apply wp_get_bind
  rw [px_eq]
  cases hentry : s.pagetable.entry (index 2 (vpn va)) with
  | some l1 => exact .inl ⟨⟨l1, rfl⟩, rfl, rfl⟩
  | none =>
    refine wp_call (newTable_wp Level0 s) ?_
    rintro r s' ⟨hframe, hpt, ⟨rfl, hfree, _⟩ | ⟨page, rfl, hfree⟩⟩
    · exact .inr ⟨rfl, hframe, .inr ⟨rfl, hfree, hpt⟩⟩
    · refine .inr ⟨rfl, hframe.trans ⟨rfl, rfl, rfl⟩, .inl ⟨page, rfl, hfree, ?_⟩⟩
      rw [← hpt]

theorem allocLevel0_wp (va : UInt64) (s : State) (hl1 : s.pagetable.entry (index 2 (vpn va)) = some l1) :
    wp (allocLevel0 va) s (fun r s' =>
      ((∃ l0, l1.entry (index 1 (vpn va)) = some l0) ∧ r = true ∧ s' = s) ∨
      (l1.entry (index 1 (vpn va)) = none ∧ Frame s s' ∧
        ((∃ page, r = true ∧ s.freelist = page :: s'.freelist ∧ s'.pagetable =
            Table.set s.pagetable (index 2 (vpn va))
              (some (l1.set (index 1 (vpn va)) (some ⟨page, fun _ => none⟩)))) ∨
          (r = false ∧ s.freelist = [] ∧ s'.pagetable = s.pagetable))))
      (fun _ => False) := by
  unfold allocLevel0
  apply wp_get_bind
  rw [px_eq, hl1]
  simp only [px_eq]
  cases hentry : l1.entry (index 1 (vpn va)) with
  | some l0 => exact .inl ⟨⟨l0, rfl⟩, rfl, rfl⟩
  | none =>
    refine wp_call (newTable_wp Pte s) ?_
    rintro r s' ⟨hframe, hpt, ⟨rfl, hfree, _⟩ | ⟨page, rfl, hfree⟩⟩
    · exact .inr ⟨rfl, hframe, .inr ⟨rfl, hfree, hpt⟩⟩
    · refine .inr ⟨rfl, hframe.trans ⟨rfl, rfl, rfl⟩, .inl ⟨page, rfl, hfree, ?_⟩⟩
      rw [← hpt]

theorem missing_add_level1 (pt : Pagetable) (n : Nat) (page : UInt64) (m : Nat) :
    Pagetable.missing (Table.set pt (index 2 n) (some ⟨page, fun _ => none⟩)) m =
      if index 2 m = index 2 n then 1 else pt.missing m := by
  simp only [Pagetable.missing, Table.set_entry]
  by_cases hm : index 2 m = index 2 n
  · rw [if_pos hm, if_pos hm]
  · rw [if_neg hm, if_neg hm]

theorem missing_add_level0 (page : UInt64) (h : pt.entry (index 2 n) = some l1) (m : Nat) :
    Pagetable.missing (Table.set pt (index 2 n)
      (some (l1.set (index 1 n) (some ⟨page, fun _ => none⟩)))) m =
        if index 2 m = index 2 n then if index 1 m = index 1 n then 0 else pt.missing m
        else pt.missing m := by
  simp only [Pagetable.missing, Table.set_entry]
  by_cases hm : index 2 m = index 2 n
  · rw [if_pos hm, if_pos hm, hm, h]
    simp only [Table.set_entry]
    by_cases hm' : index 1 m = index 1 n
    · rw [if_pos hm', if_pos hm']
    · rw [if_neg hm', if_neg hm']
  · rw [if_neg hm, if_neg hm]

theorem missing_of_level1 {m : Nat} (h : pt.entry (index 2 m) = some l1) :
    pt.missing m = if (l1.entry (index 1 m)).isSome then 0 else 1 := by
  simp only [Pagetable.missing, h]
  cases l1.entry (index 1 m) with
  | none => rfl
  | some l0 => rfl

theorem missing_of_no_level1 (h : pt.entry (index 2 n) = none) :
    pt.missing n = 2 := by
  simp only [Pagetable.missing, h]

-- `walk` with `alloc`, run to its end or out of pages.
def Walked (n : Nat) (s : State) (r : Option (Option Pte)) (s' : State) : Prop :=
  (r = some (s.pagetable.leaf n) ∧ Grown s s' n) ∨ (r = none ∧ Short s s' n)

theorem walked_level0 (hva : vpn va < 2 ^ 26) (hl1 : s.pagetable.entry (index 2 (vpn va)) = some l1) :
    wp (do if ← allocLevel0 va then return (← get).pagetable.lookup va else return none) s
      (Walked (vpn va) s) (fun _ => False) := by
  have hmissing := missing_of_level1 hl1
  refine wp_call (allocLevel0_wp va s hl1) ?_
  rintro r s' (⟨⟨l0, hl0⟩, rfl, rfl⟩ | ⟨hl0, hframe, ⟨page, rfl, hfree, hpt⟩ | ⟨rfl, hfree, hpt⟩⟩)
  · rw [hl0] at hmissing
    refine .inl ⟨?_, Frame.refl _, rfl, ⟨[], rfl, by rw [hmissing]; rfl⟩, ?_⟩
    · rw [lookup_eq_slot, slot_eq_leaf hva hmissing]
    · intro m
      rw [growth]
      by_cases hm : index 2 m = index 2 (vpn va)
      · have hmissing' := missing_of_level1 (hm ▸ hl1 : s'.pagetable.entry (index 2 m) = some l1)
        rw [if_pos hm]
        by_cases hm' : index 1 m = index 1 (vpn va)
        · rw [if_pos hm', hmissing', hm', hl0]
          rfl
        · rw [if_neg hm', hmissing']
          split <;> rfl
      · rw [if_neg hm]
  · rw [hl0] at hmissing
    have hleaf : s'.pagetable.leaf = s.pagetable.leaf := by
      rw [hpt, slot_add_level0 page hl1 hl0]
    have hgrown : Grown s s' (vpn va) := by
      refine ⟨hframe, hleaf, ⟨[page], hfree, by rw [hmissing]; rfl⟩, ?_⟩
      intro m
      rw [hpt, missing_add_level0 page hl1, growth]
      by_cases hm : index 2 m = index 2 (vpn va)
      · have hmissing' := missing_of_level1 (hm ▸ hl1 : s.pagetable.entry (index 2 m) = some l1)
        rw [if_pos hm, if_pos hm, hmissing']
        by_cases hm' : index 1 m = index 1 (vpn va)
        · rw [if_pos hm', if_pos hm']
        · rw [if_neg hm', if_neg hm']
          split <;> rfl
      · rw [if_neg hm, if_neg hm]
    refine .inl ⟨?_, hgrown⟩
    rw [lookup_eq_slot, slot_eq_leaf hva hgrown.present, hleaf]
  · rw [hl0] at hmissing
    refine .inr ⟨rfl, hframe, by rw [hpt], ?_⟩
    rw [hfree, hmissing]
    exact Nat.one_pos

theorem walk_alloc_wp (hva : va < MAXVA) (s : State) :
    wp (walk va true) s (Walked (vpn va) s) (fun _ => False) := by
  unfold walk
  rw [if_neg (UInt64.not_le.mpr hva), if_pos rfl]
  refine wp_call (allocLevel1_wp va s) ?_
  rintro r s' (⟨⟨l1, hl1⟩, rfl, rfl⟩ | ⟨hl1, hframe, ⟨page, rfl, hfree, hpt⟩ | ⟨rfl, hfree, hpt⟩⟩)
  · exact walked_level0 (vpn_lt hva) hl1
  · have hl1' : s'.pagetable.entry (index 2 (vpn va)) = some ⟨page, fun _ => none⟩ := by
      rw [hpt, Table.set_entry, if_pos rfl]
    have hmissing := missing_of_no_level1 hl1
    have hmissing' := missing_of_level1 hl1'
    have hleaf : s'.pagetable.leaf = s.pagetable.leaf := by
      rw [hpt, slot_add_level1 page hl1]
    apply (walked_level0 (vpn_lt hva) hl1').mono _ (fun _ h => h)
    rintro r s'' (⟨rfl, hgrown⟩ | ⟨rfl, hshort⟩)
    · obtain ⟨popped, hfree', hcount⟩ := hgrown.free
      refine .inl ⟨by rw [hleaf], hframe.trans hgrown.frame,
        hgrown.leaf.trans hleaf, ⟨page :: popped, ?_, ?_⟩, ?_⟩
      · rw [hfree, hfree', List.cons_append]
      · rw [List.length_cons, hcount, hmissing', hmissing]
        rfl
      · intro m
        rw [hgrown.missing, growth, growth, hpt, missing_add_level1]
        by_cases hm : index 2 m = index 2 (vpn va)
        · have hmissing'' := missing_of_no_level1 (hm ▸ hl1 : s.pagetable.entry (index 2 m) = none)
          rw [if_pos hm, if_pos hm, if_pos hm, hmissing'']
          rfl
        · rw [if_neg hm, if_neg hm, if_neg hm]
    · have hlen := hshort.free
      rw [hmissing'] at hlen
      refine .inr ⟨rfl, hframe.trans hshort.frame, hshort.leaf.trans hleaf, ?_⟩
      rw [hfree, hmissing, List.length_cons]
      simp only [Option.isSome_none, Bool.false_eq_true, if_false] at hlen
      omega
  · refine .inr ⟨rfl, hframe, by rw [hpt], ?_⟩
    rw [hfree, missing_of_no_level1 hl1]
    exact Nat.two_pos

theorem walk_wp (hva : va < MAXVA) {Q : Option (Option Pte) → State → Prop} {E : Panic → Prop}
    (h : Q (s.pagetable.slot (vpn va)) s) : wp (walk va false) s Q E := by
  unfold walk
  rw [if_neg (UInt64.not_le.mpr hva), if_neg (by decide)]
  apply wp_get_bind
  apply wp_pure
  rw [lookup_eq_slot]
  exact h

structure Aligned (va : UInt64) : Prop where
  mod : va.toNat % 4096 = 0
  lt : va < MAXVA

theorem Aligned.toNat_lt (h : Aligned va) : va.toNat < 274877906944 := by
  have hlt := h.lt
  rwa [UInt64.lt_iff_toNat_lt] at hlt

theorem Aligned.roundDown (h : Aligned va) : PGROUNDDOWN va = va := by
  apply UInt64.toNat_inj.mp
  have hmod := h.mod
  have hlt := h.toNat_lt
  rw [PGROUNDDOWN, UInt64.toNat_mul, UInt64.toNat_div, toNat_PGSIZE]
  omega

theorem Aligned.roundDown_last (h : Aligned va) :
    PGROUNDDOWN (va + PGSIZE - 1) = va := by
  apply UInt64.toNat_inj.mp
  have hmod := h.mod
  have hlt := h.toNat_lt
  have hsum : (va + PGSIZE - 1).toNat = va.toNat + 4095 := by
    rw [UInt64.toNat_sub, UInt64.toNat_add, toNat_PGSIZE,
      show (1 : UInt64).toNat = 1 by rfl]
    omega
  rw [PGROUNDDOWN, UInt64.toNat_mul, UInt64.toNat_div, hsum, toNat_PGSIZE]
  omega

structure Mapped (s s' : State) (n : Nat) (pte : Pte) : Prop where
  frame : Frame s s'
  unmapped : s.pagetable.leaf n = none
  leaf : s'.pagetable.leaf = Function.update s.pagetable.leaf n (some pte)
  free : ∃ popped, s.freelist = popped ++ s'.freelist ∧ popped.length = s.pagetable.missing n
  missing : ∀ m, s'.pagetable.missing m = growth s.pagetable.missing n m

theorem mappages_wp {pa : UInt64} {perm : Perm} (hva : Aligned va) (s : State) :
    wp (mappages va PGSIZE pa perm) s
      (fun r s' => (r = 0 ∧ Mapped s s' (vpn va) ⟨pa, perm⟩) ∨ (r = -1 ∧ Short s s' (vpn va)))
      (fun _ => s.pagetable.leaf (vpn va) ≠ none) := by
  have hlt := vpn_lt hva.lt
  unfold mappages
  rw [if_neg (by decide), hva.roundDown, hva.roundDown_last]
  change wp (mapLoop perm va (2 + 1) va pa) s _ _
  rw [mapLoop]
  apply wp_bind
  apply (walk_alloc_wp hva.lt s).mono _ (fun _ h => h.elim)
  rintro r s' (⟨rfl, hgrown⟩ | ⟨rfl, hshort⟩)
  · cases hleaf : s.pagetable.leaf (vpn va) with
    | some pte =>
      apply wp_throw
      simp
    | none =>
      apply wp_modify_bind
      rw [if_pos rfl]
      refine .inl ⟨rfl, hgrown.frame.trans ⟨rfl, rfl, rfl⟩, hleaf, ?_, hgrown.free, ?_⟩
      · rw [leaf_setPte _ hgrown.present hlt, hgrown.leaf]
      · intro m
        rw [missing_setPte _ hgrown.present, hgrown.missing]
  · exact .inr ⟨rfl, hshort⟩

end Xv6Ringbuf.Kernel
