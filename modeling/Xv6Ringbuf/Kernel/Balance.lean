import Xv6Ringbuf.Kernel.Freewalk

namespace Xv6Ringbuf.Kernel

open Machine

-- The page of a table and what its entries stand for. Irreducible, so that no
-- proof runs into the 512 terms.
@[irreducible] def Table.total {α : Type} (f : α → Multiset UInt64) (t : Table α) : Multiset UInt64 :=
  {t.page} + ∑ i, (t.entry i).elim 0 f

def Pagetable.pages (pt : Pagetable) : Multiset UInt64 :=
  Table.total (Table.total (Table.total fun pte => {pte.pa})) pt

def State.balance (s : State) : Multiset UInt64 := (s.freelist : Multiset UInt64) + s.pagetable.pages

section Total

variable {α : Type}

theorem mem_total {f : α → Multiset UInt64} {t : Table α} {pa : UInt64} :
    pa ∈ t.total f ↔ pa = t.page ∨ ∃ i child, t.entry i = some child ∧ pa ∈ f child := by
  unfold Table.total
  rw [Multiset.mem_add, Multiset.mem_singleton, Multiset.mem_sum]
  apply or_congr_right
  constructor
  · rintro ⟨i, _, hmem⟩
    cases hentry : t.entry i with
    | none =>
      rw [hentry] at hmem
      exact absurd hmem (Multiset.notMem_zero pa)
    | some child =>
      rw [hentry] at hmem
      exact ⟨i, child, hentry, hmem⟩
  · rintro ⟨i, child, hentry, hmem⟩
    refine ⟨i, Finset.mem_univ i, ?_⟩
    rw [hentry]
    exact hmem

variable (f : α → Multiset UInt64)

theorem Table.total_empty (page : UInt64) : Table.total f ⟨page, fun _ => none⟩ = {page} := by
  unfold Table.total
  simp

theorem Table.total_set (t : Table α) (i : Fin 512) (x : Option α) :
    (t.set i x).total f + (t.entry i).elim 0 f = t.total f + x.elim 0 f := by
  have hrest : ∑ j ∈ Finset.univ.erase i, ((t.set i x).entry j).elim 0 f =
      ∑ j ∈ Finset.univ.erase i, (t.entry j).elim 0 f := by
    apply Finset.sum_congr rfl
    intro j hj
    rw [Table.set_entry, if_neg (Finset.ne_of_mem_erase hj)]
  unfold Table.total
  rw [← Finset.add_sum_erase _ _ (Finset.mem_univ i), hrest,
    ← Finset.add_sum_erase _ (fun j => (t.entry j).elim 0 f) (Finset.mem_univ i), Table.set_entry,
    if_pos rfl]
  show {t.page} + _ + _ = _
  abel

end Total

variable {pt : Pagetable} {n : Nat}

theorem pages_setPte {va : UInt64} (x : Option Pte) (h : pt.missing (vpn va) = 0)
    (hva : vpn va < 2 ^ 26) :
    (pt.setPte va x).pages + (pt.leaf (vpn va)).elim 0 (fun pte => {pte.pa}) =
      pt.pages + x.elim 0 fun pte => {pte.pa} := by
  obtain ⟨l1, l0, h1, h0, hset⟩ := setPte_eq pt (x := x) h
  have hleaf : pt.leaf (vpn va) = l0.entry (index 0 (vpn va)) := by
    rw [Pagetable.leaf, if_pos hva, Pagetable.slot, h1]
    simp only [h0, Option.join_some]
  have hlevel0 := l0.total_set (fun pte => {pte.pa}) (index 0 (vpn va)) x
  have hlevel1 := l1.total_set (Table.total fun pte => {pte.pa}) (index 1 (vpn va))
    (some (l0.set (index 0 (vpn va)) x))
  have hroot := Table.total_set (Table.total (Table.total fun pte => {pte.pa})) pt
    (index 2 (vpn va)) (some (l1.set (index 1 (vpn va)) (some (l0.set (index 0 (vpn va)) x))))
  rw [h0] at hlevel1
  rw [h1] at hroot
  simp only [Option.elim_some] at hlevel1 hroot
  rw [hset, hleaf]
  unfold Pagetable.pages
  apply Multiset.ext.mpr
  intro pa
  have hcount0 := congrArg (Multiset.count pa) hlevel0
  have hcount1 := congrArg (Multiset.count pa) hlevel1
  have hcount := congrArg (Multiset.count pa) hroot
  simp only [Multiset.count_add] at hcount0 hcount1 hcount ⊢
  omega

theorem pages_add_level1 (page : UInt64) (h : pt.entry (index 2 n) = none) :
    Pagetable.pages (Table.set pt (index 2 n) (some ⟨page, fun _ => none⟩)) = pt.pages + {page} := by
  have hroot := Table.total_set (Table.total (Table.total fun pte => {pte.pa})) pt
    (index 2 n) (some ⟨page, fun _ => none⟩)
  rw [h] at hroot
  simp only [Option.elim_none, Option.elim_some, add_zero, Table.total_empty] at hroot
  exact hroot

theorem pages_add_level0 {l1 : Level1} (page : UInt64) (h : pt.entry (index 2 n) = some l1)
    (h' : l1.entry (index 1 n) = none) :
    Pagetable.pages (Table.set pt (index 2 n)
      (some (l1.set (index 1 n) (some ⟨page, fun _ => none⟩)))) = pt.pages + {page} := by
  have hlevel1 := l1.total_set (Table.total fun pte => {pte.pa}) (index 1 n)
    (some ⟨page, fun _ => none⟩)
  have hroot := Table.total_set (Table.total (Table.total fun pte => {pte.pa})) pt
    (index 2 n) (some (l1.set (index 1 n) (some ⟨page, fun _ => none⟩)))
  rw [h'] at hlevel1
  rw [h] at hroot
  simp only [Option.elim_none, Option.elim_some, add_zero, Table.total_empty] at hlevel1 hroot
  unfold Pagetable.pages
  rw [hlevel1, ← add_assoc, add_right_comm] at hroot
  exact add_right_cancel hroot

section Alloc

variable {w : Multiset UInt64}

theorem newTable_balance (α : Type) (s : State) :
    wp (newTable α) s (fun r s' => s'.pagetable = s.pagetable ∧
      (r = none ∧ s'.balance = s.balance ∨
        ∃ page, r = some ⟨page, fun _ => none⟩ ∧ s'.balance + {page} = s.balance))
      fun _ => False := by
  apply (newTable_wp α s).mono _ fun _ h => h
  rintro r s' ⟨_, hpt, ⟨rfl, hfree, hfree'⟩ | ⟨page, rfl, hfree⟩⟩
  · refine ⟨hpt, .inl ⟨rfl, ?_⟩⟩
    unfold State.balance
    rw [hpt, hfree, hfree']
  · refine ⟨hpt, .inr ⟨page, rfl, ?_⟩⟩
    unfold State.balance
    rw [hpt, hfree, ← Multiset.cons_coe, ← Multiset.singleton_add]
    abel

theorem allocLevel1_balance (va : UInt64) : Keeps (fun s => s.balance = w) (allocLevel1 va) := by
  intro s h
  unfold allocLevel1
  apply wp_get_bind
  rw [px_eq]
  cases hl1 : s.pagetable.entry (index 2 (vpn va)) with
  | some l1 => exact h
  | none =>
    apply wp_bind
    apply (newTable_balance Level0 s).mono _ fun _ h => h.elim
    rintro r s' ⟨hpt, ⟨rfl, hbalance⟩ | ⟨page, rfl, hbalance⟩⟩
    · exact hbalance.trans h
    · apply wp_modify_bind
      show _ + Pagetable.pages (Table.set s'.pagetable _ _) = w
      rw [pages_add_level1 page (hpt.symm ▸ hl1), ← add_assoc, ← h, ← hbalance]
      rfl

theorem allocLevel0_balance (va : UInt64) : Keeps (fun s => s.balance = w) (allocLevel0 va) := by
  intro s h
  unfold allocLevel0
  apply wp_get_bind
  rw [px_eq, px_eq]
  cases hl1 : s.pagetable.entry (index 2 (vpn va)) with
  | none => exact h
  | some l1 =>
    simp only
    cases hl0 : l1.entry (index 1 (vpn va)) with
    | some l0 => exact h
    | none =>
      apply wp_bind
      apply (newTable_balance Pte s).mono _ fun _ h => h.elim
      rintro r s' ⟨hpt, ⟨rfl, hbalance⟩ | ⟨page, rfl, hbalance⟩⟩
      · exact hbalance.trans h
      · apply wp_modify_bind
        show _ + Pagetable.pages (Table.set s'.pagetable _ _) = w
        rw [pages_add_level0 page (hpt.symm ▸ hl1) hl0, ← add_assoc, ← h, ← hbalance]
        rfl

theorem walk_balance (va : UInt64) (alloc : Bool) : Keeps (fun s => s.balance = w) (walk va alloc) := by
  unfold walk
  refine Keeps.ite (fun _ => Keeps.throw _) fun _ => ?_
  refine Keeps.ite (fun _ => ?_) fun _ => Keeps.get.bind fun _ => Keeps.pure _
  refine (allocLevel1_balance va).bind fun _ => Keeps.ite (fun _ => ?_) fun _ => Keeps.pure _
  exact (allocLevel0_balance va).bind fun _ =>
    Keeps.ite (fun _ => Keeps.get.bind fun _ => Keeps.pure _) fun _ => Keeps.pure _

variable {va pa : UInt64} {perm : Perm}

theorem mappages_beyond (hmod : va.toNat % 4096 = 0) (hva : MAXVA ≤ va) (s : State)
    {Q : Int32 → State → Prop} :
    wp (mappages va PGSIZE pa perm) s Q fun _ => True := by
  have hround : PGROUNDDOWN va = va := by
    apply UInt64.toNat_inj.mp
    rw [toNat_roundDown]
    omega
  unfold mappages
  rw [if_neg (by decide), hround, show PGSIZE.toNat / 4096 + 2 = 2 + 1 by rfl, mapLoop]
  apply wp_bind
  unfold walk
  rw [if_pos hva]
  exact wp_throw trivial

theorem mappages_balance (hmod : va.toNat % 4096 = 0) (s : State) :
    wp (mappages va PGSIZE pa perm) s
      (fun r s' => r = 0 ∧ s'.balance = s.balance + {pa} ∨ r ≠ 0 ∧ s'.balance = s.balance)
      (fun _ => True) := by
  by_cases hmax : MAXVA ≤ va
  · exact mappages_beyond hmod hmax s
  have hva : Aligned va := ⟨hmod, UInt64.not_le.mp hmax⟩
  have hlt := vpn_lt hva.lt
  unfold mappages
  rw [if_neg (by decide), hva.roundDown, hva.roundDown_last]
  change wp (mapLoop perm va (2 + 1) va pa) s _ _
  rw [mapLoop]
  apply wp_bind
  apply ((walk_alloc_wp hva.lt s).and (walk_balance va true s rfl)).mono _ fun _ h => h.1.elim
  rintro r s' ⟨⟨rfl, hgrown⟩ | ⟨rfl, hshort⟩, hbalance⟩
  · cases hleaf : s.pagetable.leaf (vpn va) with
    | some pte => exact wp_throw trivial
    | none =>
      apply wp_modify_bind
      rw [if_pos rfl]
      refine .inl ⟨rfl, ?_⟩
      have hpages := pages_setPte (some ⟨pa, perm⟩) hgrown.present hlt
      rw [hgrown.leaf, hleaf] at hpages
      simp only [Option.elim_none, Option.elim_some, add_zero] at hpages
      show _ + Pagetable.pages (s'.pagetable.setPte va _) = _
      rw [hpages, ← add_assoc, ← hbalance]
      rfl
  · exact .inr ⟨by decide, hbalance⟩

end Alloc

section Free

variable [Image]

theorem kfree_balance (pa : UInt64) (s : State) :
    wp (kfree pa) s (fun _ s' => s'.balance = s.balance + {pa} ∧ s'.pagetable = s.pagetable)
      fun _ => True := by
  apply (kfree_wp pa s).mono _ fun _ _ => trivial
  rintro _ s' ⟨_, _, hpt, hfree⟩
  refine ⟨?_, hpt⟩
  unfold State.balance
  rw [hpt, hfree, ← Multiset.cons_coe, ← Multiset.singleton_add]
  abel

theorem unmapLoop_balance (stop : UInt64) (rounds : Nat) (a : UInt64) (s : State) :
    wp (unmapLoop stop true rounds a) s (fun _ s' => s'.balance = s.balance) fun _ => True := by
  refine (unmapLoop_rule (I := fun _ _ s' => s'.balance = s.balance) stop ?_ rfl).mono
    (fun _ _ ⟨_, _, h⟩ => h) fun _ h => h
  intro rounds a s₁ pte hmax h hmissing hleaf
  apply (kfree_balance pte.pa s₁).mono _ fun _ h => h
  rintro _ s' ⟨hbalance, hpt⟩
  have hpages := pages_setPte none hmissing (vpn_lt hmax)
  rw [hleaf] at hpages
  simp only [Option.elim_none, Option.elim_some, add_zero] at hpages
  rw [← h]
  show _ + Pagetable.pages (s'.pagetable.setPte a none) = _
  apply add_right_cancel (b := ({pte.pa} : Multiset UInt64))
  rw [add_assoc, hpt, hpages, ← hbalance, State.balance, hpt]

theorem uvmunmap_balance (va npages : UInt64) (s : State) :
    wp (uvmunmap va npages true) s (fun _ s' => s'.balance = s.balance) fun _ => True := by
  unfold uvmunmap
  split
  · exact wp_throw trivial
  · exact unmapLoop_balance _ _ _ s

theorem uvmdealloc_balance (oldsz newsz : UInt64) (s : State) :
    wp (uvmdealloc oldsz newsz) s (fun _ s' => s'.balance = s.balance) fun _ => True := by
  unfold uvmdealloc
  by_cases hle : oldsz ≤ newsz
  · rw [if_pos hle]
    rfl
  · rw [if_neg hle]
    by_cases hlt : PGROUNDUP newsz < PGROUNDUP oldsz
    · rw [if_pos hlt]
      apply wp_bind
      exact (uvmunmap_balance _ _ s).mono (fun _ _ h => h) fun _ h => h
    · rw [if_neg hlt]
      rfl

theorem uvmunmapOne_balance {va : UInt64} (hva : Aligned va) {s : State} {pte : Pte}
    (hleaf : s.pagetable.leaf (vpn va) = some pte) :
    wp (uvmunmap va 1 false) s (fun _ s' => s'.balance + {pte.pa} = s.balance) fun _ => True := by
  have hlt := hva.toNat_lt
  have hmissing : s.pagetable.missing (vpn va) = 0 := missing_of_leaf (by simp [hleaf])
  have hstop : va < va + 1 * PGSIZE := by
    rw [UInt64.lt_iff_toNat_lt, UInt64.toNat_add, show (1 * PGSIZE).toNat = 4096 by rfl]
    omega
  unfold uvmunmap
  split
  · exact wp_throw trivial
  · rw [show (1 : UInt64).toNat = 0 + 1 by rfl, unmapLoop, if_pos hstop]
    apply wp_bind
    apply walk_wp hva.lt
    rw [slot_eq_leaf (vpn_lt hva.lt) hmissing, hleaf]
    simp only
    split
    · exact wp_throw trivial
    · apply wp_modify_bind
      have hpages := pages_setPte none hmissing (vpn_lt hva.lt)
      rw [hleaf] at hpages
      simp only [Option.elim_none, Option.elim_some, add_zero] at hpages
      show _ + Pagetable.pages (s.pagetable.setPte va none) + _ = _
      rw [add_assoc, hpages]
      rfl

end Free

section Freewalk

variable {α : Type} {free : α → K Unit} {f : α → Multiset UInt64}
  (hchild : ∀ child s, wp (free child) s
    (fun _ s' => (s'.freelist : Multiset UInt64) = s.freelist + f child) fun _ => True)

include hchild

theorem freeEntries_balance (t : Table α) (is : List (Fin 512)) (s : State) :
    wp (freeEntries free t is) s (fun _ s' => (s'.freelist : Multiset UInt64) =
      s.freelist + (is.map fun i => (t.entry i).elim 0 f).sum) fun _ => True := by
  induction is generalizing s with
  | nil => exact (add_zero _).symm
  | cons i rest ih =>
    rw [freeEntries]
    cases hentry : t.entry i with
    | none =>
      apply (ih s).mono _ fun _ h => h
      intro _ s' hrest
      rw [hrest, List.map_cons, List.sum_cons, hentry, Option.elim_none, zero_add]
    | some child =>
      refine wp_call (hchild child s) ?_
      intro _ s' hfreed
      apply (ih s').mono _ fun _ h => h
      intro _ s'' hrest
      rw [hrest, hfreed, List.map_cons, List.sum_cons, hentry, Option.elim_some, add_assoc]

theorem freeTable_balance [Image] (t : Table α) (s : State) :
    wp (freeTable free t) s
      (fun _ s' => (s'.freelist : Multiset UInt64) = s.freelist + t.total f) fun _ => True := by
  have hsum : ∑ i, (t.entry i).elim 0 f = ((List.finRange 512).map fun i => (t.entry i).elim 0 f).sum :=
    Fin.sum_univ_def _
  unfold freeTable
  generalize List.finRange 512 = is at hsum ⊢
  refine wp_call (freeEntries_balance hchild t is s) ?_
  intro _ s' hrest
  apply (kfree_wp t.page s').mono _ fun _ _ => trivial
  rintro _ s'' ⟨_, _, _, hfree⟩
  unfold Table.total
  rw [hfree, ← Multiset.cons_coe, ← Multiset.singleton_add, hrest, hsum]
  abel

end Freewalk

theorem freewalk_balance [Image] (pt : Pagetable) (s : State) :
    wp (freewalk pt) s (fun _ s' => (s'.freelist : Multiset UInt64) = s.freelist + pt.pages)
      fun _ => True := by
  have hentry : ∀ (pte : Pte) (s : State), wp (freewalkEntry pte) s
      (fun _ s' => (s'.freelist : Multiset UInt64) = s.freelist + {pte.pa}) fun _ => True := by
    intro pte s
    unfold freewalkEntry
    split
    · exact wp_throw trivial
    · exact wp_throw trivial
  exact freeTable_balance (freeTable_balance (freeTable_balance hentry)) pt s

end Xv6Ringbuf.Kernel
