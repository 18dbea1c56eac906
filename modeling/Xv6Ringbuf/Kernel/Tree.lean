import Xv6Ringbuf.Kernel.Ringbuf
import Xv6Ringbuf.Kernel.Access

namespace Xv6Ringbuf.Kernel

open Machine

-- The table pages of a page table are pages of the allocator, and there is none
-- for the addresses from `MAXVA` on.
structure Pagetable.Tree [Image] (pt : Pagetable) : Prop where
  root : ValidPage pt.page
  half : ∀ i l1, pt.entry i = some l1 → i.val < 256
  level1 : ∀ i l1, pt.entry i = some l1 → ValidPage l1.page
  level0 : ∀ i l1 j l0, pt.entry i = some l1 → l1.entry j = some l0 → ValidPage l0.page

structure TreeState [Image] (s : State) : Prop where
  free : ∀ pa ∈ s.freelist, ValidPage pa
  tree : s.pagetable.Tree

theorem index_two_lt {n : Nat} (h : n < 2 ^ 26) : (index 2 n).val < 256 := by
  simp only [index]
  omega

section Tables

variable [Image] {pt : Pagetable}

theorem Pagetable.Tree.set {i : Fin 512} {l1 : Level1} (h : pt.Tree) (hi : i.val < 256)
    (hpage : ValidPage l1.page) (hl1 : ∀ j l0, l1.entry j = some l0 → ValidPage l0.page) :
    Pagetable.Tree (Table.set pt i (some l1)) := by
  refine ⟨h.root, ?_, ?_, ?_⟩
  · intro i' l1' hentry
    rw [Table.set_entry] at hentry
    by_cases heq : i' = i
    · rw [heq]
      exact hi
    · rw [if_neg heq] at hentry
      exact h.half i' l1' hentry
  · intro i' l1' hentry
    rw [Table.set_entry] at hentry
    by_cases heq : i' = i
    · rw [if_pos heq] at hentry
      exact Option.some.inj hentry ▸ hpage
    · rw [if_neg heq] at hentry
      exact h.level1 i' l1' hentry
  · intro i' l1' j l0 hentry hentry'
    rw [Table.set_entry] at hentry
    by_cases heq : i' = i
    · rw [if_pos heq] at hentry
      exact hl1 j l0 (Option.some.inj hentry ▸ hentry')
    · rw [if_neg heq] at hentry
      exact h.level0 i' l1' j l0 hentry hentry'

theorem Pagetable.Tree.set_level0 {i j : Fin 512} {l1 : Level1} {l0 : Level0} (h : pt.Tree)
    (hl1 : pt.entry i = some l1) (hpage : ValidPage l0.page) :
    Pagetable.Tree (Table.set pt i (some (l1.set j (some l0)))) := by
  refine h.set (h.half i l1 hl1) (h.level1 i l1 hl1) ?_
  intro j' l0' hentry
  rw [Table.set_entry] at hentry
  by_cases heq : j' = j
  · rw [if_pos heq] at hentry
    exact Option.some.inj hentry ▸ hpage
  · rw [if_neg heq] at hentry
    exact h.level0 i l1 j' l0' hl1 hentry

theorem Pagetable.Tree.setPte (h : pt.Tree) (va : UInt64) (x : Option Pte) : (pt.setPte va x).Tree := by
  unfold Pagetable.setPte
  split
  · exact h
  · rename_i l1 hl1
    split
    · exact h
    · rename_i l0 hl0
      have hpage : ValidPage l0.page := h.level0 _ _ _ _ hl1 hl0
      exact h.set_level0 hl1 hpage

end Tables

section Rules

variable {I : State → Prop}

theorem walk_rule (hone : ∀ va, va < MAXVA → Keeps I (allocLevel1 va))
    (hzero : ∀ va, Keeps I (allocLevel0 va)) (va : UInt64) (alloc : Bool) : Keeps I (walk va alloc) := by
  unfold walk
  refine Keeps.ite (fun _ => Keeps.throw _) fun hva => ?_
  refine Keeps.ite (fun _ => ?_) fun _ => Keeps.get.bind fun _ => Keeps.pure _
  refine (hone va (UInt64.not_le.mp hva)).bind fun _ => Keeps.ite (fun _ => ?_) fun _ => Keeps.pure _
  exact (hzero va).bind fun _ =>
    Keeps.ite (fun _ => Keeps.get.bind fun _ => Keeps.pure _) fun _ => Keeps.pure _

theorem mappages_rule (hwalk : ∀ va, Keeps I (walk va true)) (hset : ∀ va x, Keeps I (setPte va x))
    (va size pa : UInt64) (perm : Perm) : Keeps I (mappages va size pa perm) := by
  have hloop : ∀ last fuel a pa, Keeps I (mapLoop perm last fuel a pa) := by
    intro last fuel
    induction fuel with
    | zero => exact fun _ _ => Keeps.pure _
    | succ fuel ih =>
      refine fun a pa => (hwalk a).bind fun r => ?_
      match r with
      | none => exact Keeps.pure _
      | some (some _) => exact Keeps.throw _
      | some none =>
        exact (hset _ _).bind fun _ => Keeps.ite (fun _ => Keeps.pure _) fun _ => ih _ _
  exact Keeps.ite (fun _ => Keeps.throw _) fun _ => hloop _ _ _ _

theorem uvmunmap_rule [Image] (hset : ∀ va x, Keeps I (setPte va x)) (hfree : ∀ pa, Keeps I (kfree pa))
    (va npages : UInt64) (doFree : Bool) : Keeps I (uvmunmap va npages doFree) := by
  have hwalk : ∀ a, Keeps I (walk a false) := fun _ =>
    Keeps.ite (fun _ => Keeps.throw _) fun _ => Keeps.get.bind fun _ => Keeps.pure _
  have hloop : ∀ stop fuel a, Keeps I (unmapLoop stop doFree fuel a) := by
    intro stop fuel
    induction fuel with
    | zero => exact fun _ => Keeps.pure _
    | succ fuel ih =>
      refine fun a => Keeps.ite (fun _ => ?_) fun _ => Keeps.pure _
      refine (hwalk a).bind fun r => ?_
      match r with
      | none => exact Keeps.throw _
      | some none => exact Keeps.throw _
      | some (some pte) =>
        refine Keeps.ite (fun _ => Keeps.throw _) fun _ => ?_
        have hrest := (hset a none).bind fun _ => ih (a + PGSIZE)
        cases doFree with
        | false => exact hrest
        | true => exact (hfree pte.pa).bind fun _ => hrest
  exact Keeps.ite (fun _ => Keeps.throw _) fun _ => hloop _ _ _

end Rules

section Allocator

variable [Image]

theorem setPage_keeps (dst : UInt64) (c : UInt8) : Keeps TreeState (setPage dst c) :=
  Keeps.modify fun _ h => ⟨h.free, h.tree⟩

theorem kalloc_tree {s : State} (h : TreeState s) :
    wp kalloc s (fun r s' => TreeState s' ∧ ∀ page, r = some page → ValidPage page)
      fun _ => False := by
  apply (kalloc_wp s).mono _ fun _ h => h
  rintro r s' ⟨_, hpt, ⟨rfl, _, hfree⟩ | ⟨page, rfl, hfree⟩⟩
  · refine ⟨⟨?_, hpt ▸ h.tree⟩, by simp⟩
    rw [hfree]
    simp
  · have hvalid := h.free
    rw [hfree, List.forall_mem_cons] at hvalid
    refine ⟨⟨hvalid.2, hpt ▸ h.tree⟩, ?_⟩
    rintro _ ⟨⟩
    exact hvalid.1

theorem kalloc_keeps : Keeps TreeState kalloc :=
  fun _ h => (kalloc_tree h).mono (fun _ _ h' => h'.1) fun _ _ => trivial

theorem kfree_keeps (pa : UInt64) : Keeps TreeState (kfree pa) := by
  intro s h
  apply (kfree_wp pa s).mono _ fun _ _ => trivial
  rintro _ s' ⟨hvalid, _, hpt, hfree⟩
  refine ⟨?_, hpt ▸ h.tree⟩
  rw [hfree, List.forall_mem_cons]
  exact ⟨hvalid, h.free⟩

theorem newTable_tree (α : Type) {s : State} (h : TreeState s) :
    wp (newTable α) s (fun r s' => TreeState s' ∧ s'.pagetable = s.pagetable ∧
      ∀ table, r = some table → ValidPage table.page ∧ table.entry = fun _ => none)
      fun _ => False := by
  apply (newTable_wp α s).mono _ fun _ h => h
  rintro r s' ⟨_, hpt, ⟨rfl, _, hfree⟩ | ⟨page, rfl, hfree⟩⟩
  · refine ⟨⟨?_, hpt ▸ h.tree⟩, hpt, by simp⟩
    rw [hfree]
    simp
  · have hvalid := h.free
    rw [hfree, List.forall_mem_cons] at hvalid
    refine ⟨⟨hvalid.2, hpt ▸ h.tree⟩, hpt, ?_⟩
    rintro _ ⟨⟩
    exact ⟨hvalid.1, rfl⟩

theorem allocLevel1_keeps {va : UInt64} (hva : va < MAXVA) : Keeps TreeState (allocLevel1 va) := by
  intro s h
  unfold allocLevel1
  apply wp_get_bind
  rw [px_eq]
  cases s.pagetable.entry (index 2 (vpn va)) with
  | some l1 => exact h
  | none =>
    apply wp_bind
    apply (newTable_tree Level0 h).mono _ fun _ h => h.elim
    rintro r s' ⟨h', _, htable⟩
    cases r with
    | none => exact h'
    | some table =>
      obtain ⟨hpage, hentry⟩ := htable table rfl
      exact ⟨h'.free, h'.tree.set (index_two_lt (vpn_lt hva)) hpage (by simp [hentry])⟩

theorem allocLevel0_keeps (va : UInt64) : Keeps TreeState (allocLevel0 va) := by
  intro s h
  unfold allocLevel0
  apply wp_get_bind
  cases hl1 : s.pagetable.entry (px 2 va) with
  | none => exact h
  | some l1 =>
    simp only
    cases l1.entry (px 1 va) with
    | some l0 => exact h
    | none =>
      apply wp_bind
      apply (newTable_tree Pte h).mono _ fun _ h => h.elim
      rintro r s' ⟨h', hpt, htable⟩
      cases r with
      | none => exact h'
      | some table => exact ⟨h'.free, h'.tree.set_level0 (hpt ▸ hl1) (htable table rfl).1⟩

theorem walk_keeps (va : UInt64) (alloc : Bool) : Keeps TreeState (walk va alloc) :=
  walk_rule (fun _ => allocLevel1_keeps) allocLevel0_keeps va alloc

theorem setPte_keeps (va : UInt64) (x : Option Pte) : Keeps TreeState (setPte va x) :=
  Keeps.modify fun _ h => ⟨h.free, h.tree.setPte va x⟩

theorem mappages_keeps (va size pa : UInt64) (perm : Perm) :
    Keeps TreeState (mappages va size pa perm) :=
  mappages_rule (fun va => walk_keeps va true) setPte_keeps va size pa perm

theorem uvmunmap_keeps (va npages : UInt64) (doFree : Bool) :
    Keeps TreeState (uvmunmap va npages doFree) :=
  uvmunmap_rule setPte_keeps kfree_keeps va npages doFree

theorem uvmdealloc_keeps (oldsz newsz : UInt64) : Keeps TreeState (uvmdealloc oldsz newsz) := by
  refine Keeps.ite (fun _ => Keeps.pure _) fun _ => ?_
  by_cases hlt : PGROUNDUP newsz < PGROUNDUP oldsz
  · rw [if_pos hlt]
    exact (uvmunmap_keeps _ _ _).bind fun _ => Keeps.pure _
  · rw [if_neg hlt]
    exact Keeps.pure _

end Allocator

section RingCall

variable [Image]

theorem setRingbuf_keeps (k : Fin MAX_RINGBUFS) (rb : Ringbuf) : Keeps TreeState (setRingbuf k rb) :=
  Keeps.modify fun _ h => ⟨h.free, h.tree⟩

theorem validatePages_keeps (va : UInt64) : Keeps TreeState (validatePages va) :=
  (Keeps.get.bind fun _ => Keeps.pure _).bind fun _ =>
    Keeps.ite (fun _ => Keeps.pure _) fun _ => Keeps.pure _

theorem copyoutUserAddr_keeps (base addr : UInt64) : Keeps TreeState (copyoutUserAddr base addr) := by
  have hcopyout : Keeps TreeState (copyout addr (bytesOf base)) := by
    intro s h
    apply (copyout_wp addr (bytesOf base) s).mono _ fun _ _ => trivial
    rintro _ s' ⟨_, hpt, hfree, _⟩
    exact ⟨hfree ▸ h.free, hpt ▸ h.tree⟩
  refine hcopyout.bind fun _ => Keeps.ite (fun _ => Keeps.pure _) fun _ => ?_
  exact (Keeps.modify fun _ h => ⟨h.free, h.tree⟩).bind fun _ => Keeps.pure _

theorem loadWord_keeps (pa : UInt64) : Keeps TreeState (loadWord pa) :=
  Keeps.ite (fun _ => Keeps.throw _) fun _ =>
    (Keeps.modify fun _ h => ⟨h.free, h.tree⟩).bind fun _ => Keeps.get.bind fun _ => Keeps.pure _

theorem mappageToBook_keeps (rb : Ringbuf) (va : UInt64) : Keeps TreeState (mappageToBook rb va) := by
  have hundo : ∀ pa, Keeps TreeState (do
      kfree pa
      let _ ← uvmdealloc va PGSIZE
      return ((-1, rb) : Int32 × Ringbuf)) := fun pa =>
    (kfree_keeps pa).bind fun _ => (uvmdealloc_keeps va PGSIZE).bind fun _ => Keeps.pure _
  refine Keeps.ite (fun _ => kalloc_keeps.bind fun r => ?_) fun _ => ?_
  · match r with
    | none => exact (uvmdealloc_keeps va PGSIZE).bind fun _ => Keeps.pure _
    | some mem =>
      exact (setPage_keeps mem 0).bind fun _ => (mappages_keeps _ _ _ _).bind fun _ =>
        Keeps.ite (fun _ => hundo mem) fun _ => Keeps.pure _
  · exact (mappages_keeps _ _ _ _).bind fun _ => Keeps.ite (fun _ => hundo rb.book) fun _ => Keeps.pure _

theorem pageOf_keeps (rb : Ringbuf) (i : Nat) : Keeps TreeState (pageOf rb i) := by
  unfold pageOf
  split
  · refine kalloc_keeps.bind fun r => ?_
    match r with
    | none => exact Keeps.pure _
    | some mem => exact (setPage_keeps mem 0).bind fun _ => Keeps.pure _
  · exact Keeps.pure _

theorem mapRounds_keeps (base : UInt64) (rounds i : Nat) (rb : Ringbuf) :
    Keeps TreeState (mapRounds base rounds i rb) := by
  induction rounds generalizing i rb with
  | zero => exact Keeps.pure _
  | succ rounds ih =>
    refine (pageOf_keeps rb i).bind fun r => ?_
    match r with
    | none => exact (uvmdealloc_keeps _ PGSIZE).bind fun _ => Keeps.pure _
    | some (pa, rb') =>
      refine (mappages_keeps _ _ _ _).bind fun _ => Keeps.ite (fun _ => ?_) fun _ => ih _ _
      exact (kfree_keeps pa).bind fun _ => (uvmdealloc_keeps _ PGSIZE).bind fun _ => Keeps.pure _

theorem mappagesToProc_keeps (rb : Ringbuf) (base : UInt64) (num : Nat) :
    Keeps TreeState (mappagesToProc rb base num) :=
  Keeps.ite (fun _ => Keeps.pure _) fun _ => mapRounds_keeps _ _ _ _

theorem findContiguousPages_keeps (num : Nat) : Keeps TreeState (findContiguousPages num) :=
  Keeps.get.bind fun _ => Keeps.pure _

theorem createRingbuf_keeps (name : List UInt8) (addr : UInt64) :
    Keeps TreeState (createRingbuf name addr) := by
  refine (findContiguousPages_keeps _).bind fun r => ?_
  match r with
  | none => exact Keeps.pure _
  | some top =>
    refine (mappagesToProc_keeps _ _ _).bind fun result => Keeps.ite (fun _ => Keeps.pure _) fun _ => ?_
    refine (validatePages_keeps _).bind fun _ => Keeps.ite (fun _ => Keeps.pure _) fun _ => ?_
    refine (mappageToBook_keeps _ _).bind fun result' => Keeps.ite (fun _ => Keeps.pure _) fun _ => ?_
    refine (validatePages_keeps _).bind fun _ => Keeps.ite (fun _ => Keeps.pure _) fun _ => ?_
    refine (copyoutUserAddr_keeps _ _).bind fun _ => Keeps.ite (fun _ => Keeps.pure _) fun _ => ?_
    refine Keeps.get.bind fun s => ?_
    by_cases hlt : getRingbufIndex s.ringbufs < MAX_RINGBUFS
    · rw [dif_pos hlt]
      exact (setRingbuf_keeps _ _).bind fun _ => Keeps.pure _
    · rw [dif_neg hlt]
      exact Keeps.throw _

theorem appendRingbuf_keeps (name : List UInt8) (addr : UInt64) :
    Keeps TreeState (appendRingbuf name addr) := by
  refine Keeps.get.bind fun s => ?_
  match findName s.ringbufs name with
  | none => exact Keeps.pure _
  | some k =>
    refine (findContiguousPages_keeps _).bind fun r => ?_
    match r with
    | none => exact Keeps.pure _
    | some top =>
      refine Keeps.get.bind fun _ => (mappagesToProc_keeps _ _ _).bind fun result => ?_
      refine (setRingbuf_keeps _ _).bind fun _ => Keeps.ite (fun _ => Keeps.pure _) fun _ => ?_
      refine (mappageToBook_keeps _ _).bind fun result' => (setRingbuf_keeps _ _).bind fun _ => ?_
      refine Keeps.ite (fun _ => Keeps.pure _) fun _ => (copyoutUserAddr_keeps _ _).bind fun _ => ?_
      exact Keeps.ite (fun _ => Keeps.pure _) fun _ =>
        (setRingbuf_keeps _ _).bind fun _ => Keeps.pure _

theorem unmapRingbufPmem_keeps (k : Fin MAX_RINGBUFS) : Keeps TreeState (unmapRingbufPmem k) := by
  have hall : ∀ pas, Keeps TreeState (kfreeAll pas) := by
    intro pas
    induction pas with
    | nil => exact Keeps.pure _
    | cons pa rest ih => exact (kfree_keeps pa).bind fun _ => ih
  exact Keeps.get.bind fun _ => (setRingbuf_keeps _ _).bind fun _ => (kfree_keeps _).bind fun _ =>
    (hall _).bind fun _ => Keeps.pure _

theorem unmapRingbuf_keeps (name : List UInt8) (addr : UInt64) :
    Keeps TreeState (unmapRingbuf name addr) := by
  refine Keeps.get.bind fun s => ?_
  match findName s.ringbufs name with
  | none => exact Keeps.pure _
  | some k =>
    refine Keeps.get.bind fun s => (setRingbuf_keeps _ _).bind fun _ => ?_
    refine (Keeps.get.bind fun _ => Keeps.pure _).bind fun _ => (loadWord_keeps _).bind fun _ => ?_
    refine (validatePages_keeps _).bind fun _ => Keeps.ite (fun _ => Keeps.pure _) fun _ => ?_
    refine (uvmunmap_keeps _ _ _).bind fun _ => (uvmunmap_keeps _ _ _).bind fun _ => ?_
    exact Keeps.ite (fun _ => (unmapRingbufPmem_keeps k).bind fun _ => Keeps.pure _) fun _ =>
      Keeps.pure _

theorem ringbuf_keeps (name : List UInt8) (opens : Int32) (addr : UInt64) :
    Keeps TreeState (ringbuf name opens addr) := by
  have hand : ∀ {x : K Int32}, Keeps TreeState x →
      Keeps TreeState (do if (← x) ≠ 0 then return (-1 : Int32) else return 0) := fun hx =>
    hx.bind fun _ => Keeps.ite (fun _ => Keeps.pure _) fun _ => Keeps.pure _
  refine Keeps.get.bind fun _ => Keeps.ite (fun _ => Keeps.pure _) fun _ => ?_
  match strlen name with
  | none => exact Keeps.throw _
  | some len =>
    refine Keeps.ite (fun _ => Keeps.pure _) fun _ => Keeps.get.bind fun _ => ?_
    refine Keeps.ite (fun _ => Keeps.ite (fun _ => ?_) fun _ => ?_) fun _ => ?_
    · exact hand (createRingbuf_keeps _ _)
    · exact hand (appendRingbuf_keeps _ _)
    · exact hand (unmapRingbuf_keeps _ _)

end RingCall

end Xv6Ringbuf.Kernel
