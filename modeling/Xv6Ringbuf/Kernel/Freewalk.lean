import Xv6Ringbuf.Kernel.Tree

namespace Xv6Ringbuf.Kernel

open Machine

-- The loop of `freewalk` over the entries of a table. The entries are not
-- cleared here: the table goes back to the allocator as a whole.
def freeEntries {α : Type} (free : α → K Unit) (t : Table α) : List (Fin 512) → K Unit
  | [] => return ()
  | i :: rest =>
    match t.entry i with
    | none => freeEntries free t rest
    | some child => do
        free child
        freeEntries free t rest

-- Irreducible, so that no proof runs into the 512 rounds.
@[irreducible] def freeTable [Image] {α : Type} (free : α → K Unit) (t : Table α) : K Unit := do
  freeEntries free t (List.finRange 512)
  kfree t.page

-- A valid entry of the lowest level. One without R, W and X would be followed as
-- if its page were a table; the machine of this model stops there.
def freewalkEntry (pte : Pte) : K Unit :=
  if pte.perm.r ∨ pte.perm.w ∨ pte.perm.x then throw .freewalkLeaf else throw .kerneltrap

def freewalk [Image] (pt : Pagetable) : K Unit :=
  freeTable (freeTable (freeTable freewalkEntry)) pt

def uvmfree [Image] (sz : UInt64) : K Unit := do
  if 0 < sz then uvmunmap 0 (PGROUNDUP sz / PGSIZE) true
  freewalk (← get).pagetable

def procFreepagetable [Image] (sz : UInt64) : K Unit := do
  uvmunmap TRAMPOLINE 1 false
  uvmunmap TRAPFRAME 1 false
  uvmfree sz

-- The part of `freeproc` that frees memory.
def freeproc [Image] (trapframe sz : UInt64) : K Unit := do
  if trapframe ≠ 0 then kfree trapframe
  procFreepagetable sz

-- Only the allocator is touched, and what it gets are its own pages.
structure Freed [Image] (s s' : State) : Prop where
  frame : Frame s s'
  free : (∀ pa ∈ s.freelist, ValidPage pa) → ∀ pa ∈ s'.freelist, ValidPage pa

theorem Freed.refl [Image] (s : State) : Freed s s := ⟨Frame.refl s, fun h => h⟩

theorem Freed.trans [Image] {s s' s'' : State} (h : Freed s s') (h' : Freed s' s'') : Freed s s'' :=
  ⟨h.frame.trans h'.frame, fun hfree => h'.free (h.free hfree)⟩

theorem kfree_freed [Image] {pa : UInt64} (hvalid : ValidPage pa) (s : State) :
    wp (kfree pa) s (fun _ s' => Freed s s' ∧ s'.pagetable = s.pagetable) fun _ => False := by
  apply (kfree_wp pa s).mono _ fun _ hbad => hbad.1 hvalid
  rintro _ s' ⟨_, hframe, hpt, hfree⟩
  refine ⟨⟨hframe, fun h => ?_⟩, hpt⟩
  rw [hfree, List.forall_mem_cons]
  exact ⟨hvalid, h⟩

def Table.All {α : Type} (P : α → Prop) (t : Table α) : Prop :=
  ∀ i child, t.entry i = some child → P child

section Entries

variable [Image] {α : Type} {free : α → K Unit} {P : α → Prop} {t : Table α}
  (hchild : ∀ i child s, t.entry i = some child →
    wp (free child) s (fun _ s' => P child ∧ Freed s s') fun e => ¬P child ∧ e = .freewalkLeaf)

include hchild

theorem freeEntries_wp (is : List (Fin 512)) (s : State) :
    wp (freeEntries free t is) s
      (fun _ s' => (∀ i ∈ is, ∀ child, t.entry i = some child → P child) ∧ Freed s s')
      (fun e => (∃ i child, t.entry i = some child ∧ ¬P child) ∧ e = .freewalkLeaf) := by
  induction is generalizing s with
  | nil => exact ⟨by simp, Freed.refl s⟩
  | cons i rest ih =>
    rw [freeEntries]
    cases hentry : t.entry i with
    | none =>
      apply (ih s).mono _ fun _ h => h
      rintro _ s' ⟨hrest, hfreed⟩
      refine ⟨?_, hfreed⟩
      rw [List.forall_mem_cons]
      exact ⟨by simp [hentry], hrest⟩
    | some child =>
      apply wp_bind
      apply (hchild i child s hentry).mono
      · rintro _ s' ⟨hP, hfreed⟩
        apply (ih s').mono _ fun _ h => h
        rintro _ s'' ⟨hrest, hfreed'⟩
        refine ⟨?_, hfreed.trans hfreed'⟩
        rw [List.forall_mem_cons]
        refine ⟨?_, hrest⟩
        intro child' hentry'
        rw [hentry] at hentry'
        exact Option.some.inj hentry' ▸ hP
      · rintro e ⟨hP, he⟩
        exact ⟨⟨i, child, hentry, hP⟩, he⟩

theorem freeTable_wp (hpage : ValidPage t.page) (s : State) :
    wp (freeTable free t) s (fun _ s' => t.All P ∧ Freed s s')
      fun e => ¬t.All P ∧ e = .freewalkLeaf := by
  have hmem : ∀ i, i ∈ List.finRange 512 := List.mem_finRange
  unfold freeTable
  generalize List.finRange 512 = is at hmem
  apply wp_bind
  apply (freeEntries_wp hchild is s).mono
  · rintro _ s' ⟨hall, hfreed⟩
    apply (kfree_freed hpage s').mono _ fun _ h => h.elim
    rintro _ s'' ⟨hfreed', _⟩
    exact ⟨fun i child => hall i (hmem i) child, hfreed.trans hfreed'⟩
  · rintro e ⟨⟨i, child, hentry, hP⟩, he⟩
    exact ⟨fun hall => hP (hall i child hentry), he⟩

end Entries

theorem exists_index {i j k : Fin 512} (hi : i.val < 256) :
    ∃ n < 2 ^ 26, index 2 n = i ∧ index 1 n = j ∧ index 0 n = k := by
  refine ⟨(i.val * 512 + j.val) * 512 + k.val, by omega, ?_, ?_, ?_⟩
  · apply Fin.ext
    simp only [index]
    omega
  · apply Fin.ext
    simp only [index]
    omega
  · apply Fin.ext
    simp only [index]
    omega

variable {pt : Pagetable} {s : State} {sz : UInt64} {Ring : Nat → Prop}

theorem Pagetable.Tree.all_iff [Image] (h : pt.Tree) (P : Pte → Prop) :
    Table.All (Table.All (Table.All P)) pt ↔ ∀ n pte, pt.leaf n = some pte → P pte := by
  constructor
  · intro hall n pte hleaf
    have hlt := lt_of_leaf_eq hleaf
    rw [Pagetable.leaf, if_pos hlt, Pagetable.slot] at hleaf
    cases hl1 : pt.entry (index 2 n) with
    | none => simp [hl1] at hleaf
    | some l1 =>
      cases hl0 : l1.entry (index 1 n) with
      | none => simp [hl1, hl0] at hleaf
      | some l0 =>
        simp only [hl1, hl0, Option.join_some] at hleaf
        exact hall _ l1 hl1 _ l0 hl0 _ pte hleaf
  · intro hall i l1 hl1 j l0 hl0 k pte hpte
    obtain ⟨n, hn, h2, h1, h0⟩ := exists_index (j := j) (k := k) (h.half i l1 hl1)
    apply hall n pte
    rw [Pagetable.leaf, if_pos hn, Pagetable.slot, h2, hl1]
    simp only [h1, hl0, h0, Option.join_some]
    exact hpte

theorem freewalk_wp [Image] (h : pt.Tree)
    (hperm : ∀ n pte, pt.leaf n = some pte → pte.perm.r ∨ pte.perm.w ∨ pte.perm.x) (s : State) :
    wp (freewalk pt) s (fun _ s' => (∀ n, pt.leaf n = none) ∧ Freed s s')
      fun e => (∃ n, pt.leaf n ≠ none) ∧ e = .freewalkLeaf := by
  have hnone : (∀ n pte, pt.leaf n = some pte → False) ↔ ∀ n, pt.leaf n = none := by
    simp only [Option.eq_none_iff_forall_ne_some, ne_eq]
  have hpermAll := (h.all_iff _).mpr hperm
  have hlevel0 : ∀ i l1, pt.entry i = some l1 → ∀ j l0, l1.entry j = some l0 → ∀ s,
      wp (freeTable freewalkEntry l0) s (fun _ s' => l0.All (fun _ => False) ∧ Freed s s')
        fun e => ¬l0.All (fun _ => False) ∧ e = .freewalkLeaf := by
    intro i l1 hl1 j l0 hl0 s
    refine freeTable_wp (fun k pte s hpte => ?_) (h.level0 i l1 j l0 hl1 hl0) s
    rw [freewalkEntry, if_pos (hpermAll i l1 hl1 j l0 hl0 k pte hpte)]
    exact wp_throw ⟨not_false, rfl⟩
  have hlevel1 : ∀ i l1 s, pt.entry i = some l1 →
      wp (freeTable (freeTable freewalkEntry) l1) s
        (fun _ s' => l1.All (Table.All fun _ => False) ∧ Freed s s')
        fun e => ¬l1.All (Table.All fun _ => False) ∧ e = .freewalkLeaf :=
    fun i l1 s hl1 => freeTable_wp (fun j l0 s hl0 => hlevel0 i l1 hl1 j l0 hl0 s)
      (h.level1 i l1 hl1) s
  unfold freewalk
  apply (freeTable_wp hlevel1 h.root s).mono
  · rintro _ s' ⟨hall, hfreed⟩
    exact ⟨hnone.mp ((h.all_iff _).mp hall), hfreed⟩
  · rintro e ⟨hall, he⟩
    refine ⟨?_, he⟩
    by_contra hleaf
    push Not at hleaf
    exact hall ((h.all_iff _).mpr (hnone.mpr hleaf))

def userPages (sz : UInt64) : Nat := (PGROUNDUP sz / PGSIZE).toNat

-- The address space of a process: its memory from 0 on, the two pages of the
-- kernel at the top, and pages of rings in between.
structure Layout [Image] (pt : Pagetable) (sz : UInt64) (Ring : Nat → Prop) : Prop where
  tree : pt.Tree
  size : userPages sz < 2 ^ 19
  user : ∀ n < userPages sz, Removable true (pt.leaf n)
  top : ∀ n, 2 ^ 26 - 2 ≤ n → n < 2 ^ 26 → ∃ pte, pt.leaf n = some pte ∧
    pte.perm ≠ ⟨false, false, false, false⟩ ∧ pte.perm.u = false
  ring : ∀ n, userPages sz ≤ n → n < 2 ^ 26 - 2 → ∀ pte, pt.leaf n = some pte →
    Ring n ∧ pte.perm = permRing

theorem unmapPart_wp [Image] {doFree : Bool} (va : UInt64) (count : Nat) (hmod : va.toNat % 4096 = 0)
    (hbound : va.toNat + 4096 * count ≤ 274877906944) (htree : TreeState s)
    (hok : ∀ m, vpn va ≤ m → m < vpn va + count → Removable doFree (s.pagetable.leaf m)) :
    wp (uvmunmap va (UInt64.ofNat count) doFree) s
      (fun _ s' => TreeState s' ∧ Freed s s' ∧ ∀ m, s'.pagetable.leaf m =
        if vpn va ≤ m ∧ m < vpn va + count then none else s.pagetable.leaf m)
      fun _ => False := by
  apply ((uvmunmap_wp doFree va count hmod hbound s).and (uvmunmap_keeps va _ doFree s htree)).mono
  · rintro _ s' ⟨⟨_, hunmapped⟩, htree'⟩
    exact ⟨htree', ⟨hunmapped.frame, fun _ => htree'.free⟩, congrFun hunmapped.leaf⟩
  · rintro _ ⟨⟨⟨m, hm, hm', hbad⟩, -⟩, -⟩
    exact hbad (hok m hm hm')

theorem userPages_zero : userPages 0 = 0 := by decide

theorem uvmfree_wp [Image] (htree : TreeState s) (hsize : userPages sz < 2 ^ 19)
    (huser : ∀ n < userPages sz, Removable true (s.pagetable.leaf n))
    (hperm : ∀ n, userPages sz ≤ n → ∀ pte, s.pagetable.leaf n = some pte → pte.perm = permRing) :
    wp (uvmfree sz) s
      (fun _ s' => (∀ n, userPages sz ≤ n → s.pagetable.leaf n = none) ∧ Freed s s')
      fun e => (∃ n, userPages sz ≤ n ∧ s.pagetable.leaf n ≠ none) ∧ e = .freewalkLeaf := by
  -- What is left for `freewalk` is what lies behind the memory.
  have hwalk : ∀ s₁, TreeState s₁ → Freed s s₁ →
      (∀ n, s₁.pagetable.leaf n = if n < userPages sz then none else s.pagetable.leaf n) →
      wp (do freewalk (← get).pagetable) s₁
        (fun _ s' => (∀ n, userPages sz ≤ n → s.pagetable.leaf n = none) ∧ Freed s s')
        fun e => (∃ n, userPages sz ≤ n ∧ s.pagetable.leaf n ≠ none) ∧ e = .freewalkLeaf := by
    intro s₁ htree₁ hfreed₁ hleaf₁
    have hperm₁ : ∀ n pte, s₁.pagetable.leaf n = some pte →
        pte.perm.r ∨ pte.perm.w ∨ pte.perm.x := by
      intro n pte hpte
      rw [hleaf₁] at hpte
      by_cases hn : n < userPages sz
      · rw [if_pos hn] at hpte
        cases hpte
      · rw [if_neg hn] at hpte
        rw [hperm n (Nat.le_of_not_lt hn) pte hpte]
        exact .inl rfl
    apply wp_get_bind
    apply (freewalk_wp htree₁.tree hperm₁ s₁).mono
    · rintro _ s' ⟨hnone, hfreed⟩
      refine ⟨fun n hn => ?_, hfreed₁.trans hfreed⟩
      have hnone' := hnone n
      rwa [hleaf₁, if_neg (Nat.not_lt.mpr hn)] at hnone'
    · rintro e ⟨⟨n, hsome⟩, he⟩
      refine ⟨⟨n, ?_, ?_⟩, he⟩
      · by_contra hn
        exact hsome (by rw [hleaf₁, if_pos (Nat.lt_of_not_le hn)])
      · by_contra hnone
        exact hsome (by rw [hleaf₁, hnone, ite_self])
  unfold uvmfree
  by_cases hpos : 0 < sz
  · rw [if_pos hpos]
    apply wp_bind
    rw [show PGROUNDUP sz / PGSIZE = UInt64.ofNat (userPages sz) from UInt64.ofNat_toNat.symm]
    have hzero : vpn 0 = 0 := by decide
    apply (unmapPart_wp 0 _ (by decide) (by rw [show (0 : UInt64).toNat = 0 by rfl]; omega) htree
      (by rw [hzero]; intro m _ hm; exact huser m (by omega))).mono _ fun _ h => h.elim
    rintro _ s₁ ⟨htree₁, hfreed₁, hleaf₁⟩
    apply hwalk s₁ htree₁ hfreed₁
    intro n
    rw [hleaf₁, hzero]
    simp only [Nat.zero_le, true_and, Nat.zero_add]
  · rw [if_neg hpos]
    have hzero : sz = 0 := UInt64.le_zero_iff.mp (UInt64.not_lt.mp hpos)
    apply hwalk s htree (Freed.refl s)
    intro n
    rw [hzero, userPages_zero, if_neg (Nat.not_lt_zero n)]

theorem procFreepagetable_wp [Image] (hfree : ∀ pa ∈ s.freelist, ValidPage pa)
    (h : Layout s.pagetable sz Ring) :
    wp (procFreepagetable sz) s
      (fun _ s' => (∀ n, userPages sz ≤ n → n < 2 ^ 26 - 2 → s.pagetable.leaf n = none) ∧ Freed s s')
      fun e => (∃ n, userPages sz ≤ n ∧ n < 2 ^ 26 - 2 ∧ s.pagetable.leaf n ≠ none) ∧
        e = .freewalkLeaf := by
  have htop : ∀ n, 2 ^ 26 - 2 ≤ n → n < 2 ^ 26 → Removable false (s.pagetable.leaf n) := by
    intro n hn hn'
    obtain ⟨pte, hleaf, hperm, _⟩ := h.top n hn hn'
    exact ⟨pte, hleaf, hperm, by simp⟩
  have hTrampoline : vpn TRAMPOLINE = 2 ^ 26 - 1 := by decide
  have hTrapframe : vpn TRAPFRAME = 2 ^ 26 - 2 := by decide
  have hsize := h.size
  unfold procFreepagetable
  apply wp_bind
  apply (unmapPart_wp TRAMPOLINE 1 (by decide) (by decide) ⟨hfree, h.tree⟩
    (by rw [hTrampoline]; intro m hm hm'; exact htop m (by omega) (by omega))).mono _ fun _ h => h.elim
  rintro _ s₁ ⟨htree₁, hfreed₁, hleaf₁⟩
  rw [hTrampoline] at hleaf₁
  have htop₁ : ∀ m, vpn TRAPFRAME ≤ m → m < vpn TRAPFRAME + 1 →
      Removable false (s₁.pagetable.leaf m) := by
    intro m hm hm'
    rw [hTrapframe] at hm hm'
    rw [hleaf₁, if_neg (by omega)]
    exact htop m (by omega) (by omega)
  apply wp_bind
  apply (unmapPart_wp TRAPFRAME 1 (by decide) (by decide) htree₁ htop₁).mono _ fun _ h => h.elim
  rintro _ s₂ ⟨htree₂, hfreed₂, hleaf₂⟩
  have hleaf : ∀ n, s₂.pagetable.leaf n = if 2 ^ 26 - 2 ≤ n then none else s.pagetable.leaf n := by
    intro n
    rw [hleaf₂, hTrapframe, hleaf₁]
    by_cases hn : 2 ^ 26 ≤ n
    · have hnone : s.pagetable.leaf n = none := if_neg (Nat.not_lt.mpr hn)
      rw [if_neg (by omega), if_neg (by omega), if_pos (by omega), hnone]
    · by_cases hn' : n = 2 ^ 26 - 2
      · rw [if_pos (by omega), if_pos (by omega)]
      · rw [if_neg (by omega)]
        by_cases hn'' : 2 ^ 26 - 2 ≤ n
        · rw [if_pos (by omega), if_pos hn'']
        · rw [if_neg (by omega), if_neg hn'']
  have huser : ∀ n < userPages sz, Removable true (s₂.pagetable.leaf n) := by
    intro n hn
    rw [hleaf, if_neg (by omega)]
    exact h.user n hn
  have hring : ∀ n, userPages sz ≤ n → ∀ pte, s₂.pagetable.leaf n = some pte →
      pte.perm = permRing := by
    intro n hn pte hpte
    rw [hleaf] at hpte
    by_cases hlt : n < 2 ^ 26 - 2
    · rw [if_neg (Nat.not_le.mpr hlt)] at hpte
      exact (h.ring n hn hlt pte hpte).2
    · rw [if_pos (Nat.le_of_not_lt hlt)] at hpte
      cases hpte
  apply (uvmfree_wp htree₂ hsize huser hring).mono
  · rintro _ s' ⟨hnone, hfreed⟩
    refine ⟨fun n hn hlt => ?_, (hfreed₁.trans hfreed₂).trans hfreed⟩
    have hnone' := hnone n hn
    rwa [hleaf, if_neg (Nat.not_le.mpr hlt)] at hnone'
  · rintro e ⟨⟨n, hn, hsome⟩, he⟩
    rw [hleaf] at hsome
    by_cases hlt : n < 2 ^ 26 - 2
    · rw [if_neg (Nat.not_le.mpr hlt)] at hsome
      exact ⟨⟨n, hn, hlt, hsome⟩, he⟩
    · rw [if_pos (Nat.le_of_not_lt hlt)] at hsome
      exact absurd rfl hsome

theorem freeproc_wp [Image] {trapframe : UInt64} (hfree : ∀ pa ∈ s.freelist, ValidPage pa)
    (hframe : ValidPage trapframe) (h : Layout s.pagetable sz Ring) :
    wp (freeproc trapframe sz) s
      (fun _ s' => (∀ n, userPages sz ≤ n → n < 2 ^ 26 - 2 → s.pagetable.leaf n = none) ∧ Freed s s')
      fun e => (∃ n, userPages sz ≤ n ∧ n < 2 ^ 26 - 2 ∧ s.pagetable.leaf n ≠ none) ∧
        e = .freewalkLeaf := by
  unfold freeproc
  rw [if_pos hframe.ne_zero]
  apply wp_bind
  apply (kfree_freed hframe s).mono _ fun _ h => h.elim
  rintro _ s₁ ⟨hfreed₁, hpt⟩
  rw [← hpt] at h ⊢
  apply (procFreepagetable_wp (hfreed₁.free hfree) h).mono _ fun _ h => h
  rintro _ s' ⟨hnone, hfreed⟩
  exact ⟨hnone, hfreed₁.trans hfreed⟩

end Xv6Ringbuf.Kernel
