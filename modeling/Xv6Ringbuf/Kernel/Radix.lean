import Xv6Ringbuf.Kernel.Sv39

namespace Xv6Ringbuf.Sv39

open Machine Kernel Function

-- What a page is mapped to: the physical page and the flags, `PTE_V` among them.
structure Entry where
  pa : UInt64
  flags : UInt64
  aligned : pa.toNat % 4096 = 0
  small : flags.toNat < 1024
  valid : flags &&& PTE_V ≠ 0

abbrev Pages := Nat → Option Entry

def entryWord : Option Entry → UInt64
  | none => 0
  | some e => PA2PTE e.pa ||| e.flags

def pointerWord : Option UInt64 → UInt64
  | none => 0
  | some page => PA2PTE page ||| PTE_V

-- Where a table page hangs in the tree.
inductive Place where
  | root
  | mid (i : Fin 512)
  | low (i j : Fin 512)
deriving DecidableEq

def Place.child : Place → Fin 512 → Option Place
  | .root, i => some (.mid i)
  | .mid i, j => some (.low i j)
  | .low _ _, _ => none

def Place.number : Place → Fin 512 → Nat
  | .low i j, k => (i.val * 512 + j.val) * 512 + k.val
  | _, _ => 0

def leafPlace (n : Nat) : Place := .low (index 2 n) (index 1 n)

abbrev Shape := Place → Option UInt64

def contents (tree : Shape) (pages : Pages) (x : Place) (i : Fin 512) : UInt64 :=
  match x.child i with
  | some y => pointerWord (tree y)
  | none => entryWord (pages (x.number i))

-- The tree below `root` in memory stands for the map `pages`.
structure Rep (m : Mem) (root : UInt64) (tree : Shape) (pages : Pages) : Prop where
  top : tree .root = some root
  words : ∀ x page, tree x = some page → ∀ i, m.words page i = contents tree pages x i
  parent : ∀ i j, tree (.low i j) ≠ none → tree (.mid i) ≠ none
  inj : ∀ x y page, tree x = some page → tree y = some page → x = y
  aligned : ∀ x page, tree x = some page → page.toNat % 4096 = 0
  tables : ∀ x page, tree x = some page → page ∈ m.tables
  bound : ∀ n e, pages n = some e → n < 2 ^ 26
  reach : ∀ n e, pages n = some e → tree (leafPlace n) ≠ none
  apart : ∀ n e, pages n = some e → e.pa ∉ m.tables

-- What `kalloc` is going to give is used neither as a table nor as a mapped page.
structure Fresh (m : Mem) (pages : Pages) : Prop where
  nodup : (m.supply.filterMap id).Nodup
  aligned : ∀ page, some page ∈ m.supply → page.toNat % 4096 = 0
  tables : ∀ page, some page ∈ m.supply → page ∉ m.tables
  unmapped : ∀ page, some page ∈ m.supply → ∀ n e, pages n = some e → e.pa ≠ page

theorem number_leafPlace {n : Nat} (hn : n < 2 ^ 26) : (leafPlace n).number (index 0 n) = n := by
  simp only [leafPlace, Place.number, index]
  omega

theorem leafPlace_number (i j k : Fin 512) : leafPlace ((Place.low i j).number k) = .low i j := by
  have hi : index 2 ((Place.low i j).number k) = i := by
    apply Fin.ext
    simp only [Place.number, index]
    omega
  have hj : index 1 ((Place.low i j).number k) = j := by
    apply Fin.ext
    simp only [Place.number, index]
    omega
  rw [leafPlace, hi, hj]

theorem number_inj {i j i' j' k k' : Fin 512}
    (h : (Place.low i j).number k = (Place.low i' j').number k') :
    Place.low i j = .low i' j' ∧ k = k' := by
  refine ⟨?_, ?_⟩
  · rw [← leafPlace_number i j k, h, leafPlace_number]
  · apply Fin.ext
    simp only [Place.number] at h
    omega

theorem child_inj {x x' y : Place} {i i' : Fin 512} (h : x.child i = some y)
    (h' : x'.child i' = some y) : x = x' ∧ i = i' := by
  cases x <;> cases x' <;> cases h <;> cases h' <;> exact ⟨rfl, rfl⟩

theorem pointerWord_valid_iff (p : Option UInt64) : pointerWord p &&& PTE_V ≠ 0 ↔ p ≠ none := by
  cases p with
  | none => simp [pointerWord]
  | some page =>
    have hword : pointerWord (some page) &&& PTE_V = PTE_V := by
      rw [pointerWord, entry_and page (by decide) (by decide)]
      decide
    rw [hword]
    simp [PTE_V]

theorem PTE2PA_pointerWord {page : UInt64} (h : page.toNat % 4096 = 0) :
    PTE2PA (pointerWord (some page)) = page :=
  PTE2PA_entry h (by decide)

theorem entryWord_valid_iff (x : Option Entry) : entryWord x &&& PTE_V ≠ 0 ↔ x ≠ none := by
  cases x with
  | none => simp [entryWord]
  | some e =>
    rw [entryWord, entry_and e.pa e.small (by decide)]
    simp [e.valid]

variable {m m' : Mem} {root p : UInt64} {tree : Shape} {pages : Pages} {y : Place}

theorem Rep.contents_of_none (h : Rep m root tree pages) (hy : tree y = none) (hroot : y ≠ .root)
    (k : Fin 512) : contents tree pages y k = 0 := by
  cases y with
  | root => exact absurd rfl hroot
  | mid i =>
    have hlow : tree (.low i k) = none := by
      by_contra hlow
      exact h.parent i k hlow hy
    simp only [contents, Place.child, hlow, pointerWord]
  | low i j =>
    have hpages : pages ((Place.low i j).number k) = none := by
      cases hpage : pages ((Place.low i j).number k) with
      | none => rfl
      | some e =>
        have hreach := h.reach _ e hpage
        rw [leafPlace_number] at hreach
        exact absurd hy hreach
    simp only [contents, Place.child, hpages, entryWord]

-- A table is put at place `y`, and the entry `i` of its parent `x` points to it.
section Grow

variable {x z : Place} {i k : Fin 512} {page q : UInt64}

theorem grown_cases (hz : update tree y (some page) z = some q) :
    z = y ∧ q = page ∨ z ≠ y ∧ tree z = some q := by
  by_cases hzy : z = y
  · rw [hzy, update_self] at hz
    exact .inl ⟨hzy, (Option.some.inj hz).symm⟩
  · rw [update_of_ne hzy] at hz
    exact .inr ⟨hzy, hz⟩

-- No other entry points to the place.
theorem contents_grown (hchild : x.child i = some y) (hzk : (z, k) ≠ (x, i)) :
    contents (update tree y (some page)) pages z k = contents tree pages z k := by
  unfold contents
  cases hc : z.child k with
  | none => rfl
  | some w =>
    have hw : w ≠ y := by
      rintro rfl
      obtain ⟨rfl, rfl⟩ := child_inj hc hchild
      exact hzk rfl
    simp only [update_of_ne hw]

variable (h : Rep m root tree pages) (hx : tree x = some p) (hchild : x.child i = some y)
  (hy : tree y = none) (hpage : page ∉ m.tables) (hnew : ∀ k, m'.words page k = 0)
  (hset : m'.words p i = pointerWord (some page))
  (hrest : ∀ q k, q ≠ page → (q, k) ≠ (p, i) → m'.words q k = m.words q k)

include h hx hchild hy hpage hnew hset hrest

theorem Rep.grown_words (hz : update tree y (some page) z = some q) :
    m'.words q k = contents (update tree y (some page)) pages z k := by
  rcases grown_cases hz with ⟨rfl, rfl⟩ | ⟨-, hz⟩
  · have hroot : z ≠ .root := by
      cases x <;> cases hchild <;> simp
    have hzx : (z, k) ≠ (x, i) := by
      intro heq
      obtain ⟨rfl, rfl⟩ := Prod.mk.inj heq
      cases hx.symm.trans hy
    rw [hnew, contents_grown hchild hzx, h.contents_of_none hy hroot]
  by_cases hzx : (z, k) = (x, i)
  · obtain ⟨rfl, rfl⟩ := Prod.mk.inj hzx
    obtain rfl : p = q := Option.some.inj (hx.symm.trans hz)
    rw [hset, contents, hchild]
    simp only [update_self]
  · have hqp : (q, k) ≠ (p, i) := by
      intro heq
      obtain ⟨rfl, rfl⟩ := Prod.mk.inj heq
      exact hzx (by rw [h.inj z x q hz hx])
    have hne : q ≠ page := fun heq => hpage (heq ▸ h.tables z q hz)
    rw [hrest q k hne hqp, contents_grown hchild hzx]
    exact h.words z q hz k

theorem Rep.grow (haligned : page.toNat % 4096 = 0)
    (hunmapped : ∀ n e, pages n = some e → e.pa ≠ page) (htables : m'.tables = page :: m.tables) :
    Rep m' root (update tree y (some page)) pages := by
  have hkeep : ∀ z, tree z ≠ none → update tree y (some page) z = tree z :=
    fun z hz => update_of_ne (fun heq : z = y => hz (heq ▸ hy)) ..
  have hfresh : ∀ z q, tree z = some q → q ≠ page :=
    fun z q hz heq => hpage (heq ▸ h.tables z q hz)
  refine ⟨?_, fun z q hz k => h.grown_words hx hchild hy hpage hnew hset hrest hz, ?_, ?_, ?_, ?_,
    h.bound, ?_, ?_⟩
  · rw [hkeep _ (by rw [h.top]; simp), h.top]
  · intro a b hlow
    by_cases hly : Place.low a b = y
    · subst hly
      obtain ⟨rfl, rfl⟩ := child_inj (show (Place.mid a).child b = _ from rfl) hchild
      rw [hkeep _ (by rw [hx]; simp), hx]
      simp
    · rw [update_of_ne hly] at hlow
      have hmid := h.parent a b hlow
      rwa [hkeep _ hmid]
  · intro z w q hz hw
    rcases grown_cases hz with ⟨rfl, rfl⟩ | ⟨-, hz'⟩ <;>
      rcases grown_cases hw with ⟨rfl, hq⟩ | ⟨-, hw'⟩
    · rfl
    · exact absurd rfl (hfresh w _ hw')
    · exact absurd hq (hfresh z q hz')
    · exact h.inj z w q hz' hw'
  · intro z q hz
    rcases grown_cases hz with ⟨-, rfl⟩ | ⟨-, hz⟩
    · exact haligned
    · exact h.aligned z q hz
  · intro z q hz
    rw [htables]
    rcases grown_cases hz with ⟨-, rfl⟩ | ⟨-, hz⟩
    · exact List.mem_cons_self
    · exact List.mem_cons_of_mem _ (h.tables z q hz)
  · intro n e he
    have hreach := h.reach n e he
    rwa [hkeep _ hreach]
  · intro n e he
    rw [htables, List.mem_cons, not_or]
    exact ⟨hunmapped n e he, h.apart n e he⟩

end Grow

theorem Rep.of_tables (h : Rep m root tree pages) (htables : m'.tables = m.tables)
    (hwords : ∀ page ∈ m.tables, m'.words page = m.words page) : Rep m' root tree pages := by
  refine ⟨h.top, ?_, h.parent, h.inj, h.aligned, ?_, h.bound, h.reach, ?_⟩
  · intro x page hx i
    rw [hwords page (h.tables x page hx)]
    exact h.words x page hx i
  · intro x page hx
    rw [htables]
    exact h.tables x page hx
  · intro n e he
    rw [htables]
    exact h.apart n e he

theorem Rep.setEntry (h : Rep m root tree pages) {n : Nat} (hn : n < 2 ^ 26)
    (hp : tree (leafPlace n) = some p) {x : Option Entry} (hx : ∀ e, x = some e → e.pa ∉ m.tables)
    (hset : m'.words p (index 0 n) = entryWord x)
    (hrest : ∀ q k, (q, k) ≠ (p, index 0 n) → m'.words q k = m.words q k)
    (htables : m'.tables = m.tables) : Rep m' root tree (update pages n x) := by
  have hnum : (leafPlace n).number (index 0 n) = n := number_leafPlace hn
  -- Every other word stands for another page.
  have hcontents : ∀ z k, (z, k) ≠ (leafPlace n, index 0 n) →
      contents tree (update pages n x) z k = contents tree pages z k := by
    intro z k hzk
    cases z with
    | root => rfl
    | mid i => rfl
    | low i j =>
      have hne : (Place.low i j).number k ≠ n := by
        intro heq
        obtain ⟨hplace, hk⟩ := number_inj (heq.trans hnum.symm)
        exact hzk (by rw [hplace, hk]; rfl)
      simp only [contents, Place.child, update_of_ne hne]
  have hcases : ∀ k e, update pages n x k = some e →
      (k = n ∧ x = some e) ∨ pages k = some e := by
    intro k e he
    by_cases hk : k = n
    · subst hk
      rw [update_self] at he
      exact .inl ⟨rfl, he⟩
    · rw [update_of_ne hk] at he
      exact .inr he
  refine ⟨h.top, ?_, h.parent, h.inj, h.aligned, ?_, ?_, ?_, ?_⟩
  · intro z q hz k
    by_cases hzk : (z, k) = (leafPlace n, index 0 n)
    · obtain ⟨rfl, rfl⟩ := Prod.mk.inj hzk
      obtain rfl : p = q := Option.some.inj (hp.symm.trans hz)
      rw [hset]
      simp only [contents, leafPlace, Place.child]
      rw [← leafPlace, hnum, update_self]
    · have hqk : (q, k) ≠ (p, index 0 n) := by
        intro heq
        obtain ⟨rfl, rfl⟩ := Prod.mk.inj heq
        exact hzk (by rw [h.inj z _ q hz hp])
      rw [hrest q k hqk, hcontents z k hzk]
      exact h.words z q hz k
  · intro z q hz
    rw [htables]
    exact h.tables z q hz
  · intro k e he
    obtain ⟨rfl, _⟩ | he := hcases k e he
    · exact hn
    · exact h.bound k e he
  · intro k e he
    obtain ⟨rfl, _⟩ | he := hcases k e he
    · rw [hp]
      simp
    · exact h.reach k e he
  · intro k e he
    rw [htables]
    obtain ⟨rfl, hsome⟩ | he := hcases k e he
    · exact hx e hsome
    · exact h.apart k e he

end Xv6Ringbuf.Sv39
