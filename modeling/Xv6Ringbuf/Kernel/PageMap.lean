import Xv6Ringbuf.Kernel.Radix

namespace Xv6Ringbuf.Sv39

open Machine Kernel Function

variable {m m' : Mem} {root : UInt64} {tree : Shape} {pages : Pages}

structure Drawn (m m' : Mem) : Prop where
  tables : ∀ page ∈ m'.tables, page ∈ m.tables ∨ some page ∈ m.supply
  supply : ∀ answer ∈ m'.supply, answer ∈ m.supply

theorem Drawn.refl (m : Mem) : Drawn m m := ⟨fun _ h => .inl h, fun _ h => h⟩

theorem Drawn.trans {m₁ m₂ m₃ : Mem} (h : Drawn m₁ m₂) (h' : Drawn m₂ m₃) : Drawn m₁ m₃ := by
  refine ⟨?_, fun answer ha => h.supply answer (h'.supply answer ha)⟩
  intro page hpage
  cases h'.tables page hpage with
  | inl htables => exact h.tables page htables
  | inr hsupply => exact .inr (h.supply _ hsupply)

variable {pte : PteAddr} {E : Panic → Prop} {w page p va : UInt64} {Q : Unit → Mem → Prop}
  {x y : Place} {i : Fin 512} {level : Nat}

theorem load_wp {Q : UInt64 → Mem → Prop} (h : Q (m.words pte.1 pte.2) m) : wp (load pte) m Q E := h

theorem store_wp (h : ∀ m', m'.words pte.1 pte.2 = w →
      (∀ q k, (q, k) ≠ pte → m'.words q k = m.words q k) → m'.tables = m.tables →
      m'.supply = m.supply → Q () m') : wp (store pte w) m Q E := by
  refine wp_modify (h _ ?_ ?_ rfl rfl)
  · simp only [update_self]
  · intro q k hne
    by_cases hq : q = pte.1
    · subst hq
      have hk : k ≠ pte.2 := by
        rintro rfl
        exact hne rfl
      simp only [update_self, update_of_ne hk]
    · simp only [update_of_ne hq]

theorem memset_wp (h : ∀ m', (∀ k, m'.words page k = w) → (∀ q, q ≠ page → m'.words q = m.words q) →
      m'.tables = m.tables → m'.supply = m.supply → Q () m') : wp (memset page w) m Q E := by
  refine wp_modify (h _ ?_ ?_ rfl rfl)
  · intro k
    simp only [update_self]
  · intro q hq
    simp only [update_of_ne hq]

theorem kalloc_wp {Q : Option UInt64 → Mem → Prop}
    (hnone : ∀ m', m'.words = m.words → m'.tables = m.tables →
      (∀ answer ∈ m'.supply, answer ∈ m.supply) → (m'.supply.filterMap id).Sublist (m.supply.filterMap id) →
      Q none m') (hsome : ∀ page rest m', m.supply = some page :: rest →
      (∀ q, q ≠ page → m'.words q = m.words q) → m'.tables = page :: m.tables → m'.supply = rest →
      Q (some page) m') : wp kalloc m Q E := by
  refine wp_bind (wp_get ?_)
  cases hsupply : m.supply with
  | nil => exact hnone m rfl rfl (fun _ h => h) (List.Sublist.refl _)
  | cons answer rest =>
    cases answer with
    | none =>
      refine wp_bind (wp_modify (wp_pure (hnone _ rfl rfl ?_ ?_)))
      · intro answer h
        rw [hsupply]
        exact List.mem_cons_of_mem _ h
      · rw [hsupply]
        exact List.Sublist.refl _
    | some page =>
      refine wp_bind (wp_modify (wp_bind (memset_wp ?_)))
      intro m' _ hrest htables hsupply'
      exact wp_pure (hsome page rest m' hsupply hrest htables hsupply')

theorem Fresh.shrink (h : Fresh m pages) (htables : m'.tables = m.tables)
    (hsupply : ∀ answer ∈ m'.supply, answer ∈ m.supply)
    (hsublist : (m'.supply.filterMap id).Sublist (m.supply.filterMap id)) : Fresh m' pages := by
  refine ⟨h.nodup.sublist hsublist, ?_, ?_, ?_⟩
  · exact fun page hpage => h.aligned page (hsupply _ hpage)
  · intro page hpage
    rw [htables]
    exact h.tables page (hsupply _ hpage)
  · exact fun page hpage => h.unmapped page (hsupply _ hpage)

theorem Fresh.draw (h : Fresh m pages) (hsupply : m.supply = some page :: m'.supply)
    (htables : m'.tables = page :: m.tables) : Fresh m' pages := by
  have hmem : ∀ answer ∈ m'.supply, answer ∈ m.supply := by
    intro answer ha
    rw [hsupply]
    exact List.mem_cons_of_mem _ ha
  have hnodup := h.nodup
  rw [hsupply] at hnodup
  obtain ⟨hnot, hnodup⟩ := List.nodup_cons.mp hnodup
  refine ⟨hnodup, fun q hq => h.aligned q (hmem _ hq), ?_, fun q hq => h.unmapped q (hmem _ hq)⟩
  intro q hq
  rw [htables, List.mem_cons, not_or]
  refine ⟨?_, h.tables q (hmem _ hq)⟩
  rintro rfl
  exact hnot (List.mem_filterMap.mpr ⟨some q, hq, rfl⟩)

theorem Rep.pointer (h : Rep m root tree pages) (hx : tree x = some p) (hchild : x.child i = some y) :
    m.words p i = pointerWord (tree y) := by
  rw [h.words x p hx, contents, hchild]

theorem walkLevel_find (h : Rep m root tree pages) (hx : tree x = some p)
    (hchild : x.child (PX level va) = some y) {Q : Option UInt64 → Mem → Prop} (hQ : Q (tree y) m) :
    wp (walkLevel va false level p) m Q E := by
  refine wp_bind (load_wp ?_)
  simp only [h.pointer hx hchild]
  cases hy : tree y with
  | none =>
    rw [hy] at hQ
    rw [if_neg (by simp [pointerWord_valid_iff])]
    exact wp_pure hQ
  | some page =>
    rw [hy] at hQ
    rw [if_pos ((pointerWord_valid_iff _).mpr (by simp)), PTE2PA_pointerWord (h.aligned y page hy)]
    exact wp_pure hQ

theorem walkLevel_alloc (h : Rep m root tree pages) (hfresh : Fresh m pages) (hx : tree x = some p)
    (hchild : x.child (PX level va) = some y) :
    wp (walkLevel va true level p) m (fun r m' => ∃ tree', Rep m' root tree' pages ∧ Fresh m' pages ∧
      Drawn m m' ∧ r = tree' y) fun _ => False := by
  refine wp_bind (load_wp ?_)
  simp only [h.pointer hx hchild]
  cases hy : tree y with
  | some page =>
    rw [if_pos ((pointerWord_valid_iff _).mpr (by simp)), PTE2PA_pointerWord (h.aligned y page hy)]
    exact wp_pure ⟨tree, h, hfresh, Drawn.refl m, hy.symm⟩
  | none =>
    rw [if_neg (by simp [pointerWord_valid_iff]), if_pos trivial]
    refine wp_bind (kalloc_wp ?_ ?_)
    · intro m' hwords htables hsupply hsublist
      have hrep : Rep m' root tree pages := h.of_tables htables fun page _ => by rw [hwords]
      refine wp_pure ⟨tree, hrep, hfresh.shrink htables hsupply hsublist, ?_, hy.symm⟩
      exact ⟨fun page hpage => .inl (htables ▸ hpage), hsupply⟩
    · intro page rest m₁ hsupply hwords₁ htables₁ hsupply₁
      have hmem : some page ∈ m.supply := by
        rw [hsupply]
        exact List.mem_cons_self
      refine wp_bind (memset_wp ?_)
      intro m₂ hzero hwords₂ htables₂ hsupply₂
      refine wp_bind (store_wp ?_)
      intro m₃ hset hwords₃ htables₃ hsupply₃
      have htables : m₃.tables = page :: m.tables := by rw [htables₃, htables₂, htables₁]
      have hsupply' : m.supply = some page :: m₃.supply := by
        rw [hsupply₃, hsupply₂, hsupply₁, hsupply]
      have hp : page ≠ p := by
        rintro rfl
        exact hfresh.tables page hmem (h.tables x page hx)
      have hrep : Rep m₃ root (update tree y (some page)) pages := by
        refine h.grow hx hchild hy (hfresh.tables page hmem) ?_ hset ?_ (hfresh.aligned page hmem)
          (fun n e he => hfresh.unmapped page hmem n e he) htables
        · intro k
          rw [hwords₃ page k (fun heq => hp (Prod.mk.inj heq).1), hzero]
        · intro q k hq hqk
          rw [hwords₃ q k hqk, hwords₂ q hq, hwords₁ q hq]
      have hfound : some page = update tree y (some page) y := by rw [update_self]
      refine wp_pure ⟨_, hrep, hfresh.draw hsupply' htables, ⟨?_, ?_⟩, hfound⟩
      · intro q hq
        rw [htables, List.mem_cons] at hq
        cases hq with
        | inl hq => exact .inr (hq ▸ hmem)
        | inr hq => exact .inl hq
      · intro answer ha
        rw [hsupply']
        exact List.mem_cons_of_mem _ ha

theorem Rep.low_of_mid (h : Rep m root tree pages) {j : Fin 512} (hmid : tree (.mid i) = none) :
    tree (.low i j) = none := by
  by_contra hlow
  exact h.parent i j hlow hmid

def pteAddr (tree : Shape) (n : Nat) : Option PteAddr :=
  (tree (leafPlace n)).map fun page => (page, index 0 n)

theorem walk_find (h : Rep m root tree pages) (hva : va < MAXVA) {Q : Option PteAddr → Mem → Prop}
    (hQ : Q (pteAddr tree (vpn va)) m) :
    wp (walk root va false) m Q E := by
  have hplace : leafPlace (vpn va) = .low (PX 2 va) (PX 1 va) := by
    rw [leafPlace, PX_eq (by omega), PX_eq (by omega)]
  rw [walk, if_neg (by simpa using hva)]
  refine wp_bind (walkLevel_find h h.top (show Place.child .root (PX 2 va) = some (.mid (PX 2 va)) from rfl) ?_)
  rw [pteAddr, hplace] at hQ
  cases hmid : tree (.mid (PX 2 va)) with
  | none =>
    rw [h.low_of_mid hmid] at hQ
    exact wp_pure hQ
  | some l1 =>
    refine wp_bind (walkLevel_find h hmid (show Place.child (.mid _) (PX 1 va) = some _ from rfl) ?_)
    cases hlow : tree (.low (PX 2 va) (PX 1 va)) with
    | none =>
      rw [hlow] at hQ
      exact wp_pure hQ
    | some l0 =>
      rw [hlow] at hQ
      simp only [PX_eq (Nat.zero_le 2)]
      exact wp_pure hQ

theorem walk_alloc (h : Rep m root tree pages) (hfresh : Fresh m pages) (hva : va < MAXVA) :
    wp (walk root va true) m (fun r m' => ∃ tree', Rep m' root tree' pages ∧ Drawn m m' ∧
      r = pteAddr tree' (vpn va)) fun _ => False := by
  have hplace : leafPlace (vpn va) = .low (PX 2 va) (PX 1 va) := by
    rw [leafPlace, PX_eq (by omega), PX_eq (by omega)]
  simp only [pteAddr, hplace]
  rw [walk, if_neg (by simpa using hva)]
  refine wp_bind ((walkLevel_alloc h hfresh h.top
    (show Place.child .root (PX 2 va) = some (.mid (PX 2 va)) from rfl)).mono ?_ fun _ h => h)
  rintro r m₁ ⟨tree₁, h₁, hfresh₁, hdrawn₁, rfl⟩
  cases hmid : tree₁ (.mid (PX 2 va)) with
  | none =>
    refine wp_pure ⟨tree₁, h₁, hdrawn₁, ?_⟩
    rw [h₁.low_of_mid hmid]
    rfl
  | some l1 =>
    refine wp_bind ((walkLevel_alloc h₁ hfresh₁ hmid
      (show Place.child (.mid _) (PX 1 va) = some _ from rfl)).mono ?_ fun _ h => h)
    rintro r m₂ ⟨tree₂, h₂, _, hdrawn₂, rfl⟩
    have hdrawn := hdrawn₁.trans hdrawn₂
    cases hlow : tree₂ (.low (PX 2 va) (PX 1 va)) with
    | none =>
      refine wp_pure ⟨tree₂, h₂, hdrawn, ?_⟩
      rw [hlow]
      rfl
    | some l0 =>
      refine wp_pure ⟨tree₂, h₂, hdrawn, ?_⟩
      rw [hlow, PX_eq (Nat.zero_le 2)]
      rfl

end Xv6Ringbuf.Sv39
