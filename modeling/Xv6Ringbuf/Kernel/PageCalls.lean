import Xv6Ringbuf.Kernel.PageMap

namespace Xv6Ringbuf.Sv39

open Machine Kernel Function

theorem toNat_or_PTE_V {perm : UInt64} (h : perm.toNat < 1024) : (perm ||| PTE_V).toNat < 1024 := by
  rw [UInt64.toNat_or]
  exact Nat.or_lt_two_pow (n := 10) h (by decide)

def Entry.make (pa perm : UInt64) (hpa : pa.toNat % 4096 = 0) (hperm : perm.toNat < 1024) : Entry where
  pa := pa
  flags := perm ||| PTE_V
  aligned := hpa
  small := toNat_or_PTE_V hperm
  valid := by
    intro h
    have hmod := congrArg UInt64.toNat h
    rw [UInt64.toNat_and, UInt64.toNat_or, show PTE_V.toNat = 1 by rfl, Nat.and_one_is_mod] at hmod
    have hodd : (perm.toNat ||| 1) % 2 = 1 := Nat.or_mod_two_eq_one.mpr (.inr rfl)
    exact absurd (hodd.symm.trans hmod) (by decide)

def Entry.clear (e : Entry) : Entry where
  pa := e.pa
  flags := e.flags &&& ~~~PTE_U
  aligned := e.aligned
  small := by
    rw [UInt64.toNat_and]
    exact lt_of_le_of_lt Nat.and_le_left e.small
  valid := by
    rw [UInt64.and_assoc, show ~~~PTE_U &&& PTE_V = PTE_V by decide]
    exact e.valid

-- The calls that change a page table. `mappages` comes with the answers that
-- `kalloc` gives to it.
inductive Call where
  | mappages (va pa perm : UInt64) (hpa : pa.toNat % 4096 = 0) (hperm : perm.toNat < 1024)
      (answers : List (Option UInt64))
  | uvmunmap (va npages : UInt64) (doFree : Bool)
  | uvmclear (va : UInt64)

def Call.run [Image] (root : UInt64) : Call → V Int32
  | .mappages va pa perm _ _ answers => do
      modify fun m => { m with supply := answers }
      Sv39.mappages root va PGSIZE pa perm
  | .uvmunmap va npages doFree => do
      Sv39.uvmunmap root va npages doFree
      return 0
  | .uvmclear va => do
      Sv39.uvmclear root va
      return 0

def Call.after (pages : Pages) (r : Int32) : Call → Pages
  | .mappages va pa perm hpa hperm _ =>
    if r = 0 then update pages (vpn va) (some (.make pa perm hpa hperm)) else pages
  | .uvmunmap va npages _ =>
    fun n => if vpn va ≤ n ∧ n < vpn va + npages.toNat then none else pages n
  | .uvmclear va => update pages (vpn va) ((pages (vpn va)).map Entry.clear)

-- The preconditions of the calls. `uvmunmap` insists on entries with a flag
-- besides `PTE_V`, and `kfree` on pages of the RAM.
def Call.Allowed [Image] (m : Mem) (pages : Pages) : Call → Prop
  | .mappages va pa _ _ _ answers =>
    va.toNat % 4096 = 0 ∧ va < MAXVA ∧ pages (vpn va) = none ∧ pa ∉ m.tables ∧ some pa ∉ answers ∧
      Fresh { m with supply := answers } pages
  | .uvmunmap va npages doFree =>
    va.toNat % 4096 = 0 ∧ ∀ n, vpn va ≤ n → n < vpn va + npages.toNat →
      ∃ e, pages n = some e ∧ e.flags ≠ PTE_V ∧ (doFree → Image.kend ≤ e.pa ∧ e.pa < PHYSTOP)
  | .uvmclear va => va < MAXVA ∧ pages (vpn va) ≠ none

variable {m : Mem} {root : UInt64} {tree : Shape} {pages : Pages}

theorem Rep.entry (h : Rep m root tree pages) {n : Nat} (hn : n < 2 ^ 26) {p : UInt64}
    (hp : tree (leafPlace n) = some p) : m.words p (index 0 n) = entryWord (pages n) := by
  rw [h.words _ p hp, contents]
  simp only [leafPlace, Place.child]
  rw [← leafPlace, number_leafPlace hn]

theorem PGROUNDDOWN_aligned {va : UInt64} (h : va.toNat % 4096 = 0) : PGROUNDDOWN va = va := by
  apply UInt64.toNat_inj.mp
  have hlt := va.toNat_lt
  rw [PGROUNDDOWN, UInt64.toNat_mul, UInt64.toNat_div, toNat_PGSIZE]
  omega

theorem last_page {va : UInt64} (h : va.toNat % 4096 = 0) : PGROUNDDOWN (va + PGSIZE - 1) = va := by
  apply UInt64.toNat_inj.mp
  have hlt := va.toNat_lt
  rw [PGROUNDDOWN, UInt64.toNat_mul, UInt64.toNat_div, UInt64.toNat_sub, UInt64.toNat_add,
    toNat_PGSIZE, show UInt64.toNat 1 = 1 by rfl]
  omega

variable [Image]

theorem mappages_wp (h : Rep m root tree pages) {va pa perm : UInt64} {hpa : pa.toNat % 4096 = 0}
    {hperm : perm.toNat < 1024} {answers : List (Option UInt64)}
    (hallowed : (Call.mappages va pa perm hpa hperm answers).Allowed m pages) :
    wp ((Call.mappages va pa perm hpa hperm answers).run root) m
      (fun r m' => ∃ tree', Rep m' root tree' ((Call.mappages va pa perm hpa hperm answers).after pages r))
      fun _ => False := by
  obtain ⟨haligned, hva, hnone, hpa', hanswers, hfresh⟩ := hallowed
  have hrep : Rep { m with supply := answers } root tree pages := h.of_tables rfl fun _ _ => rfl
  refine wp_bind (wp_modify ?_)
  rw [mappages, if_neg (by decide), last_page haligned, PGROUNDDOWN_aligned haligned]
  refine wp_bind ((walk_alloc hrep hfresh hva).mono ?_ fun _ h => h)
  rintro r m₁ ⟨tree₁, h₁, hdrawn, rfl⟩
  cases hp : tree₁ (leafPlace (vpn va)) with
  | none =>
    simp only [pteAddr, hp, Option.map_none]
    exact wp_pure ⟨tree₁, h₁⟩
  | some p =>
    simp only [pteAddr, hp, Option.map_some]
    refine wp_bind (load_wp ?_)
    have hempty : m₁.words p (index 0 (vpn va)) = 0 := by
      rw [h₁.entry (vpn_lt hva) hp, hnone]
      rfl
    simp only [hempty]
    rw [if_neg (by decide)]
    refine wp_bind (store_wp ?_)
    intro m₂ hset hrest htables _
    rw [if_pos trivial]
    refine wp_pure ⟨tree₁, ?_⟩
    have htables₁ : pa ∉ m₁.tables := by
      intro hmem
      cases hdrawn.tables pa hmem with
      | inl htables => exact hpa' htables
      | inr hsupply => exact hanswers hsupply
    simp only [Call.after, if_true]
    refine h₁.setEntry (vpn_lt hva) hp ?_ ?_ hrest htables
    · rintro e he
      rw [← Option.some.inj he]
      exact htables₁
    · rw [hset, UInt64.or_assoc]
      rfl

theorem kfree_wp {pa : UInt64} (haligned : pa.toNat % 4096 = 0) (hkend : Image.kend ≤ pa)
    (hphys : pa < PHYSTOP) {Q : Unit → Mem → Prop} {E : Panic → Prop}
    (h : ∀ m', (∀ q, q ≠ pa → m'.words q = m.words q) → m'.tables = m.tables → Q () m') :
    wp (kfree pa) m Q E := by
  have hmod : pa % PGSIZE = 0 := by
    apply UInt64.toNat_inj.mp
    rw [UInt64.toNat_mod, toNat_PGSIZE]
    exact haligned
  rw [kfree, if_neg (by simp [hmod, hkend, hphys])]
  exact memset_wp fun m' _ hrest htables _ => h m' hrest htables

theorem unmapLoop_wp (stop : UInt64) (doFree : Bool) (rounds : Nat) :
    ∀ {m : Mem} {pages : Pages} (n : Nat) (a : UInt64), Rep m root tree pages → a.toNat = 4096 * n →
      stop.toNat = 4096 * (n + rounds) →
      (∀ k, n ≤ k → k < n + rounds → ∃ e, pages k = some e ∧ e.flags ≠ PTE_V ∧
        (doFree → Image.kend ≤ e.pa ∧ e.pa < PHYSTOP)) →
      wp (unmapLoop root stop doFree rounds a) m
        (fun _ m' => Rep m' root tree fun k => if n ≤ k ∧ k < n + rounds then none else pages k)
        fun _ => False := by
  induction rounds with
  | zero =>
    intro m pages n a h _ _ _
    refine wp_pure ?_
    simpa [show ∀ k, ¬(n ≤ k ∧ k < n) from fun k => by omega] using h
  | succ rounds ih =>
    intro m pages n a h ha hstop hpages
    obtain ⟨e, he, hleaf, hfree⟩ := hpages n le_rfl (by omega)
    have hn := h.bound n e he
    have hvpn : vpn a = n := by
      rw [vpn, ha]
      omega
    have hva : a < MAXVA := by
      rw [UInt64.lt_iff_toNat_lt, ha, toNat_MAXVA]
      omega
    obtain ⟨p, hp⟩ := Option.ne_none_iff_exists'.mp (h.reach n e he)
    have hword : m.words p (index 0 n) = PA2PTE e.pa ||| e.flags := by
      rw [h.entry hn hp, he]
      rfl
    rw [unmapLoop, if_pos (by rw [UInt64.lt_iff_toNat_lt, ha, hstop]; omega)]
    refine wp_bind (walk_find h hva ?_)
    simp only [hvpn, pteAddr, hp, Option.map_some]
    refine wp_bind (load_wp ?_)
    simp only [hword]
    rw [if_neg (by rw [entry_and e.pa e.small (by decide)]; exact e.valid),
      if_neg (by rw [PTE_FLAGS_entry e.pa e.small]; exact hleaf), PTE2PA_entry e.aligned e.small]
    -- The rest of the round, once the page has been freed or not.
    have hround : ∀ m₁, Rep m₁ root tree pages → wp (do
        store (p, index 0 n) 0
        unmapLoop root stop doFree rounds (a + PGSIZE)) m₁
        (fun _ m' => Rep m' root tree fun k => if n ≤ k ∧ k < n + (rounds + 1) then none else pages k)
        fun _ => False := by
      intro m₁ h₁
      refine wp_bind (store_wp ?_)
      intro m₂ hset hrest htables _
      have h₂ : Rep m₂ root tree (update pages n none) :=
        h₁.setEntry hn hp (by simp) hset hrest htables
      have hnext : (a + PGSIZE).toNat = 4096 * (n + 1) := by
        rw [UInt64.toNat_add, ha, toNat_PGSIZE]
        omega
      refine (ih (n + 1) (a + PGSIZE) h₂ hnext (by rw [hstop]; omega) ?_).mono ?_ fun _ h => h
      · intro k hk hk'
        rw [update_of_ne (by omega)]
        exact hpages k (by omega) (by omega)
      · intro _ m' h'
        have heq : (fun k => if n + 1 ≤ k ∧ k < n + 1 + rounds then none
            else update pages n none k) =
            fun k => if n ≤ k ∧ k < n + (rounds + 1) then none else pages k := by
          funext k
          by_cases hk : k = n
          · subst hk
            rw [if_neg (by omega), if_pos (by omega), update_self]
          · rw [update_of_ne hk]
            by_cases hin : n + 1 ≤ k ∧ k < n + 1 + rounds
            · rw [if_pos hin, if_pos (by omega)]
            · rw [if_neg hin, if_neg (by omega)]
        rwa [heq] at h'
    cases doFree with
    | false => exact hround m h
    | true =>
      obtain ⟨hkend, hphys⟩ := hfree rfl
      rw [if_pos rfl]
      refine wp_bind (kfree_wp e.aligned hkend hphys ?_)
      intro m₁ hrest htables
      refine hround m₁ (h.of_tables htables ?_)
      intro page hpage
      refine hrest page ?_
      rintro rfl
      exact h.apart n e he hpage

theorem uvmunmap_wp (h : Rep m root tree pages) {va npages : UInt64} {doFree : Bool}
    (hallowed : (Call.uvmunmap va npages doFree).Allowed m pages) :
    wp ((Call.uvmunmap va npages doFree).run root) m
      (fun r m' => ∃ tree', Rep m' root tree' ((Call.uvmunmap va npages doFree).after pages r))
      fun _ => False := by
  obtain ⟨haligned, hpages⟩ := hallowed
  have hva : va.toNat = 4096 * vpn va := by
    rw [vpn]
    omega
  have hmod : va % PGSIZE = 0 := by
    apply UInt64.toNat_inj.mp
    rw [UInt64.toNat_mod, toNat_PGSIZE]
    exact haligned
  refine wp_bind ?_
  rw [uvmunmap, if_neg (by simp [hmod])]
  cases hn : npages.toNat with
  | zero =>
    refine wp_pure (wp_pure ⟨tree, ?_⟩)
    simpa [Call.after, hn, show ∀ k, ¬(vpn va ≤ k ∧ k < vpn va) from fun k => by omega] using h
  | succ k =>
    -- The last page is mapped, so that the end of the range does not wrap around.
    obtain ⟨e, he, _⟩ := hpages (vpn va + k) (by omega) (by omega)
    have hlast := h.bound _ e he
    have hstop : (va + npages * PGSIZE).toNat = 4096 * (vpn va + (k + 1)) := by
      rw [UInt64.toNat_add, UInt64.toNat_mul, hn, hva, toNat_PGSIZE]
      omega
    rw [hn] at hpages
    refine (unmapLoop_wp _ doFree (k + 1) (vpn va) va h hva hstop hpages).mono ?_ fun _ h => h
    intro _ m' h'
    refine wp_pure ⟨tree, ?_⟩
    simpa only [Call.after, hn] using h'

theorem uvmclear_wp (h : Rep m root tree pages) {va : UInt64}
    (hallowed : (Call.uvmclear va).Allowed m pages) :
    wp ((Call.uvmclear va).run root) m
      (fun r m' => ∃ tree', Rep m' root tree' ((Call.uvmclear va).after pages r)) fun _ => False := by
  obtain ⟨hva, hmapped⟩ := hallowed
  obtain ⟨e, he⟩ := Option.ne_none_iff_exists'.mp hmapped
  obtain ⟨p, hp⟩ := Option.ne_none_iff_exists'.mp (h.reach _ e he)
  refine wp_bind (wp_bind (walk_find h hva ?_))
  simp only [pteAddr, hp, Option.map_some]
  refine wp_bind (load_wp (store_wp ?_))
  intro m' hset hrest htables _
  refine wp_pure ⟨tree, h.setEntry (vpn_lt hva) hp ?_ ?_ hrest htables⟩
  · intro e' he'
    rw [he, Option.map_some] at he'
    rw [← Option.some.inj he']
    exact h.apart _ e he
  · rw [hset, h.entry (vpn_lt hva) hp, he]
    exact entry_clear e.pa e.flags

theorem Call.run_wp (h : Rep m root tree pages) (c : Call) (hallowed : c.Allowed m pages) :
    wp (c.run root) m (fun r m' => ∃ tree', Rep m' root tree' (c.after pages r)) fun _ => False := by
  cases c with
  | mappages va pa perm hpa hperm answers => exact mappages_wp h hallowed
  | uvmunmap va npages doFree => exact uvmunmap_wp h hallowed
  | uvmclear va => exact uvmclear_wp h hallowed

end Xv6Ringbuf.Sv39
