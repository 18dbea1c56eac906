import Xv6Ringbuf.Kernel.Walk

namespace Xv6Ringbuf.Kernel

open Machine Function

structure ValidPage [Image] (pa : UInt64) : Prop where
  mod : pa % PGSIZE = 0
  kend_le : Image.kend ≤ pa
  lt : pa < PHYSTOP

variable {pa va : UInt64} {doFree : Bool} {s : State} {Q : Unit → State → Prop} {E : Panic → Prop}

theorem ValidPage.ne_zero [Image] (h : ValidPage pa) : pa ≠ 0 := by
  rintro rfl
  have hle := UInt64.le_trans Image.kernbase_le h.kend_le
  revert hle
  decide

theorem ValidPage.bounds [Image] (h : ValidPage pa) :
    0x80000000 ≤ pa.toNat ∧ pa.toNat + 4096 ≤ 0x88000000 := by
  have hmod := congrArg UInt64.toNat h.mod
  have hlow := UInt64.le_trans Image.kernbase_le h.kend_le
  have hhigh := h.lt
  rw [UInt64.toNat_mod, toNat_PGSIZE, show (0 : UInt64).toNat = 0 by rfl] at hmod
  rw [UInt64.le_iff_toNat_le, show KERNBASE.toNat = 0x80000000 by rfl] at hlow
  rw [UInt64.lt_iff_toNat_lt, show PHYSTOP.toNat = 0x88000000 by rfl] at hhigh
  omega

theorem kfree_wp [Image] (pa : UInt64) (s : State) :
    wp (kfree pa) s (fun _ s' => ValidPage pa ∧ Frame s s' ∧ s'.pagetable = s.pagetable ∧
      s'.freelist = pa :: s.freelist) (fun e => ¬ValidPage pa ∧ e ≠ .mappagesRemap) := by
  unfold kfree
  split
  · rename_i hbad
    refine wp_throw ⟨fun hvalid => ?_, by decide⟩
    rcases hbad with h | h | h
    · exact h hvalid.mod
    · exact absurd hvalid.kend_le (UInt64.not_le.mpr h)
    · exact absurd hvalid.lt (UInt64.not_lt.mpr h)
  · rename_i hgood
    rw [not_or, not_or, not_not, UInt64.not_lt, UInt64.not_le] at hgood
    exact ⟨⟨hgood.1, hgood.2.1, hgood.2.2⟩, ⟨rfl, rfl, rfl⟩, rfl, rfl⟩

def Removable [Image] (doFree : Bool) (x : Option Pte) : Prop :=
  ∃ pte, x = some pte ∧ pte.perm ≠ ⟨false, false, false, false⟩ ∧ (doFree → ValidPage pte.pa)

-- The entries of `count` pages from `n` on have been removed.
structure Unmapped (doFree : Bool) (s s' : State) (n count : Nat) : Prop where
  frame : Frame s s'
  leaf : s'.pagetable.leaf = fun m => if n ≤ m ∧ m < n + count then none else s.pagetable.leaf m
  free : doFree = false → s'.freelist = s.freelist ∧ s'.mem = s.mem

theorem Unmapped.zero (doFree : Bool) (s : State) (n : Nat) : Unmapped doFree s s n 0 := by
  refine ⟨Frame.refl s, ?_, fun _ => ⟨rfl, rfl⟩⟩
  funext m
  rw [if_neg (by omega)]

theorem removable_of_eq [Image] {x : Option Pte} (h : x = none) :
    ¬Removable doFree x := by
  rintro ⟨pte, hpte, _⟩
  rw [h] at hpte
  cases hpte

structure Removed (doFree : Bool) (s s' : State) (n : Nat) : Prop where
  frame : Frame s s'
  leaf : s'.pagetable.leaf = Function.update s.pagetable.leaf n none
  free : doFree = false → s'.freelist = s.freelist ∧ s'.mem = s.mem

theorem Removed.unmapped {s' s'' : State} {n count : Nat} (h : Removed doFree s s' n)
    (h' : Unmapped doFree s' s'' (n + 1) count) :
    Unmapped doFree s s'' n (count + 1) := by
  refine ⟨h.frame.trans h'.frame, ?_, ?_⟩
  · rw [h'.leaf, h.leaf]
    funext m
    by_cases hm : m = n
    · rw [hm, update_self, ite_self, if_pos (by omega)]
    · rw [update_of_ne hm]
      by_cases hrange : n + 1 ≤ m ∧ m < n + 1 + count
      · rw [if_pos hrange, if_pos (by omega)]
      · rw [if_neg hrange, if_neg (by omega)]
  · intro hfree
    obtain ⟨hlist, hmem⟩ := h.free hfree
    obtain ⟨hlist', hmem'⟩ := h'.free hfree
    exact ⟨hlist'.trans hlist, hmem'.trans hmem⟩

theorem remove_wp [Image] (doFree : Bool) {a : UInt64} {pte : Pte}
    (hleaf : s.pagetable.leaf (vpn a) = some pte) {next : K Unit}
    (hnext : (doFree → ValidPage pte.pa) → ∀ s', Removed doFree s s' (vpn a) → wp next s' Q E)
    (hbad : ¬(doFree → ValidPage pte.pa) → ∀ e ≠ .mappagesRemap, E e) :
    wp (do if doFree then kfree pte.pa
           setPte a none
           next) s Q E := by
  have hpresent : s.pagetable.missing (vpn a) = 0 := missing_of_leaf (by simp [hleaf])
  have hlt : vpn a < 2 ^ 26 := lt_of_leaf (by rw [hleaf]; simp)
  cases doFree with
  | false =>
    apply wp_modify_bind
    exact hnext (by simp) _ ⟨⟨rfl, rfl, rfl⟩, leaf_setPte _ hpresent hlt, fun _ => ⟨rfl, rfl⟩⟩
  | true =>
    apply wp_bind
    apply (kfree_wp pte.pa s).mono
    · rintro _ s' ⟨hvalid, hframe, hpt, _⟩
      apply wp_modify_bind
      refine hnext (fun _ => hvalid) _ ⟨hframe.trans ⟨rfl, rfl, rfl⟩, ?_, by simp⟩
      rw [hpt, leaf_setPte _ hpresent hlt]
    · rintro e ⟨hvalid, he⟩
      exact hbad (fun h => hvalid (h rfl)) e he

theorem unmapLoop_wp [Image] (doFree : Bool) (stop : UInt64) (rounds : Nat) (a : UInt64)
    (hmod : a.toNat % 4096 = 0) (hstop : stop.toNat = a.toNat + 4096 * rounds)
    (hbound : stop.toNat ≤ 274877906944) (s : State) :
    wp (unmapLoop stop doFree rounds a) s
      (fun _ s' => (∀ m, vpn a ≤ m → m < vpn a + rounds → Removable doFree (s.pagetable.leaf m)) ∧
        Unmapped doFree s s' (vpn a) rounds)
      (fun e => (∃ m, vpn a ≤ m ∧ m < vpn a + rounds ∧ ¬Removable doFree (s.pagetable.leaf m)) ∧
        e ≠ .mappagesRemap) := by
  induction rounds generalizing a s with
  | zero => exact ⟨fun m _ _ => by omega, Unmapped.zero doFree s _⟩
  | succ rounds ih =>
    have hlt : a < stop := by
      rw [UInt64.lt_iff_toNat_lt]
      omega
    have hmax : a < MAXVA := by
      rw [UInt64.lt_iff_toNat_lt, toNat_MAXVA]
      omega
    have hnext : (a + PGSIZE).toNat = a.toNat + 4096 := by
      rw [UInt64.toNat_add, toNat_PGSIZE]
      omega
    have hvpn : vpn (a + PGSIZE) = vpn a + 1 := by
      unfold vpn
      omega
    have hbad : ¬Removable doFree (s.pagetable.leaf (vpn a)) →
        ∃ m, vpn a ≤ m ∧ m < vpn a + (rounds + 1) ∧ ¬Removable doFree (s.pagetable.leaf m) :=
      fun h => ⟨vpn a, Nat.le_refl _, by omega, h⟩
    rw [unmapLoop, if_pos hlt]
    apply wp_bind
    apply walk_wp hmax
    by_cases hmissing : s.pagetable.missing (vpn a) = 0
    · rw [slot_eq_leaf (vpn_lt hmax) hmissing]
      cases hleaf : s.pagetable.leaf (vpn a) with
      | none => exact wp_throw ⟨hbad (removable_of_eq hleaf), by decide⟩
      | some pte =>
        simp only
        split
        · rename_i hperm
          refine wp_throw ⟨hbad ?_, by decide⟩
          rintro ⟨pte', hpte', hperm', _⟩
          rw [hleaf] at hpte'
          exact hperm' (Option.some.inj hpte' ▸ hperm)
        · rename_i hperm
          apply remove_wp doFree hleaf
          · intro hvalid s' hremoved
            apply (ih (a + PGSIZE) (by omega) (by omega) s').mono
            · rintro _ s'' ⟨hall, hunmapped⟩
              rw [hvpn] at hall hunmapped
              refine ⟨?_, hremoved.unmapped hunmapped⟩
              intro m hm hm'
              by_cases heq : m = vpn a
              · rw [heq]
                exact ⟨pte, hleaf, hperm, hvalid⟩
              · have h := hall m (by omega) (by omega)
                rwa [hremoved.leaf, update_of_ne heq] at h
            · rintro e ⟨⟨m, hm, hm', h⟩, he⟩
              rw [hvpn] at hm hm'
              rw [hremoved.leaf, update_of_ne (by omega)] at h
              exact ⟨⟨m, by omega, by omega, h⟩, he⟩
          · refine fun hvalid e he => ⟨hbad ?_, he⟩
            rintro ⟨pte', hpte', _, hvalid'⟩
            rw [hleaf] at hpte'
            exact hvalid (Option.some.inj hpte' ▸ hvalid')
    · rw [slot_eq_none hmissing]
      exact wp_throw ⟨hbad (removable_of_eq (leaf_of_missing hmissing)), by decide⟩

-- What each round keeps if it gets past the checks, the loop keeps.
theorem unmapLoop_rule [Image] {I : Nat → UInt64 → State → Prop} (stop : UInt64)
    (hround : ∀ rounds a s pte, a < MAXVA → I (rounds + 1) a s → s.pagetable.missing (vpn a) = 0 →
      s.pagetable.leaf (vpn a) = some pte → wp (kfree pte.pa) s (fun _ s' =>
        I rounds (a + PGSIZE) { s' with pagetable := s'.pagetable.setPte a none }) fun _ => True)
    {rounds : Nat} {a : UInt64} (h : I rounds a s) :
    wp (unmapLoop stop true rounds a) s (fun _ s' => ∃ rounds' a', I rounds' a' s') fun _ => True := by
  induction rounds generalizing a s with
  | zero => exact ⟨0, a, h⟩
  | succ rounds ih =>
    rw [unmapLoop]
    by_cases hlt : a < stop
    · rw [if_pos hlt]
      apply wp_bind
      by_cases hmax : a < MAXVA
      · apply walk_wp hmax
        by_cases hmissing : s.pagetable.missing (vpn a) = 0
        · rw [slot_eq_leaf (vpn_lt hmax) hmissing]
          cases hleaf : s.pagetable.leaf (vpn a) with
          | none => exact wp_throw trivial
          | some pte =>
            simp only
            split
            · exact wp_throw trivial
            · refine wp_call (hround rounds a s pte hmax h hmissing hleaf) ?_
              intro _ s' h'
              exact wp_bind (wp_modify (ih h'))
        · rw [slot_eq_none hmissing]
          exact wp_throw trivial
      · unfold walk
        rw [if_pos (UInt64.not_lt.mp hmax)]
        exact wp_throw trivial
    · rw [if_neg hlt]
      exact ⟨rounds + 1, a, h⟩

theorem uvmunmap_wp [Image] (doFree : Bool) (va : UInt64) (count : Nat)
    (hmod : va.toNat % 4096 = 0) (hbound : va.toNat + 4096 * count ≤ 274877906944) (s : State) :
    wp (uvmunmap va (UInt64.ofNat count) doFree) s
      (fun _ s' => (∀ m, vpn va ≤ m → m < vpn va + count → Removable doFree (s.pagetable.leaf m)) ∧
        Unmapped doFree s s' (vpn va) count)
      (fun e => (∃ m, vpn va ≤ m ∧ m < vpn va + count ∧ ¬Removable doFree (s.pagetable.leaf m)) ∧
        e ≠ .mappagesRemap) := by
  have hcount : (UInt64.ofNat count).toNat = count := by
    rw [UInt64.toNat_ofNat']
    omega
  have hstop : (va + UInt64.ofNat count * PGSIZE).toNat = va.toNat + 4096 * count := by
    rw [UInt64.toNat_add, UInt64.toNat_mul, hcount, toNat_PGSIZE]
    omega
  have halign : va % PGSIZE = 0 := by
    apply UInt64.toNat_inj.mp
    rw [UInt64.toNat_mod]
    exact hmod
  unfold uvmunmap
  rw [if_neg (not_not.mpr halign), hcount]
  exact unmapLoop_wp doFree _ count va hmod hstop (by omega) s

theorem uvmunmap_misaligned [Image] (doFree : Bool) {npages : UInt64} (hmod : va.toNat % 4096 ≠ 0)
    (h : E .uvmunmapNotAligned) : wp (uvmunmap va npages doFree) s Q E := by
  unfold uvmunmap
  rw [if_pos]
  · exact wp_throw h
  · intro heq
    apply hmod
    have hnat := congrArg UInt64.toNat heq
    rwa [UInt64.toNat_mod] at hnat

-- The clean-up after a failed allocation unmaps everything below the new pages,
-- and so panics at the first page that is not mapped.
theorem uvmdealloc_panics [Image] (hva : Aligned va) {hole : Nat} (hpos : 0 < hole)
    (hlt : hole < vpn va) (hhole : s.pagetable.leaf hole = none) {Q : UInt64 → State → Prop} :
    wp (uvmdealloc va PGSIZE) s Q (· ≠ .mappagesRemap) := by
  have hmod := hva.mod
  have hmax := hva.toNat_lt
  have hup : PGROUNDUP va = va := hva.roundDown_last
  have hpage : PGROUNDUP PGSIZE = PGSIZE := by decide
  have hvpn : 4096 * vpn va = va.toNat := by
    unfold vpn
    omega
  have hold : ¬va ≤ PGSIZE := by
    rw [UInt64.le_iff_toNat_le, toNat_PGSIZE]
    omega
  have hnpages : (va - PGSIZE) / PGSIZE = UInt64.ofNat (vpn va - 1) := by
    apply UInt64.toNat_inj.mp
    rw [UInt64.toNat_div, UInt64.toNat_sub_of_le _ _ (UInt64.le_of_lt (UInt64.not_le.mp hold)),
      UInt64.toNat_ofNat', toNat_PGSIZE]
    omega
  unfold uvmdealloc
  rw [if_neg hold, hup, hpage, if_pos (UInt64.not_le.mp hold), hnpages]
  apply wp_bind
  have hunmap := uvmunmap_wp true PGSIZE (vpn va - 1) (by decide)
    (by rw [toNat_PGSIZE]; omega) s
  apply hunmap.mono _ (fun _ h => h.2)
  rintro _ s' ⟨hall, _⟩
  rw [show vpn PGSIZE = 1 by rfl] at hall
  exact absurd (hall hole (by omega) (by omega)) (removable_of_eq hhole)

end Xv6Ringbuf.Kernel
