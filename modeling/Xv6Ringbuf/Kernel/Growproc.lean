import Xv6Ringbuf.Kernel.Uvmalloc
import Xv6Ringbuf.Kernel.System

namespace Xv6Ringbuf.Kernel

open Machine

-- The result of `growproc`, and `p->sz` afterwards. The request is extended to 64
-- bits with its sign before it is added.
def growproc [Image] (sz : UInt64) (n : Int32) : K (Int32 × UInt64) := do
  if 0 < n then do
    let sz' ← uvmalloc sz (sz + n.toInt64.toUInt64) ⟨false, true, false, false⟩
    if sz' = 0 then return (-1, sz)
    else return (0, sz')
  else if n < 0 then do
    let sz' ← uvmdealloc sz (sz + n.toInt64.toUInt64)
    return (0, sz')
  else return (0, sz)

-- A call of `growproc` as it should be: it returns 0 and the memory has exactly
-- the new size, or -1 and everything is as before. The pages of rings and of the
-- kernel lie above `KERNBASE`, the page `2 ^ 19`.
def GrowsExactly [Image] (s : State) (sz : UInt64) (n : Int32) : Prop :=
  ∃ r sz' s', (growproc sz n).run s = .ok ((r, sz'), s') ∧
    (r = 0 ∧ (sz'.toNat : Int) = sz.toNat + n.toInt ∧
        Resized (2 ^ 19) ⟨true, true, false, true⟩ s s' (pagesOf sz) (pagesOf sz') ∨
      r = -1 ∧ sz' = sz ∧ s'.pagetable.leaf = s.pagetable.leaf ∧
        ∀ pa, Held s.pagetable (pagesOf sz) pa → SamePage s s' pa)

theorem toNat_request (sz : UInt64) (n : Int32) :
    ((sz + n.toInt64.toUInt64).toNat : Int) = ((sz.toNat : Int) + n.toInt) % 2 ^ 64 := by
  have hextend := toNat_signExtend n
  have hsz := sz.toNat_lt
  rw [UInt64.toNat_add]
  omega

theorem pos_iff_toInt (n : Int32) : 0 < n ↔ 0 < n.toInt := by
  rw [Int32.lt_iff_toInt_lt, Int32.toInt_zero]

theorem neg_iff_toInt (n : Int32) : n < 0 ↔ n.toInt < 0 := by
  rw [Int32.lt_iff_toInt_lt, Int32.toInt_zero]

section Growproc

variable [Image] {s : State} {sz : UInt64} {n : Int32}

theorem Heap.size_le (h : Heap (2 ^ 19) s (pagesOf sz)) : sz.toNat ≤ 2 ^ 27 := by
  have hbound := h.bound (by decide)
  unfold pagesOf at hbound
  omega

theorem growsExactly_grow (h : Heap (2 ^ 19) s (pagesOf sz)) (hn : 0 < n.toInt) :
    GrowsExactly s sz n := by
  have hsize := h.size_le
  have hmax := n.toInt_lt
  have hsum := toNat_request sz n
  rw [Int.emod_eq_of_lt (by omega) (by omega)] at hsum
  have hle : sz ≤ sz + n.toInt64.toUInt64 := by
    rw [UInt64.le_iff_toNat_le]
    omega
  have hne : sz + n.toInt64.toUInt64 ≠ 0 := by
    intro hzero
    rw [hzero] at hsum
    rw [show (0 : UInt64).toNat = 0 by rfl] at hsum
    omega
  have hrun : wp (growproc sz n) s (fun r s' =>
      r.1 = 0 ∧ (r.2.toNat : Int) = sz.toNat + n.toInt ∧
        Resized (2 ^ 19) ⟨true, true, false, true⟩ s s' (pagesOf sz) (pagesOf r.2) ∨
      r.1 = -1 ∧ r.2 = sz ∧ s'.pagetable.leaf = s.pagetable.leaf ∧
        ∀ pa, Held s.pagetable (pagesOf sz) pa → SamePage s s' pa) fun _ => False := by
    unfold growproc
    rw [if_pos ((pos_iff_toInt n).mpr hn)]
    refine wp_call (uvmalloc_heap _ (by decide) (by decide) h h.aside_none hle) ?_
    rintro r s' (⟨rfl, hresized, _⟩ | ⟨rfl, hresized, _⟩)
    · rw [if_neg hne]
      exact .inl ⟨rfl, hsum, hresized⟩
    · rw [if_pos rfl]
      refine .inr ⟨rfl, rfl, hresized.leaf_eq h, ?_⟩
      rintro pa ⟨m, hm, pte, hpte, rfl⟩
      exact hresized.bytes m hm hm pte hpte
  obtain ⟨r, s', hok, hcases⟩ := hrun.returns
  exact ⟨r.1, r.2, s', hok, hcases⟩

theorem growsExactly_shrink (h : Heap (2 ^ 19) s (pagesOf sz)) (hn : n.toInt < 0)
    (hsz : 0 ≤ (sz.toNat : Int) + n.toInt) : GrowsExactly s sz n := by
  have hsize := h.size_le
  have hsum := toNat_request sz n
  rw [Int.emod_eq_of_lt hsz (by omega)] at hsum
  have hlt : sz + n.toInt64.toUInt64 < sz := by
    rw [UInt64.lt_iff_toNat_lt]
    omega
  have hrun : wp (growproc sz n) s (fun r s' => r = (0, sz + n.toInt64.toUInt64) ∧
      Resized (2 ^ 19) ⟨true, true, false, true⟩ s s' (pagesOf sz) (pagesOf r.2)) fun _ => False := by
    unfold growproc
    rw [if_neg ((pos_iff_toInt n).not.mpr (by omega)), if_pos ((neg_iff_toInt n).mpr hn)]
    apply wp_bind
    apply (uvmdealloc_heap (by decide) (by decide) h h.aside_none hlt).mono
    · rintro _ s' ⟨rfl, hresized, _⟩
      exact ⟨rfl, hresized⟩
    · exact fun _ h => h
  obtain ⟨r, s', hok, rfl, hresized⟩ := hrun.returns
  exact ⟨0, _, s', hok, .inl ⟨rfl, hsum, hresized⟩⟩

theorem growsExactly_zero (h : Heap (2 ^ 19) s (pagesOf sz)) (hn : n.toInt = 0) :
    GrowsExactly s sz n := by
  have hzero : n = 0 := Int32.toInt_inj.mp hn
  subst hzero
  exact ⟨0, sz, s, rfl, .inl ⟨rfl, (Int.add_zero _).symm, Resized.refl h⟩⟩

-- The size that is too small wraps around, so `uvmdealloc` finds nothing to do and
-- `growproc` reports success.
theorem growproc_below_zero
    (hsz : (sz.toNat : Int) + n.toInt < 0) : (growproc sz n).run s = .ok ((0, sz), s) := by
  have hmin := n.le_toInt
  have hsum := toNat_request sz n
  have hwrap : sz ≤ sz + n.toInt64.toUInt64 := by
    rw [UInt64.le_iff_toNat_le]
    omega
  unfold growproc
  rw [if_neg ((pos_iff_toInt n).not.mpr (by omega)), if_pos ((neg_iff_toInt n).mpr (by omega))]
  unfold uvmdealloc
  rw [if_pos hwrap]
  rfl

-- The new size is the old one plus `n` unless that sum is negative: the source adds in
-- 64 bits and has no test for it.
theorem growproc_exact_iff (h : Heap (2 ^ 19) s (pagesOf sz)) :
    GrowsExactly s sz n ↔ 0 ≤ (sz.toNat : Int) + n.toInt := by
  constructor
  · rintro ⟨r, sz', s', hrun, hcases⟩
    by_contra hneg
    rw [not_le] at hneg
    rw [growproc_below_zero hneg] at hrun
    cases hrun
    rcases hcases with ⟨_, hsize, _⟩ | ⟨hr, _⟩
    · omega
    · exact absurd hr (by decide)
  · intro hsz
    rcases lt_trichotomy 0 n.toInt with hpos | hzero | hneg
    · exact growsExactly_grow h hpos
    · exact growsExactly_zero h hzero.symm
    · exact growsExactly_shrink h hneg hsz

end Growproc

def onePageState : State :=
  ⟨(smallSys 5).freelist, fun _ => 0, onePage 0x87ffe000, fun _ => newRing [], [], none⟩

theorem onePageState_heap : @Heap smallImage (2 ^ 19) onePageState (pagesOf 4096) := by
  let _ := smallImage
  have hinit : Initial (smallSys 5) := smallSys_initial (by decide)
  have hleaf : ∀ m pte, onePageState.pagetable.leaf m = some pte →
      m = 0 ∧ pte = ⟨0x87ffe000, permRing⟩ := by
    intro m pte hpte
    have honly := leaf_onePage 0x87ffe000 m
    rw [show (onePage 0x87ffe000).leaf m = some pte from hpte] at honly
    by_cases hm : m = 0
    · rw [if_pos hm, Option.some.injEq] at honly
      exact ⟨hm, honly⟩
    · rw [if_neg hm] at honly
      cases honly
  rw [show pagesOf 4096 = 1 by decide]
  refine ⟨hinit.valid, hinit.nodup, ?_, ?_, ?_⟩
  · intro m _
    rw [show onePageState.pagetable.leaf m = _ from leaf_onePage 0x87ffe000 m]
    by_cases hm : m = 0
    · simp [hm]
    · simp [hm]
  · intro m _ pte hpte
    obtain ⟨_, rfl⟩ := hleaf m pte hpte
    exact ⟨⟨by decide, by decide, by decide⟩, by decide, hinit.mapped 1 m _ hpte⟩
  · intro m _ m' _ pte pte' hpte hpte' _
    rw [(hleaf m pte hpte).1, (hleaf m' pte' hpte').1]

theorem growproc_exact_two_pages : @GrowsExactly smallImage onePageState 4096 4097 := by
  let _ := smallImage
  exact (growproc_exact_iff onePageState_heap).mpr (by decide)

-- One page, and a request to shrink it by 4097 bytes: 0 is returned, nothing changes.
theorem growproc_accepts_size_below_zero :
    @Heap smallImage (2 ^ 19) onePageState (pagesOf 4096) ∧
      (@growproc smallImage 4096 (-4097)).run onePageState = .ok ((0, 4096), onePageState) ∧
      ¬@GrowsExactly smallImage onePageState 4096 (-4097) := by
  let _ := smallImage
  have hrun : (growproc 4096 (-4097)).run onePageState = .ok ((0, 4096), onePageState) :=
    growproc_below_zero (by decide)
  refine ⟨onePageState_heap, hrun, ?_⟩
  rintro ⟨r, sz', s', hrun', hcases⟩
  rw [hrun] at hrun'
  cases hrun'
  rcases hcases with ⟨_, hsize, _⟩ | ⟨hr, _⟩
  · exact absurd hsize (by decide)
  · exact absurd hr (by decide)

end Xv6Ringbuf.Kernel
