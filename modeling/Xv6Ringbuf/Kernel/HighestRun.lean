import Xv6Ringbuf.Kernel.Lookup

namespace Xv6Ringbuf.Kernel

open Machine

def pageAddr (m : Nat) : UInt64 := UInt64.ofNat (m * 4096)

def TOPPAGE : Nat := 2 ^ 26 - 3

-- The pages `w, ..., w + n - 1` lie above `KERNBASE`, reach at most to `TOP`, and are free.
structure FreeRun (pt : Pagetable) (n w : Nat) : Prop where
  above : KERNBASE < pageAddr w
  below : w + n ≤ TOPPAGE + 1
  free : ∀ m, w ≤ m → m < w + n → pt.walkaddr (pageAddr m) = 0

variable {m n count v : Nat} {pt : Pagetable} {base : UInt64}

theorem toNat_pageAddr (hm : m < 2 ^ 52) : (pageAddr m).toNat = 4096 * m := by
  rw [pageAddr, UInt64.toNat_ofNat_of_lt' (by rw [UInt64.size]; omega), Nat.mul_comm]

theorem pageAddr_TOPPAGE : pageAddr TOPPAGE = TOP := by rfl

theorem vacant_iff_walkaddr (pt : Pagetable) (hm : m < 2 ^ 26) :
    Vacant pt m ↔ pt.walkaddr (pageAddr m) = 0 := by
  have haddr := toNat_pageAddr (show m < 2 ^ 52 by omega)
  have hmax : pageAddr m < MAXVA := by
    rw [UInt64.lt_iff_toNat_lt, haddr, toNat_MAXVA]
    omega
  have hvpn : vpn (pageAddr m) = m := by
    unfold vpn
    omega
  rw [walkaddr_eq pt hmax, hvpn, Vacant]

theorem freeRun_iff (pt : Pagetable) {w : Nat} (hn : 1 ≤ n) :
    FreeRun pt n w ↔
      2 ^ 19 < w ∧ w + n ≤ TOPPAGE + 1 ∧ ∀ m, w ≤ m → m < w + n → Vacant pt m := by
  have habove : w + n ≤ TOPPAGE + 1 → (KERNBASE < pageAddr w ↔ 2 ^ 19 < w) := by
    intro hbelow
    rw [TOPPAGE] at hbelow
    rw [UInt64.lt_iff_toNat_lt, show KERNBASE.toNat = 4096 * 2 ^ 19 by rfl,
      toNat_pageAddr (show w < 2 ^ 52 by omega)]
    omega
  have hfree : w + n ≤ TOPPAGE + 1 → ∀ m, m < w + n →
      (Vacant pt m ↔ pt.walkaddr (pageAddr m) = 0) := by
    intro hbelow m hm
    rw [TOPPAGE] at hbelow
    exact vacant_iff_walkaddr pt (by omega)
  constructor
  · intro h
    refine ⟨(habove h.below).mp h.above, h.below, fun m hm hm' => ?_⟩
    exact (hfree h.below m hm').mpr (h.free m hm hm')
  · rintro ⟨hw, hbelow, hvacant⟩
    refine ⟨(habove hbelow).mpr hw, hbelow, fun m hm hm' => ?_⟩
    exact (hfree hbelow m hm').mp (hvacant m hm hm')

-- What the loop knows at page `v`: the `count` pages above `v` are vacant, the page above
-- those is mapped and its address is the base (or there is none up to `TOP`), and no run
-- starts above `v`.
structure Scanned (pt : Pagetable) (n : Nat) (base : UInt64) (count v : Nat) : Prop where
  few : count < n
  bound : v + count ≤ TOPPAGE
  vacant : ∀ m, v < m → m ≤ v + count → Vacant pt m
  base : base = pageAddr (min (v + count + 1) TOPPAGE)
  mapped : v + count < TOPPAGE → ¬Vacant pt (v + count + 1)
  higher : ∀ w, v < w → ¬FreeRun pt n w

theorem scanned_start (pt : Pagetable) (hn : 1 ≤ n) : Scanned pt n TOP 0 TOPPAGE := by
  refine ⟨hn, Nat.le_refl _, fun m hm hm' => by omega, ?_, fun h => absurd h (Nat.lt_irrefl _), ?_⟩
  · rw [Nat.min_eq_right (by omega), pageAddr_TOPPAGE]
  · intro w hw hrun
    have := hrun.below
    omega

theorem Scanned.free (h : Scanned pt n base count v) (hv : 0 < v) (hfree : Vacant pt v)
    (hmore : count + 1 ≠ n) :
    Scanned pt n base (count + 1) (v - 1) := by
  have hfew := h.few
  have hbound := h.bound
  have hsum : v - 1 + (count + 1) = v + count := by omega
  refine ⟨by omega, by omega, ?_, by rw [hsum]; exact h.base, by rw [hsum]; exact h.mapped, ?_⟩
  · intro m hm hm'
    by_cases heq : m = v
    · rw [heq]
      exact hfree
    · exact h.vacant m (by omega) (by omega)
  · intro w hw hrun
    by_cases heq : w = v
    · obtain ⟨_, hbelow, hvacant⟩ := (freeRun_iff pt (by omega)).mp hrun
      subst heq
      exact h.mapped (by omega) (hvacant (w + count + 1) (by omega) (by omega))
    · exact h.higher w (by omega) hrun

theorem Scanned.used (h : Scanned pt n base count v) (hv : 0 < v) (hused : ¬Vacant pt v) :
    Scanned pt n (pageAddr v) 0 (v - 1) := by
  have hfew := h.few
  have hbound := h.bound
  have hsum : v - 1 + 0 + 1 = v := by omega
  refine ⟨by omega, by omega, fun m hm hm' => by omega, ?_, fun _ => by rw [hsum]; exact hused, ?_⟩
  · rw [hsum, Nat.min_eq_left (by omega)]
  · intro w hw hrun
    by_cases heq : w = v
    · obtain ⟨_, _, hvacant⟩ := (freeRun_iff pt (by omega)).mp hrun
      exact hused (hvacant v (by omega) (by omega))
    · exact h.higher w (by omega) hrun

theorem Scanned.found (h : Scanned pt n base count v) (hv : 2 ^ 19 < v) (hfree : Vacant pt v)
    (hfull : count + 1 = n) :
    FreeRun pt n v := by
  have hbound := h.bound
  refine (freeRun_iff pt (by omega)).mpr ⟨hv, by omega, fun m hm hm' => ?_⟩
  by_cases heq : m = v
  · rw [heq]
    exact hfree
  · exact h.vacant m (by omega) (by omega)

-- The run at `w` is the highest one, and `base` is what the caller is told about it.
structure Highest (pt : Pagetable) (n : Nat) (base : UInt64) (w : Nat) : Prop where
  run : FreeRun pt n w
  highest : ∀ w', FreeRun pt n w' → w' ≤ w
  top : pageAddr (w + n - 1) = TOP → base = TOP
  mapped : pageAddr (w + n - 1) ≠ TOP → base = pageAddr (w + n) ∧ pt.walkaddr base ≠ 0

theorem Scanned.highest (h : Scanned pt n base count v) (hv : 2 ^ 19 < v) (hfree : Vacant pt v)
    (hfull : count + 1 = n) :
    Highest pt n base v := by
  have hbound := h.bound
  have hlast : pageAddr (v + n - 1) = TOP ↔ v + n - 1 = TOPPAGE := by
    rw [← pageAddr_TOPPAGE, ← UInt64.toNat_inj]
    rw [TOPPAGE] at hbound ⊢
    rw [toNat_pageAddr (by omega), toNat_pageAddr (by omega)]
    omega
  refine ⟨h.found hv hfree hfull, fun w hrun => ?_, fun htop => ?_, fun htop => ?_⟩
  · by_contra hlt
    exact h.higher w (by omega) hrun
  · have := hlast.mp htop
    rw [h.base, Nat.min_eq_right (by omega), pageAddr_TOPPAGE]
  · have hne := mt hlast.mpr htop
    have hbase : base = pageAddr (v + n) := by
      rw [h.base, Nat.min_eq_left (by omega), ← hfull, Nat.add_assoc]
    refine ⟨hbase, ?_⟩
    have hmapped := h.mapped (by omega)
    rw [TOPPAGE] at hbound
    rw [hbase, ← hfull, ← Nat.add_assoc]
    rwa [vacant_iff_walkaddr pt (by omega)] at hmapped

theorem findLoop_scanned {fuel : Nat} (h : Scanned pt n base count v) (hfuel : v ≤ fuel + 2 ^ 19) :
    match findLoop pt n fuel (pageAddr v) base count with
    | none => ∀ w, ¬FreeRun pt n w
    | some base' => ∃ w, Highest pt n base' w := by
  have hbound := h.bound
  induction fuel generalizing base count v with
  | zero =>
    intro w hrun
    obtain ⟨hw, _⟩ := (freeRun_iff pt (by have := h.few; omega)).mp hrun
    exact h.higher w (by omega) hrun
  | succ fuel ih =>
    have hva : (pageAddr v).toNat = 4096 * v := by
      rw [TOPPAGE] at hbound
      exact toNat_pageAddr (by omega)
    rcases findLoop_succ pt n fuel base count hva (by rw [TOPPAGE] at hbound; omega) with
      ⟨hnone, hle⟩ | ⟨hgt, hnext, ⟨hfree, hfull, hsome⟩ | ⟨hfree, hmore, hrec⟩ | ⟨hused, hrec⟩⟩
    · rw [hnone]
      intro w hrun
      obtain ⟨hw, _⟩ := (freeRun_iff pt (by have := h.few; omega)).mp hrun
      exact h.higher w (by omega) hrun
    · rw [hsome]
      exact ⟨v, h.highest hgt hfree hfull⟩
    all_goals
      have hstep : pageAddr v - PGSIZE = pageAddr (v - 1) := by
        rw [TOPPAGE] at hbound
        rw [← UInt64.toNat_inj, hnext, toNat_pageAddr (by omega)]
    · rw [hrec, hstep]
      have h' := h.free (by omega) hfree hmore
      exact ih h' (by omega) h'.bound
    · rw [hrec, hstep]
      have h' := h.used (by omega) hused
      exact ih h' (by omega) h'.bound

-- The search fails exactly if there is no run, and else finds the highest one.
theorem find_contiguous_pages_finds_highest (s : State) (n : Nat) (hn : 1 ≤ n) :
    ∃ found, findContiguousPages n s = .ok (found, s) ∧
      (found ≠ none ↔ ∃ w, FreeRun s.pagetable n w) ∧
      ∀ base, found = some base → ∃ w, Highest s.pagetable n base w := by
  have hfuel : TOPPAGE ≤ ((TOP - KERNBASE) / PGSIZE).toNat + 2 ^ 19 := by decide
  have hscan := findLoop_scanned (scanned_start s.pagetable hn) hfuel
  rw [pageAddr_TOPPAGE] at hscan
  refine ⟨_, rfl, ?_, ?_⟩
  · cases hfound : findLoop s.pagetable n ((TOP - KERNBASE) / PGSIZE).toNat TOP TOP 0 with
    | none =>
      rw [hfound] at hscan
      exact ⟨fun h => absurd rfl h, fun ⟨w, hrun⟩ => absurd hrun (hscan w)⟩
    | some base =>
      rw [hfound] at hscan
      obtain ⟨w, hw⟩ := hscan
      exact ⟨fun _ => ⟨w, hw.run⟩, fun _ => Option.some_ne_none _⟩
  · intro base hbase
    rw [hbase] at hscan
    exact hscan

-- Page `TOPPAGE - 9` is mapped, and nothing else.
def nearTop : State :=
  ⟨[], fun _ => 0, ⟨0, fun i => if i.val = 255 then some ⟨1, fun j => if j.val = 511 then
    some ⟨2, fun k => if k.val = 500 then some ⟨0x87f00000, permRing⟩ else none⟩ else none⟩ else none⟩,
    fun _ => ⟨0, [], fun _ => 0, 0⟩, [], none⟩

theorem find_contiguous_pages_finds_highest_near_top :
    findContiguousPages 34 nearTop = .ok (some (pageAddr (TOPPAGE - 9)), nearTop) ∧
      ∃ w, Highest nearTop.pagetable 34 (pageAddr (TOPPAGE - 9)) w := by
  obtain ⟨found, hfound, -, hhigh⟩ := find_contiguous_pages_finds_highest nearTop 34 (by decide)
  have hvalue : (findContiguousPages 34 nearTop).toOption.map Prod.fst =
      some (some (pageAddr (TOPPAGE - 9))) := by decide +kernel
  rw [hfound] at hvalue
  obtain rfl := Option.some.inj hvalue
  exact ⟨hfound, hhigh _ rfl⟩

end Xv6Ringbuf.Kernel
