import Xv6Ringbuf.Kernel.System
import Xv6Ringbuf.Kernel.UserCopy

namespace Xv6Ringbuf.Kernel

open Machine

theorem copyPage_null (n : Nat) (p : UInt64) (s : State) :
    wp (copyPage n p) s (fun result _ => result.2 = true ↔ 0 ∈ result.1) fun _ => True := by
  induction n generalizing p s with
  | zero =>
    show false = true ↔ 0 ∈ []
    simp
  | succ n ih =>
    rw [copyPage]
    apply wp_bind
    rw [loadByte]
    by_cases hram : p < KERNBASE ∨ PHYSTOP ≤ p
    · rw [if_pos hram]
      exact wp_throw trivial
    · rw [if_neg hram]
      apply wp_modify_bind
      apply wp_get_bind
      apply wp_pure
      by_cases hbyte : s.mem p = 0
      · rw [if_pos hbyte]
        show true = true ↔ 0 ∈ [0]
        simp
      · rw [if_neg hbyte]
        refine wp_call (ih (p + 1) _) ?_
        rintro ⟨rest, gotNull⟩ s' hnull
        show gotNull = true ↔ 0 ∈ s.mem p :: rest
        rw [List.mem_cons, or_iff_right (Ne.symm hbyte)]
        exact hnull

theorem copyinstrLoop_result (fuel : Nat) (srcva : UInt64) (max : Nat) (s : State) :
    wp (copyinstrLoop fuel srcva max) s
      (fun result _ => result.2 = if 0 ∈ result.1 then 0 else -1) fun _ => True := by
  induction fuel generalizing srcva max s with
  | zero => exact rfl
  | succ fuel ih =>
    rw [copyinstrLoop]
    by_cases hmax : max = 0
    · rw [if_pos hmax]
      exact rfl
    · rw [if_neg hmax]
      apply wp_bind
      apply walkaddr_wp
      by_cases hwalk : s.pagetable.walkaddr (PGROUNDDOWN srcva) = 0
      · rw [if_pos hwalk]
        exact rfl
      · rw [if_neg hwalk]
        simp only [toNat_room]
        generalize min (4096 - srcva.toNat % 4096) max = n
        refine wp_call (copyPage_null n _ s) ?_
        rintro ⟨bytes, gotNull⟩ s₁ hnull
        by_cases hgot : gotNull = true
        · have hmem : 0 ∈ bytes := hnull.mp hgot
          simp only [hgot, if_true]
          exact (if_pos hmem).symm
        · have hmem : 0 ∉ bytes := mt hnull.mpr hgot
          simp only [hgot, Bool.false_eq_true, if_false]
          refine wp_call (ih _ _ s₁) ?_
          rintro ⟨rest, result⟩ s₂ hresult
          have hresult' : result = if 0 ∈ rest then 0 else -1 := hresult
          show result = if 0 ∈ bytes ++ rest then 0 else -1
          rw [hresult']
          simp only [List.mem_append, hmem, false_or]

section Fetch

variable {pt : Pagetable} {mem : UInt64 → UInt8}

-- The first NUL of the user's string, at most `max` bytes away.
structure FirstNul (pt : Pagetable) (mem : UInt64 → UInt8) (a max k : Nat) : Prop where
  lt : k < max
  accessible : Accessible pt a (k + 1)
  zero : pt.getByte mem (a + k) = 0
  others : ∀ j < k, pt.getByte mem (a + j) ≠ 0

theorem Accessible.head {a len : Nat} (h : Accessible pt a (len + 1)) : pt.user (a / 4096) ≠ none :=
  h 0 (Nat.succ_pos len)

theorem accessible_succ {a len : Nat} :
    Accessible pt a (len + 1) ↔ pt.user (a / 4096) ≠ none ∧ Accessible pt (a + 1) len := by
  constructor
  · intro h
    refine ⟨h.head, fun i hi => ?_⟩
    have hi' := h (i + 1) (by omega)
    rwa [Nat.add_comm i 1, ← Nat.add_assoc] at hi'
  · rintro ⟨hhead, htail⟩ i hi
    cases i with
    | zero => exact hhead
    | succ i =>
      have hi' := htail i (by omega)
      rwa [Nat.add_assoc, Nat.add_comm 1 i] at hi'

theorem firstNul_succ {a max k : Nat} (haccess : pt.user (a / 4096) ≠ none)
    (hbyte : pt.getByte mem a ≠ 0) :
    FirstNul pt mem a (max + 1) (k + 1) ↔ FirstNul pt mem (a + 1) max k := by
  have hadd : ∀ j, a + (j + 1) = a + 1 + j := fun j => by omega
  constructor
  · intro h
    refine ⟨Nat.lt_of_succ_lt_succ h.lt, (accessible_succ.mp h.accessible).2, ?_, ?_⟩
    · rw [← hadd]
      exact h.zero
    · intro j hj
      rw [← hadd]
      exact h.others (j + 1) (Nat.succ_lt_succ hj)
  · intro h
    refine ⟨Nat.succ_lt_succ h.lt, accessible_succ.mpr ⟨haccess, h.accessible⟩, ?_, ?_⟩
    · rw [hadd]
      exact h.zero
    · intro j hj
      cases j with
      | zero => exact hbyte
      | succ j =>
        rw [hadd]
        exact h.others j (Nat.lt_of_succ_lt_succ hj)

theorem fetch_spec [Image] (hpages : UserPages pt) (mem : UInt64 → UInt8) (max : Nat) (a : UInt64) :
    (∀ k, FirstNul pt mem a.toNat max k → pt.fetch mem max a = pt.getBytes mem a.toNat (k + 1)) ∧
      (0 ∈ pt.fetch mem max a → ∃ k, FirstNul pt mem a.toNat max k) := by
  induction max generalizing a with
  | zero =>
    refine ⟨fun k h => absurd h.lt (Nat.not_lt_zero k), fun h => ?_⟩
    exact absurd h List.not_mem_nil
  | succ max ih =>
    rw [Pagetable.fetch]
    by_cases hwalk : pt.walkaddr a = 0
    · have hnone : ¬pt.user (a.toNat / 4096) ≠ none := fun h =>
        (walkaddr_ne_zero_iff hpages).mpr h hwalk
      rw [if_pos hwalk]
      exact ⟨fun k h => absurd h.accessible.head hnone, fun h => absurd h List.not_mem_nil⟩
    · have huser := (walkaddr_ne_zero_iff hpages).mp hwalk
      have hpage := lt_of_user huser
      have hnext : (a + 1).toNat = a.toNat + 1 := by
        rw [UInt64.toNat_add, show (1 : UInt64).toNat = 1 by rfl]
        omega
      have haddr : pt.walkaddr a + a % 4096 = pt.byteAddr a.toNat := by
        rw [Pagetable.byteAddr, walkaddr_eq_user hwalk]
        congr 1
        apply UInt64.toNat_inj.mp
        rw [UInt64.toNat_mod, UInt64.toNat_ofNat', show (4096 : UInt64).toNat = 4096 by rfl]
        omega
      have hbyte : mem (pt.walkaddr a + a % 4096) = pt.getByte mem a.toNat := by rw [haddr]; rfl
      rw [if_neg hwalk, hbyte]
      by_cases hzero : pt.getByte mem a.toNat = 0
      · rw [if_pos hzero]
        constructor
        · intro k h
          cases k with
          | zero =>
            rw [getBytes_succ, hzero]
            rfl
          | succ k => exact absurd hzero (h.others 0 (Nat.succ_pos k))
        · intro _
          refine ⟨0, Nat.succ_pos max, ?_, hzero, fun j hj => absurd hj (Nat.not_lt_zero j)⟩
          exact accessible_succ.mpr ⟨huser, fun i hi => absurd hi (Nat.not_lt_zero i)⟩
      · rw [if_neg hzero]
        obtain ⟨hfetch, hmem⟩ := ih (a + 1)
        rw [hnext] at hfetch hmem
        constructor
        · intro k h
          cases k with
          | zero => exact absurd h.zero hzero
          | succ k => rw [hfetch k ((firstNul_succ huser hzero).mp h), getBytes_succ pt mem a.toNat]
        · intro h
          rcases List.mem_cons.mp h with heq | h
          · exact absurd heq.symm hzero
          · obtain ⟨k, hk⟩ := hmem h
            exact ⟨k + 1, (firstNul_succ huser hzero).mpr hk⟩

end Fetch

-- What each of the three routines does, in terms of the bytes of the user's memory. The
-- history of the kernel's reads is all that `copyin` and `copyinstr` change.
structure Bytewise (s : State) (va : UInt64) : Prop where
  copyout : ∀ src, ∃ r s', (copyout va src).run s = .ok (r, s') ∧
    (r = 0 ↔ Accessible s.pagetable va.toNat src.length) ∧ (r ≠ 0 → r = -1) ∧
    (r = 0 → s' = { s with mem := s.pagetable.putBytes va.toNat src s.mem })
  copyin : ∀ len, ∃ bytes r reads, (copyin va len).run s = .ok ((bytes, r), { s with reads := reads }) ∧
    (r = 0 ↔ Accessible s.pagetable va.toNat len) ∧ (r ≠ 0 → r = -1) ∧
    (r = 0 → bytes = s.pagetable.getBytes s.mem va.toNat len)
  copyinstr : ∀ max, ∃ bytes r reads,
    (copyinstr va max).run s = .ok ((bytes, r), { s with reads := reads }) ∧
    (r = 0 ↔ ∃ k, FirstNul s.pagetable s.mem va.toNat max k) ∧ (r ≠ 0 → r = -1) ∧
    ∀ k, FirstNul s.pagetable s.mem va.toNat max k → bytes = s.pagetable.getBytes s.mem va.toNat (k + 1)

theorem result_cases {P : Prop} [Decidable P] {r : Int32} (h : r = if P then 0 else -1) :
    (r = 0 ↔ P) ∧ (r ≠ 0 → r = -1) := by
  by_cases hP : P
  · rw [if_pos hP] at h
    exact ⟨⟨fun _ => hP, fun _ => h⟩, fun hne => absurd h hne⟩
  · rw [if_neg hP] at h
    refine ⟨⟨fun hzero => ?_, fun hp => absurd hp hP⟩, fun _ => h⟩
    rw [h] at hzero
    exact absurd hzero (by decide)

-- The three loops go page by page, with a first and a last page that are cut. None of
-- that is seen from outside: each is the copy of one byte after the other.
theorem user_copies_are_bytewise [Image] (s : State) (va : UInt64) (hpages : UserPages s.pagetable) :
    Bytewise s va where
  copyout src := by
    obtain ⟨r, s', hrun, _, _, _, hr⟩ := (copyout_wp va src s).returns
    have hbytes := (copyoutLoop_bytes _ va src (Nat.lt_succ_self _) s).ok hrun
    obtain ⟨hiff, hcases⟩ := result_cases hr
    exact ⟨r, s', hrun, hiff.trans (cellMapped_iff hpages _), hcases, hbytes⟩
  copyin len := by
    have hwp := copyinLoop_wp (len + 1) va len (Nat.lt_succ_self len) s hpages
    obtain ⟨⟨bytes, r⟩, s', hrun, ⟨rs, rfl, _⟩, k, hcopied⟩ := hwp.returns
    refine ⟨bytes, r, _, hrun, hcopied.accessible_iff, hcopied.failed, fun hzero => ?_⟩
    rw [show bytes = _ from hcopied.bytes, hcopied.zero_iff.mp hzero]
  copyinstr max := by
    obtain ⟨⟨bytes, r⟩, s', hrun, hfetch, rs, rfl, _⟩ := (copyinstr_wp va max s hpages).returns
    have hr := (copyinstrLoop_result _ va max s).ok hrun
    obtain ⟨hiff, hcases⟩ := result_cases hr
    obtain ⟨hfirst, hmem⟩ := fetch_spec hpages s.mem max va
    have hbytes : bytes = s.pagetable.fetch s.mem max va := hfetch
    refine ⟨bytes, r, _, hrun, hiff.trans ?_, hcases, fun k hk => by rw [hbytes, hfirst k hk]⟩
    show 0 ∈ bytes ↔ _
    rw [hbytes]
    refine ⟨hmem, fun ⟨k, hk⟩ => ?_⟩
    rw [hfirst k hk, ← hk.zero]
    exact List.mem_map_of_mem (List.mem_range.mpr (Nat.lt_succ_self k))

def oneUserPage : State :=
  ⟨[], fun _ => 0, onePage 0x87ffe000, fun _ => newRing [], [], none⟩

theorem oneUserPage_user {n : Nat} : oneUserPage.pagetable.user n ≠ none ↔ n = 0 := by
  unfold Pagetable.user
  rw [show oneUserPage.pagetable = onePage 0x87ffe000 from rfl, leaf_onePage]
  by_cases hn : n = 0
  · simp [hn, permRing]
  · simp [hn]

theorem oneUserPage_pages : @UserPages smallImage oneUserPage.pagetable := by
  let _ := smallImage
  intro n pte hleaf _
  rw [show oneUserPage.pagetable = onePage 0x87ffe000 from rfl, leaf_onePage] at hleaf
  by_cases hn : n = 0
  · rw [if_pos hn] at hleaf
    cases hleaf
    exact ⟨by decide, by decide, by decide⟩
  · rw [if_neg hn] at hleaf
    cases hleaf

theorem user_copies_are_bytewise_at_end_of_page : Bytewise oneUserPage 4094 ∧
    (∃ s', (copyout 4094 [1, 2]).run oneUserPage = .ok (0, s')) ∧
    ∃ s', (copyout 4094 [1, 2, 3]).run oneUserPage = .ok (-1, s') := by
  have hcopies := @user_copies_are_bytewise smallImage oneUserPage 4094 oneUserPage_pages
  refine ⟨hcopies, ?_, ?_⟩
  · obtain ⟨r, s', hrun, hiff, _⟩ := hcopies.copyout [1, 2]
    have hzero : r = 0 := hiff.mpr fun i hi => oneUserPage_user.mpr (by
      rw [show (4094 : UInt64).toNat = 4094 by rfl]
      simp only [List.length_cons, List.length_nil] at hi
      omega)
    exact ⟨s', hzero ▸ hrun⟩
  · obtain ⟨r, s', hrun, hiff, hfail, _⟩ := hcopies.copyout [1, 2, 3]
    have hne : r ≠ 0 := fun hzero => absurd (oneUserPage_user.mp (hiff.mp hzero 2 (by decide))) (by decide)
    exact ⟨s', hfail hne ▸ hrun⟩

end Xv6Ringbuf.Kernel
