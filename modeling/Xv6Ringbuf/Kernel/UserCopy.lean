import Xv6Ringbuf.Kernel.Copyinstr

namespace Xv6Ringbuf.Kernel

open Machine Function

def loadBytes : Nat → UInt64 → K (List UInt8)
  | 0, _ => return []
  | n + 1, p => do
      let byte ← loadByte p
      let rest ← loadBytes n (p + 1)
      return byte :: rest

-- Each round copies at least one byte.
def copyinLoop : Nat → UInt64 → Nat → K (List UInt8 × Int32)
  | 0, _, _ => return ([], 0)
  | fuel + 1, srcva, len =>
    if len = 0 then return ([], 0)
    else do
      let va0 := PGROUNDDOWN srcva
      let pa0 ← walkaddr va0
      if pa0 = 0 then return ([], -1)
      else do
        let n := min (PGSIZE - (srcva - va0)).toNat len
        let bytes ← loadBytes n (pa0 + (srcva - va0))
        let (rest, result) ← copyinLoop fuel (va0 + PGSIZE) (len - n)
        return (bytes ++ rest, result)

-- The bytes that are stored to `dst` from its start on, and the result.
def copyin (srcva : UInt64) (len : Nat) : K (List UInt8 × Int32) :=
  copyinLoop (len + 1) srcva len

-- The user's memory, byte by byte. Addresses are numbers here: they do not wrap.
def Pagetable.byteAddr (pt : Pagetable) (a : Nat) : UInt64 :=
  (pt.user (a / 4096)).getD 0 + UInt64.ofNat (a % 4096)

def Pagetable.getByte (pt : Pagetable) (mem : UInt64 → UInt8) (a : Nat) : UInt8 := mem (pt.byteAddr a)

def Pagetable.getBytes (pt : Pagetable) (mem : UInt64 → UInt8) (a len : Nat) : List UInt8 :=
  (List.range len).map fun i => pt.getByte mem (a + i)

def Pagetable.putBytes (pt : Pagetable) : Nat → List UInt8 → (UInt64 → UInt8) → UInt64 → UInt8
  | _, [], mem => mem
  | a, byte :: src, mem => pt.putBytes (a + 1) src (update mem (pt.byteAddr a) byte)

-- Every byte of the range is in a page that the user may access. No page is mapped at or
-- beyond `MAXVA`.
def Accessible (pt : Pagetable) (a len : Nat) : Prop := ∀ i < len, pt.user ((a + i) / 4096) ≠ none

def UserPages [Image] (pt : Pagetable) : Prop :=
  ∀ n pte, pt.leaf n = some pte → pte.perm.u = true → ValidPage pte.pa

section Translation

variable {pt : Pagetable} {a : UInt64}

theorem user_eq_some {n : Nat} (h : pt.user n ≠ none) :
    ∃ pte, pt.leaf n = some pte ∧ pte.perm.u = true ∧ pt.user n = some pte.pa := by
  unfold Pagetable.user at h ⊢
  cases hleaf : pt.leaf n with
  | none => simp [hleaf] at h
  | some pte =>
    simp only [hleaf] at h ⊢
    by_cases hu : pte.perm.u = true
    · exact ⟨pte, rfl, hu, if_pos hu⟩
    · exact absurd (if_neg hu) h

theorem lt_of_user {n : Nat} (h : pt.user n ≠ none) : n < 2 ^ 26 := by
  obtain ⟨pte, hleaf, _⟩ := user_eq_some h
  exact lt_of_leaf (by rw [hleaf]; exact Option.some_ne_none _)

theorem lt_MAXVA_iff : a < MAXVA ↔ a.toNat / 4096 < 2 ^ 26 := by
  rw [UInt64.lt_iff_toNat_lt, toNat_MAXVA]
  omega

theorem walkaddr_ne_zero_iff [Image] (hpages : UserPages pt) :
    pt.walkaddr a ≠ 0 ↔ pt.user (a.toNat / 4096) ≠ none := by
  constructor
  · intro h
    obtain ⟨_, pte, hleaf, hu, _⟩ := leaf_of_walkaddr h
    unfold Pagetable.user
    rw [show a.toNat / 4096 = vpn a from rfl, hleaf]
    simp [hu]
  · intro h
    obtain ⟨pte, hleaf, hu, huser⟩ := user_eq_some h
    rw [walkaddr_eq pt (lt_MAXVA_iff.mpr (lt_of_user h)), show vpn a = a.toNat / 4096 from rfl, huser]
    exact (hpages _ _ hleaf hu).ne_zero

theorem walkaddr_eq_user (h : pt.walkaddr a ≠ 0) :
    pt.walkaddr a = (pt.user (a.toNat / 4096)).getD 0 :=
  walkaddr_eq pt (leaf_of_walkaddr h).1

theorem cellMapped_iff [Image] (hpages : UserPages pt) (len : Nat) :
    CellMapped pt a len ↔ Accessible pt a.toNat len := by
  have hlt := a.toNat_lt
  have hsum : ∀ i, a.toNat + i < 2 ^ 64 → (a + UInt64.ofNat i).toNat = a.toNat + i := by
    intro i hi
    rw [UInt64.toNat_add, UInt64.toNat_ofNat']
    omega
  have hiff : ∀ i, a.toNat + i < 2 ^ 64 → (pt.walkaddr (PGROUNDDOWN (a + UInt64.ofNat i)) ≠ 0 ↔
      pt.user ((a.toNat + i) / 4096) ≠ none) := by
    intro i hi
    rw [walkaddr_roundDown, walkaddr_ne_zero_iff hpages, hsum i hi]
  constructor
  · intro h i hi
    apply (hiff i _).mp (h i hi)
    -- the last address before the wrap is beyond `MAXVA`
    by_contra hge
    have hlast := (hiff (2 ^ 64 - 1 - a.toNat) (by omega)).mp (h _ (by omega))
    have hpage := lt_of_user hlast
    omega
  · intro h i hi
    have hpage := lt_of_user (h i hi)
    exact (hiff i (by omega)).mpr (h i hi)

theorem byteAddr_eq {n i : Nat} (hwalk : pt.walkaddr a ≠ 0) (hn : a.toNat % 4096 + n ≤ 4096)
    (hi : i < n) :
    pt.byteAddr (a.toNat + i) = pt.walkaddr a + (a - PGROUNDDOWN a) + UInt64.ofNat i := by
  have hoff := toNat_sub_roundDown a
  rw [Pagetable.byteAddr, show (a.toNat + i) / 4096 = a.toNat / 4096 by omega, walkaddr_eq_user hwalk,
    UInt64.add_assoc]
  congr 1
  apply UInt64.toNat_inj.mp
  rw [UInt64.toNat_add, hoff, UInt64.toNat_ofNat', UInt64.toNat_ofNat']
  omega

theorem toNat_next_page {n len : Nat} (hwalk : pt.walkaddr a ≠ 0)
    (hn : n = min (4096 - a.toNat % 4096) len) (hmore : n < len) :
    (PGROUNDDOWN a + PGSIZE).toNat = a.toNat + n := by
  have hpage := lt_MAXVA_iff.mp (leaf_of_walkaddr hwalk).1
  rw [UInt64.toNat_add, toNat_roundDown, toNat_PGSIZE]
  omega

end Translation

section Out

theorem putBytes_append (pt : Pagetable) (a : Nat) (xs ys : List UInt8) (mem : UInt64 → UInt8) :
    pt.putBytes a (xs ++ ys) mem = pt.putBytes (a + xs.length) ys (pt.putBytes a xs mem) := by
  induction xs generalizing a mem with
  | nil => rfl
  | cons x xs ih =>
    rw [List.cons_append, Pagetable.putBytes, ih, Pagetable.putBytes, List.length_cons,
      Nat.add_right_comm, Nat.add_assoc]

theorem putBytes_row {pt : Pagetable} {a : Nat} {p : UInt64} {xs : List UInt8} (mem : UInt64 → UInt8)
    (hrow : ∀ i < xs.length, pt.byteAddr (a + i) = p + UInt64.ofNat i) (hlen : xs.length < 2 ^ 64) :
    pt.putBytes a xs mem =
      fun x => if (x - p).toNat < xs.length then xs.getD (x - p).toNat 0 else mem x := by
  induction xs generalizing a p mem with
  | nil => rfl
  | cons b xs ih =>
    rw [List.length_cons] at hrow hlen
    have hfirst : pt.byteAddr a = p := by
      have hzero := hrow 0 (Nat.succ_pos _)
      rwa [Nat.add_zero, show UInt64.ofNat 0 = 0 from rfl, UInt64.add_zero] at hzero
    have hrow' : ∀ i < xs.length, pt.byteAddr (a + 1 + i) = p + 1 + UInt64.ofNat i := by
      intro i hi
      rw [← add_succ, ← hrow (i + 1) (by omega), Nat.add_right_comm, Nat.add_assoc]
    rw [Pagetable.putBytes, hfirst, ih _ hrow' (by omega)]
    funext x
    have hlt := x.toNat_lt
    have hplt := p.toNat_lt
    by_cases heq : x = p
    · subst heq
      have hwrap : (x - (x + 1)).toNat = 2 ^ 64 - 1 := by
        rw [UInt64.toNat_sub, UInt64.toNat_add, show (1 : UInt64).toNat = 1 by rfl]
        omega
      rw [hwrap, if_neg (by omega), update_self, UInt64.sub_self,
        show (0 : UInt64).toNat = 0 from rfl, List.length_cons, if_pos (Nat.succ_pos _)]
      rfl
    · have hne : x.toNat ≠ p.toNat := fun h => heq (UInt64.toNat_inj.mp h)
      have hstep : (x - p).toNat = (x - (p + 1)).toNat + 1 := by
        rw [UInt64.toNat_sub, UInt64.toNat_sub, UInt64.toNat_add, show (1 : UInt64).toNat = 1 by rfl]
        omega
      rw [hstep, update_of_ne heq, List.length_cons, List.getD_cons_succ]
      simp only [Nat.add_lt_add_iff_right]

theorem copyoutLoop_bytes (fuel : Nat) (dstva : UInt64) (src : List UInt8) (hfuel : src.length < fuel)
    (s : State) :
    wp (copyoutLoop fuel dstva src) s
      (fun r s' => r = 0 → s' = { s with mem := s.pagetable.putBytes dstva.toNat src s.mem })
      fun _ => True := by
  induction fuel generalizing dstva src s with
  | zero => omega
  | succ fuel ih =>
    rw [copyoutLoop]
    cases src with
    | nil => exact fun _ => rfl
    | cons byte rest =>
      rw [List.isEmpty_cons, if_neg (by decide)]
      apply wp_bind
      apply walkaddr_wp
      rw [walkaddr_roundDown]
      by_cases hwalk : s.pagetable.walkaddr dstva = 0
      · rw [if_pos hwalk]
        exact fun h => absurd h (by decide)
      · rw [if_neg hwalk, toNat_room]
        have hmod : dstva.toNat % 4096 < 4096 := Nat.mod_lt _ (by decide)
        generalize hsrc : byte :: rest = src at hfuel ⊢
        have hpos : 0 < src.length := by rw [← hsrc]; exact Nat.succ_pos _
        generalize hn : min (4096 - dstva.toNat % 4096) src.length = n
        have hlen : (src.take n).length = n := by rw [List.length_take]; omega
        have hrow : ∀ i < (src.take n).length, s.pagetable.byteAddr (dstva.toNat + i) =
            s.pagetable.walkaddr dstva + (dstva - PGROUNDDOWN dstva) + UInt64.ofNat i := by
          intro i hi
          rw [hlen] at hi
          exact byteAddr_eq hwalk (by omega) hi
        apply wp_modify_bind
        have hdrop : (src.drop n).length < fuel := by
          rw [List.length_drop]
          omega
        rw [← putBytes_row s.mem hrow (by omega)]
        apply (ih (PGROUNDDOWN dstva + PGSIZE) (src.drop n) hdrop _).mono _ fun _ h => h
        intro r s' hr hzero
        have hwhole := putBytes_append s.pagetable dstva.toNat (src.take n) (src.drop n) s.mem
        rw [List.take_append_drop, hlen] at hwhole
        rw [hr hzero, hwhole]
        by_cases hmore : n < src.length
        · simp only [toNat_next_page hwalk hn.symm hmore]
        · simp only [List.drop_eq_nil_of_le (Nat.not_lt.mp hmore), Pagetable.putBytes]

end Out

section In

theorem getBytes_zero (pt : Pagetable) (mem : UInt64 → UInt8) (a : Nat) : pt.getBytes mem a 0 = [] := rfl

theorem getBytes_add (pt : Pagetable) (mem : UInt64 → UInt8) (a n m : Nat) :
    pt.getBytes mem a (n + m) = pt.getBytes mem a n ++ pt.getBytes mem (a + n) m := by
  unfold Pagetable.getBytes
  rw [List.range_add, List.map_append, List.map_map]
  congr 2
  funext i
  rw [comp_apply, Nat.add_assoc]

theorem getBytes_succ (pt : Pagetable) (mem : UInt64 → UInt8) (a n : Nat) :
    pt.getBytes mem a (n + 1) = pt.getByte mem a :: pt.getBytes mem (a + 1) n := by
  rw [Nat.add_comm, getBytes_add]
  rfl

theorem loadBytes_wp (n : Nat) (p : UInt64) (s : State)
    (hram : ∀ i < n, KERNBASE ≤ p + UInt64.ofNat i ∧ p + UInt64.ofNat i < PHYSTOP)
    (huser : ∀ i < n, UserByte s.pagetable (p + UInt64.ofNat i)) :
    wp (loadBytes n p) s (fun bytes s' =>
      bytes = (List.range n).map (fun i => s.mem (p + UInt64.ofNat i)) ∧ ReadUser s s')
      fun _ => False := by
  induction n generalizing p s with
  | zero => exact ⟨rfl, ReadUser.refl s⟩
  | succ n ih =>
    have hzero : p + UInt64.ofNat 0 = p := UInt64.add_zero p
    have hram₀ := hram 0 (Nat.succ_pos n)
    have huser₀ := huser 0 (Nat.succ_pos n)
    rw [hzero] at hram₀ huser₀
    have hread : ReadUser s { s with reads := s.reads ++ [p] } :=
      ⟨[p], rfl, by simpa using huser₀⟩
    rw [loadBytes]
    apply wp_bind
    rw [loadByte, if_neg (not_or.mpr ⟨UInt64.not_lt.mpr hram₀.1, UInt64.not_le.mpr hram₀.2⟩)]
    apply wp_modify_bind
    apply wp_get_bind
    apply wp_pure
    apply wp_bind
    apply (ih (p + 1) _ (fun i hi => add_succ p i ▸ hram (i + 1) (by omega))
      (fun i hi => add_succ p i ▸ huser (i + 1) (by omega))).mono _ fun _ h => h
    rintro bytes s' ⟨rfl, hread'⟩
    refine ⟨?_, hread.trans hread'⟩
    rw [List.range_succ_eq_map, List.map_cons, hzero, List.map_map]
    congr 2
    funext i
    rw [comp_apply, add_succ]

-- What a copy of `len` bytes from address `a` has given: the bytes up to the first
-- that cannot be accessed.
structure CopiedIn (pt : Pagetable) (mem : UInt64 → UInt8) (a len k : Nat) (bytes : List UInt8)
    (r : Int32) : Prop where
  le : k ≤ len
  bytes : bytes = pt.getBytes mem a k
  access : Accessible pt a k
  stop : k < len → pt.user ((a + k) / 4096) = none
  result : r = if k = len then 0 else -1

section CopiedIn

variable {pt : Pagetable} {mem : UInt64 → UInt8} {a len k : Nat} {bytes : List UInt8} {r : Int32}

theorem CopiedIn.zero_iff (h : CopiedIn pt mem a len k bytes r) : r = 0 ↔ k = len := by
  rw [h.result]
  by_cases hk : k = len
  · rw [if_pos hk]
    exact iff_of_true rfl hk
  · rw [if_neg hk]
    exact iff_of_false (by decide) hk

theorem CopiedIn.accessible_iff (h : CopiedIn pt mem a len k bytes r) : r = 0 ↔ Accessible pt a len := by
  rw [h.zero_iff]
  constructor
  · rintro rfl
    exact h.access
  · intro haccess
    by_contra hne
    have hlt : k < len := Nat.lt_of_le_of_ne h.le hne
    exact haccess k hlt (h.stop hlt)

theorem CopiedIn.failed (h : CopiedIn pt mem a len k bytes r) (hr : r ≠ 0) : r = -1 := by
  rw [h.result, if_neg (h.zero_iff.not.mp hr)]

end CopiedIn

theorem copyinLoop_wp [Image] (fuel : Nat) (srcva : UInt64) (len : Nat) (hfuel : len < fuel)
    (s : State) (hpages : UserPages s.pagetable) :
    wp (copyinLoop fuel srcva len) s (fun result s' => ReadUser s s' ∧
      ∃ k, CopiedIn s.pagetable s.mem srcva.toNat len k result.1 result.2) fun _ => False := by
  induction fuel generalizing srcva len s with
  | zero => omega
  | succ fuel ih =>
    rw [copyinLoop]
    by_cases hlen : len = 0
    · rw [if_pos hlen, hlen]
      exact ⟨ReadUser.refl s, 0, Nat.le_refl 0, rfl, fun i hi => absurd hi (Nat.not_lt_zero i),
        fun h => absurd h (Nat.lt_irrefl 0), rfl⟩
    · rw [if_neg hlen]
      apply wp_bind
      apply walkaddr_wp
      rw [walkaddr_roundDown]
      by_cases hwalk : s.pagetable.walkaddr srcva = 0
      · rw [if_pos hwalk]
        have hnone : s.pagetable.user (srcva.toNat / 4096) = none := by
          by_contra hne
          exact (walkaddr_ne_zero_iff hpages).mpr hne hwalk
        exact ⟨ReadUser.refl s, 0, Nat.zero_le len, rfl, fun i hi => absurd hi (Nat.not_lt_zero i),
          fun _ => hnone, (if_neg (Ne.symm hlen)).symm⟩
      · rw [if_neg hwalk]
        have hmod : srcva.toNat % 4096 < 4096 := Nat.mod_lt _ (by decide)
        simp only [toNat_room]
        generalize hn : min (4096 - srcva.toNat % 4096) len = n
        have hrow := row_of_page (n := n) hpages hwalk (by omega)
        refine wp_call (loadBytes_wp n _ s hrow.ram hrow.user) ?_
        rintro bytes s₁ ⟨rfl, hread₁⟩
        obtain ⟨rs, rfl, _⟩ := id hread₁
        apply wp_bind
        apply (ih (PGROUNDDOWN srcva + PGSIZE) (len - n) (by omega)
          { s with reads := s.reads ++ rs } hpages).mono _ fun _ h => h
        rintro ⟨rest, result⟩ s₂ ⟨hread₂, k, hle, hrest, haccess, hstop, hresult⟩
        have hfirst : (List.range n).map (fun i => s.mem
            (s.pagetable.walkaddr srcva + (srcva - PGROUNDDOWN srcva) + UInt64.ofNat i)) =
            s.pagetable.getBytes s.mem srcva.toNat n := by
          apply List.map_congr_left
          intro i hi
          rw [Pagetable.getByte, byteAddr_eq hwalk (by omega) (List.mem_range.mp hi)]
        have hpage : Accessible s.pagetable srcva.toNat n := by
          intro i hi
          rw [show (srcva.toNat + i) / 4096 = srcva.toNat / 4096 by omega]
          exact (walkaddr_ne_zero_iff hpages).mp hwalk
        -- Without more to copy the next address does not matter.
        have hnext : n < len → (PGROUNDDOWN srcva + PGSIZE).toNat = srcva.toNat + n :=
          fun hmore => toNat_next_page hwalk hn.symm hmore
        refine ⟨hread₁.trans hread₂, n + k, by omega, ?_, ?_, ?_, ?_⟩
        · show _ ++ rest = _
          rw [hfirst, getBytes_add, show rest = _ from hrest]
          by_cases hmore : n < len
          · rw [hnext hmore]
          · rw [show k = 0 by omega, getBytes_zero, getBytes_zero]
        · intro i hi
          by_cases hi' : i < n
          · exact hpage i hi'
          · have hin := haccess (i - n) (by omega)
            rw [hnext (by omega), show srcva.toNat + n + (i - n) = srcva.toNat + i by omega] at hin
            exact hin
        · intro hlt
          have hnone := hstop (by omega)
          rw [hnext (by omega), Nat.add_assoc] at hnone
          exact hnone
        · show result = _
          rw [show result = _ from hresult]
          by_cases hk : k = len - n
          · rw [if_pos hk, if_pos (by omega)]
          · rw [if_neg hk, if_neg (by omega)]

end In

end Xv6Ringbuf.Kernel
