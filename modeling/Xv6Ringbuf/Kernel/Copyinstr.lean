import Xv6Ringbuf.Kernel.Access

namespace Xv6Ringbuf.Kernel

open Machine

def loadByte (pa : UInt64) : K UInt8 :=
  if pa < KERNBASE ∨ PHYSTOP ≤ pa then throw .kerneltrap
  else do
    modify fun s => { s with reads := s.reads ++ [pa] }
    return (← get).mem pa

-- The inner loop of `copyinstr`: the bytes that it stores, and `got_null`.
def copyPage : Nat → UInt64 → K (List UInt8 × Bool)
  | 0, _ => return ([], false)
  | n + 1, p => do
      let byte ← loadByte p
      if byte = 0 then return ([0], true)
      else do
        let (rest, gotNull) ← copyPage n (p + 1)
        return (byte :: rest, gotNull)

-- Each round copies at least one byte.
def copyinstrLoop : Nat → UInt64 → Nat → K (List UInt8 × Int32)
  | 0, _, _ => return ([], -1)
  | fuel + 1, srcva, max =>
    if max = 0 then return ([], -1)
    else do
      let va0 := PGROUNDDOWN srcva
      let pa0 ← walkaddr va0
      if pa0 = 0 then return ([], -1)
      else do
        let n := min (PGSIZE - (srcva - va0)).toNat max
        let (bytes, gotNull) ← copyPage n (pa0 + (srcva - va0))
        if gotNull then return (bytes, 0)
        else do
          let (rest, result) ← copyinstrLoop fuel (va0 + PGSIZE) (max - n)
          return (bytes ++ rest, result)

-- The bytes that are stored to `dst` from its start on, and the result.
def copyinstr (srcva : UInt64) (max : Nat) : K (List UInt8 × Int32) :=
  copyinstrLoop (max + 1) srcva max

def UserByte (pt : Pagetable) (a : UInt64) : Prop :=
  ∃ n pte, pt.leaf n = some pte ∧ pte.perm.u = true ∧ (a - pte.pa).toNat < 4096

def ReadUser (s s' : State) : Prop :=
  ∃ rs, s' = { s with reads := s.reads ++ rs } ∧ ∀ a ∈ rs, UserByte s.pagetable a

theorem ReadUser.refl (s : State) : ReadUser s s := ⟨[], by rw [List.append_nil], by simp⟩

theorem ReadUser.trans {s s' s'' : State} (h : ReadUser s s') (h' : ReadUser s' s'') :
    ReadUser s s'' := by
  obtain ⟨rs, rfl, hrs⟩ := h
  obtain ⟨rs', rfl, hrs'⟩ := h'
  refine ⟨rs ++ rs', by rw [List.append_assoc], ?_⟩
  intro a ha
  rcases List.mem_append.mp ha with ha | ha
  · exact hrs a ha
  · exact hrs' a ha

-- What the loops compute, byte by byte: in physical memory, and through the page
-- table.
def scan (mem : UInt64 → UInt8) : Nat → UInt64 → List UInt8 × Bool
  | 0, _ => ([], false)
  | n + 1, p =>
    if mem p = 0 then ([0], true) else (mem p :: (scan mem n (p + 1)).1, (scan mem n (p + 1)).2)

def Pagetable.fetch (pt : Pagetable) (mem : UInt64 → UInt8) : Nat → UInt64 → List UInt8
  | 0, _ => []
  | max + 1, a =>
    if pt.walkaddr a = 0 then []
    else if mem (pt.walkaddr a + a % 4096) = 0 then [0]
    else mem (pt.walkaddr a + a % 4096) :: pt.fetch mem max (a + 1)

theorem copyPage_wp (n : Nat) (p : UInt64) (s : State)
    (hram : ∀ i < n, KERNBASE ≤ p + UInt64.ofNat i ∧ p + UInt64.ofNat i < PHYSTOP)
    (huser : ∀ i < n, UserByte s.pagetable (p + UInt64.ofNat i)) :
    wp (copyPage n p) s (fun result s' => result = scan s.mem n p ∧ ReadUser s s')
      fun _ => False := by
  induction n generalizing p s with
  | zero => exact ⟨rfl, ReadUser.refl s⟩
  | succ n ih =>
    have hzero : p + UInt64.ofNat 0 = p := UInt64.add_zero p
    have hram₀ := hram 0 (Nat.succ_pos n)
    have huser₀ := huser 0 (Nat.succ_pos n)
    rw [hzero] at hram₀ huser₀
    have hread : ReadUser s { s with reads := s.reads ++ [p] } :=
      ⟨[p], rfl, by simpa using huser₀⟩
    rw [copyPage]
    apply wp_bind
    rw [loadByte, if_neg (not_or.mpr ⟨UInt64.not_lt.mpr hram₀.1, UInt64.not_le.mpr hram₀.2⟩)]
    apply wp_modify_bind
    apply wp_get_bind
    apply wp_pure
    rw [scan]
    by_cases hbyte : s.mem p = 0
    · rw [if_pos hbyte, if_pos hbyte]
      exact ⟨rfl, hread⟩
    · rw [if_neg hbyte, if_neg hbyte]
      apply wp_bind
      apply (ih (p + 1) _ (fun i hi => add_succ p i ▸ hram (i + 1) (by omega))
        (fun i hi => add_succ p i ▸ huser (i + 1) (by omega))).mono _ fun _ h => h
      rintro result s' ⟨rfl, hread'⟩
      exact ⟨rfl, hread.trans hread'⟩

theorem fetch_scan (pt : Pagetable) (mem : UInt64 → UInt8) (n max : Nat) (a p : UInt64)
    (hmapped : ∀ i < n, pt.walkaddr (a + UInt64.ofNat i) ≠ 0)
    (hrow : ∀ i < n, pt.walkaddr (a + UInt64.ofNat i) + (a + UInt64.ofNat i) % 4096 =
      p + UInt64.ofNat i) :
    pt.fetch mem (n + max) a = if (scan mem n p).2 then (scan mem n p).1
      else (scan mem n p).1 ++ pt.fetch mem max (a + UInt64.ofNat n) := by
  induction n generalizing a p with
  | zero =>
    rw [Nat.zero_add, show a + UInt64.ofNat 0 = a from UInt64.add_zero a]
    rfl
  | succ n ih =>
    have hmapped₀ := hmapped 0 (Nat.succ_pos n)
    have hrow₀ := hrow 0 (Nat.succ_pos n)
    rw [show a + UInt64.ofNat 0 = a from UInt64.add_zero a] at hmapped₀ hrow₀
    rw [show p + UInt64.ofNat 0 = p from UInt64.add_zero p] at hrow₀
    rw [Nat.add_right_comm, Pagetable.fetch, if_neg hmapped₀, hrow₀, scan]
    by_cases hbyte : mem p = 0
    · rw [if_pos hbyte, if_pos hbyte]
      rfl
    · rw [if_neg hbyte, if_neg hbyte,
        ih (a + 1) (p + 1) (fun i hi => add_succ a i ▸ hmapped (i + 1) (by omega))
          (fun i hi => add_succ a i ▸ add_succ p i ▸ hrow (i + 1) (by omega)), add_succ]
      by_cases hnull : (scan mem n (p + 1)).2 = true
      · rw [if_pos hnull, if_pos hnull]
      · rw [if_neg hnull, if_neg hnull, List.cons_append]

structure Row [Image] (pt : Pagetable) (a p : UInt64) (n : Nat) : Prop where
  mapped : ∀ i < n, pt.walkaddr (a + UInt64.ofNat i) ≠ 0
  row : ∀ i < n, pt.walkaddr (a + UInt64.ofNat i) + (a + UInt64.ofNat i) % 4096 = p + UInt64.ofNat i
  ram : ∀ i < n, KERNBASE ≤ p + UInt64.ofNat i ∧ p + UInt64.ofNat i < PHYSTOP
  user : ∀ i < n, UserByte pt (p + UInt64.ofNat i)

theorem row_of_page [Image] {pt : Pagetable} {a : UInt64} {n : Nat}
    (huser : ∀ n pte, pt.leaf n = some pte → pte.perm.u = true → ValidPage pte.pa)
    (hwalk : pt.walkaddr a ≠ 0) (hn : a.toNat % 4096 + n ≤ 4096) :
    Row pt a (pt.walkaddr a + (a - PGROUNDDOWN a)) n := by
  obtain ⟨_, pte, hleaf, hu, hpa⟩ := leaf_of_walkaddr hwalk
  have hbounds := (huser _ _ hleaf hu).bounds
  have hoff := toNat_sub_roundDown a
  have hlt := a.toNat_lt
  have hsame : ∀ i < n, pt.walkaddr (a + UInt64.ofNat i) = pt.walkaddr a := by
    intro i hi
    rw [← walkaddr_roundDown, roundDown_add (by omega), walkaddr_roundDown]
  have hmod : ∀ i < n, (a + UInt64.ofNat i) % 4096 = a - PGROUNDDOWN a + UInt64.ofNat i := by
    intro i hi
    apply UInt64.toNat_inj.mp
    rw [UInt64.toNat_mod, UInt64.toNat_add, UInt64.toNat_add, hoff, UInt64.toNat_ofNat',
      show (4096 : UInt64).toNat = 4096 by rfl]
    omega
  have hsum : ∀ i < n, (pt.walkaddr a + (a - PGROUNDDOWN a) + UInt64.ofNat i).toNat =
      pte.pa.toNat + (a.toNat % 4096 + i) := by
    intro i hi
    rw [← hpa, UInt64.toNat_add, UInt64.toNat_add, hoff, UInt64.toNat_ofNat']
    omega
  refine ⟨?_, ?_, ?_, ?_⟩
  · intro i hi
    rw [hsame i hi]
    exact hwalk
  · intro i hi
    rw [hsame i hi, hmod i hi, UInt64.add_assoc]
  · intro i hi
    rw [UInt64.le_iff_toNat_le, UInt64.lt_iff_toNat_lt, hsum i hi,
      show KERNBASE.toNat = 0x80000000 by rfl, show PHYSTOP.toNat = 0x88000000 by rfl]
    omega
  · intro i hi
    refine ⟨_, pte, hleaf, hu, ?_⟩
    rw [UInt64.toNat_sub_of_le, hsum i hi]
    · omega
    · rw [UInt64.le_iff_toNat_le, hsum i hi]
      omega

theorem copyinstrLoop_wp [Image] (fuel : Nat) (srcva : UInt64) (max : Nat) (hfuel : max < fuel)
    (s : State)
    (huser : ∀ n pte, s.pagetable.leaf n = some pte → pte.perm.u = true → ValidPage pte.pa) :
    wp (copyinstrLoop fuel srcva max) s
      (fun result s' => result.1 = s.pagetable.fetch s.mem max srcva ∧ ReadUser s s')
      fun _ => False := by
  induction fuel generalizing srcva max s with
  | zero => omega
  | succ fuel ih =>
    rw [copyinstrLoop]
    by_cases hmax : max = 0
    · rw [if_pos hmax, hmax]
      exact ⟨rfl, ReadUser.refl s⟩
    · rw [if_neg hmax]
      obtain ⟨max', rfl⟩ := Nat.exists_eq_add_one_of_ne_zero hmax
      apply wp_bind
      apply walkaddr_wp
      rw [walkaddr_roundDown]
      by_cases hwalk : s.pagetable.walkaddr srcva = 0
      · rw [if_pos hwalk]
        refine ⟨?_, ReadUser.refl s⟩
        rw [Pagetable.fetch, if_pos hwalk]
      · rw [if_neg hwalk]
        have hmod : srcva.toNat % 4096 < 4096 := Nat.mod_lt _ (by decide)
        simp only [toNat_room]
        generalize hn : min (4096 - srcva.toNat % 4096) (max' + 1) = n
        have hrow := row_of_page (n := n) huser hwalk (by omega)
        have hfetch := fetch_scan s.pagetable s.mem n (max' + 1 - n) srcva _ hrow.mapped hrow.row
        rw [show n + (max' + 1 - n) = max' + 1 by omega] at hfetch
        refine wp_call (copyPage_wp n _ s hrow.ram hrow.user) ?_
        rintro result s₁ ⟨rfl, hread₁⟩
        by_cases hnull : (scan s.mem n
            (s.pagetable.walkaddr srcva + (srcva - PGROUNDDOWN srcva))).2 = true
        · rw [if_pos hnull] at hfetch ⊢
          exact ⟨hfetch.symm, hread₁⟩
        · rw [if_neg hnull] at hfetch ⊢
          obtain ⟨rs, rfl, hrs⟩ := id hread₁
          apply wp_bind
          apply (ih (PGROUNDDOWN srcva + PGSIZE) (max' + 1 - n) (by omega)
            { s with reads := s.reads ++ rs } huser).mono _ fun _ h => h
          rintro result s₂ ⟨hrest, hread₂⟩
          refine ⟨?_, hread₁.trans hread₂⟩
          rw [hfetch, hrest]
          by_cases hlast : max' + 1 - n = 0
          · simp only [hlast, Pagetable.fetch]
          · have hnext : PGROUNDDOWN srcva + PGSIZE = srcva + UInt64.ofNat n := by
              apply UInt64.toNat_inj.mp
              rw [UInt64.toNat_add, UInt64.toNat_add, toNat_roundDown, UInt64.toNat_ofNat',
                toNat_PGSIZE]
              omega
            rw [hnext]

theorem copyinstr_wp [Image] (srcva : UInt64) (max : Nat) (s : State)
    (huser : ∀ n pte, s.pagetable.leaf n = some pte → pte.perm.u = true → ValidPage pte.pa) :
    wp (copyinstr srcva max) s
      (fun result s' => result.1 = s.pagetable.fetch s.mem max srcva ∧ ReadUser s s')
      fun _ => False :=
  copyinstrLoop_wp (max + 1) srcva max (Nat.lt_succ_self max) s huser

end Xv6Ringbuf.Kernel
