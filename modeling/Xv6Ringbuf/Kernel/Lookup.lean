import Xv6Ringbuf.Kernel.Ringbuf
import Xv6Ringbuf.Kernel.Access

namespace Xv6Ringbuf.Kernel

open Machine

theorem headD_strncpy (t : List UInt8) (n : Nat) : (strncpy t (n + 1)).headD 0 = t.headD 0 := by
  rw [strncpy]
  by_cases h : t.headD 0 = 0
  · rw [if_pos h, h]
    rfl
  · rw [if_neg h]
    rfl

theorem strncmp_eq_zero_iff (p q : List UInt8) (n : Nat) :
    strncmp p q n = 0 ↔ strncpy p n = strncpy q n := by
  induction n generalizing p q with
  | zero => simp only [strncmp, strncpy]
  | succ n ih =>
    rw [strncmp]
    by_cases h : p.headD 0 ≠ 0 ∧ p.headD 0 = q.headD 0
    · obtain ⟨hne, heq⟩ := h
      rw [if_pos ⟨hne, heq⟩, ih, strncpy, strncpy, if_neg hne, if_neg (heq ▸ hne), heq]
      simp
    · rw [if_neg h]
      constructor
      · intro hzero
        have heq : p.headD 0 = q.headD 0 := UInt8.toNat_inj.mp (by omega)
        have hp : p.headD 0 = 0 := by
          by_contra hne
          exact h ⟨hne, heq⟩
        rw [strncpy, strncpy, if_pos hp, if_pos (heq ▸ hp)]
      · intro hcopy
        have heq := congrArg (fun t => t.headD 0) hcopy
        simp only [headD_strncpy] at heq
        rw [heq, Int.sub_self]

theorem strncpy_strncpy (t : List UInt8) (n : Nat) : strncpy (strncpy t n) n = strncpy t n := by
  induction n generalizing t with
  | zero => rfl
  | succ n ih =>
    by_cases h : t.headD 0 = 0
    · rw [strncpy, headD_strncpy, if_pos h, strncpy, if_pos h]
    · rw [strncpy, headD_strncpy, if_neg h]
      simp only [strncpy, if_neg h, List.tail_cons, ih]

-- The name under which the table keeps a ring.
def key (name : List UInt8) : List UInt8 := strncpy name RINGBUF_NAME_LEN

theorem key_key (name : List UInt8) : key (key name) = key name := strncpy_strncpy name _

variable {rbs : Ringbufs} {name : List UInt8} {k : Fin MAX_RINGBUFS} {va top : UInt64} {v : Nat}
  {pt : Pagetable}

theorem findName_eq_some (h : findName rbs name = some k) : key (rbs k).name = key name := by
  have hsome := List.find?_some h
  rw [decide_eq_true_eq, strncmp_eq_zero_iff] at hsome
  exact hsome

theorem findName_eq_none_iff :
    findName rbs name = none ↔ ∀ k, key (rbs k).name ≠ key name := by
  unfold findName
  rw [List.find?_eq_none]
  simp only [List.mem_finRange, decide_eq_true_eq, strncmp_eq_zero_iff, true_implies]
  rfl

theorem findName_eq_some_of_unique (hk : key (rbs k).name = key name)
    (hunique : ∀ j, key (rbs j).name = key name → j = k) :
    findName rbs name = some k := by
  cases hfind : findName rbs name with
  | none => exact absurd hk (findName_eq_none_iff.mp hfind k)
  | some j => rw [hunique j (findName_eq_some hfind)]

theorem findName_congr {rbs' : Ringbufs} (h : ∀ k, (rbs' k).name = (rbs k).name) (name : List UInt8) :
    findName rbs' name = findName rbs name := by
  unfold findName
  simp only [h]

def Vacant (pt : Pagetable) (m : Nat) : Prop := (pt.user m).getD 0 = 0

theorem findLoop_succ (pt : Pagetable) (num fuel : Nat) (base : UInt64) (count : Nat)
    (hva : va.toNat = 4096 * v) (hv : v < 2 ^ 26) :
    findLoop pt num (fuel + 1) va base count = none ∧ v ≤ 2 ^ 19 ∨
    2 ^ 19 < v ∧ (va - PGSIZE).toNat = 4096 * (v - 1) ∧
      (Vacant pt v ∧ count + 1 = num ∧ findLoop pt num (fuel + 1) va base count = some base ∨
        Vacant pt v ∧ count + 1 ≠ num ∧ findLoop pt num (fuel + 1) va base count =
          findLoop pt num fuel (va - PGSIZE) base (count + 1) ∨
        ¬Vacant pt v ∧ findLoop pt num (fuel + 1) va base count =
          findLoop pt num fuel (va - PGSIZE) va 0) := by
  have hmax : va < MAXVA := by
    rw [UInt64.lt_iff_toNat_lt, toNat_MAXVA]
    omega
  have hvpn : vpn va = v := by
    unfold vpn
    omega
  have hbase : KERNBASE < va ↔ 2 ^ 19 < v := by
    rw [UInt64.lt_iff_toNat_lt, show KERNBASE.toNat = 4096 * 2 ^ 19 by rfl]
    omega
  rw [findLoop, walkaddr_eq pt hmax, hvpn, Vacant]
  by_cases hgt : 2 ^ 19 < v
  · have hle : PGSIZE ≤ va := by
      rw [UInt64.le_iff_toNat_le, toNat_PGSIZE]
      omega
    have hsub : (va - PGSIZE).toNat = 4096 * (v - 1) := by
      rw [UInt64.toNat_sub_of_le _ _ hle, toNat_PGSIZE]
      omega
    refine .inr ⟨hgt, hsub, ?_⟩
    rw [if_pos (hbase.mpr hgt)]
    by_cases hvacant : (pt.user v).getD 0 = 0
    · by_cases hcount : count + 1 = num
      · exact .inl ⟨hvacant, hcount, by rw [if_pos hvacant, if_pos hcount]⟩
      · exact .inr (.inl ⟨hvacant, hcount, by rw [if_pos hvacant, if_neg hcount]⟩)
    · exact .inr (.inr ⟨hvacant, by rw [if_neg hvacant]⟩)
  · rw [if_neg (mt hbase.mp hgt)]
    exact .inl ⟨rfl, by omega⟩

theorem findLoop_some {num fuel : Nat} {base : UInt64} {count b : Nat}
    (h : findLoop pt num fuel va base count = some top) (hva : va.toNat = 4096 * v)
    (hbase : base.toNat = 4096 * b) (hv : v ≤ b) (hb : b ≤ 2 ^ 26 - 3) (hcount : v + count ≤ b)
    (hvacant : ∀ m, v < m → m ≤ v + count → Vacant pt m) :
    ∃ t w, top.toNat = 4096 * t ∧ t ≤ 2 ^ 26 - 3 ∧ 2 ^ 19 < w ∧ w + num ≤ t + 1 ∧
      ∀ m, w ≤ m → m < w + num → Vacant pt m := by
  induction fuel generalizing va base count v b with
  | zero => simp only [findLoop, reduceCtorEq] at h
  | succ fuel ih =>
    rcases findLoop_succ pt num fuel base count hva (by omega) with
      ⟨hnone, _⟩ | ⟨hgt, hnext, ⟨hfree, hfull, hsome⟩ | ⟨hfree, hmore, hrec⟩ | ⟨hused, hrec⟩⟩
    · rw [hnone] at h
      cases h
    · rw [hsome] at h
      cases h
      refine ⟨b, v, hbase, hb, hgt, by omega, ?_⟩
      intro m hm hm'
      by_cases heq : m = v
      · rw [heq]
        exact hfree
      · exact hvacant m (by omega) (by omega)
    · rw [hrec] at h
      refine ih h hnext hbase (by omega) hb (by omega) ?_
      intro m hm hm'
      by_cases heq : m = v
      · rw [heq]
        exact hfree
      · exact hvacant m (by omega) (by omega)
    · rw [hrec] at h
      exact ih h hnext hva (by omega) (by omega) (by omega) (fun m hm hm' => by omega)

def Pagetable.room (pt : Pagetable) : Option UInt64 :=
  findLoop pt NUM_CONTIGUOUS_PAGES ((TOP - KERNBASE) / PGSIZE).toNat TOP TOP 0

theorem room_range (h : pt.room = some top) :
    ∃ t, top.toNat = 4096 * t ∧ 2 ^ 19 + 34 ≤ t ∧ t ≤ 2 ^ 26 - 3 := by
  obtain ⟨t, w, htop, ht, hw, hbound, _⟩ := findLoop_some h
    (show TOP.toNat = 4096 * (2 ^ 26 - 3) by rfl) (show TOP.toNat = 4096 * (2 ^ 26 - 3) by rfl)
    (Nat.le_refl _) (Nat.le_refl _) (Nat.le_refl _) (fun m hm hm' => by omega)
  rw [show NUM_CONTIGUOUS_PAGES = 34 by rfl] at hbound
  exact ⟨t, htop, by omega, ht⟩

theorem findContiguousPages_wp {s : State} {Q : Option UInt64 → State → Prop} {E : Panic → Prop}
    (h : Q s.pagetable.room s) : wp (findContiguousPages NUM_CONTIGUOUS_PAGES) s Q E := h

end Xv6Ringbuf.Kernel
