import Mathlib

namespace Xv6Ringbuf.Circular

variable {α : Type} {size : Nat} [NeZero size]

-- The cell that an index denotes that keeps growing.
def cell (buf : Fin size → α) (i : Nat) : α := buf (Fin.ofNat size i)

def put (buf : Fin size → α) (i : Nat) (x : α) : Fin size → α :=
  Function.update buf (Fin.ofNat size i) x

-- The `n` cells from index `start` on.
def span (buf : Fin size → α) (start : Nat) : Nat → List α
  | 0 => []
  | n + 1 => cell buf start :: span buf (start + 1) n

variable {i j start n : Nat}

theorem ofNat_eq_iff : Fin.ofNat size i = Fin.ofNat size j ↔ i % size = j % size := by
  rw [Fin.ext_iff, Fin.val_ofNat, Fin.val_ofNat]

theorem cell_congr (buf : Fin size → α) (h : i % size = j % size) :
    cell buf i = cell buf j := by
  rw [cell, cell, ofNat_eq_iff.mpr h]

theorem cell_put_self (buf : Fin size → α) (i : Nat) (x : α) : cell (put buf i x) i = x := by
  rw [cell, put, Function.update_self]

theorem cell_put_of_ne (buf : Fin size → α) (x : α) (h : i % size ≠ j % size) :
    cell (put buf j x) i = cell buf i := by
  rw [cell, put, Function.update_of_ne (fun heq => h (ofNat_eq_iff.mp heq)), cell]

theorem put_congr (buf : Fin size → α) (x : α) (h : i % size = j % size) :
    put buf i x = put buf j x := by
  rw [put, put, ofNat_eq_iff.mpr h]

theorem length_span (buf : Fin size → α) (start n : Nat) : (span buf start n).length = n := by
  induction n generalizing start with
  | zero => rfl
  | succ n ih => rw [span, List.length_cons, ih]

theorem span_congr (buf : Fin size → α) (n : Nat) (h : i % size = j % size) :
    span buf i n = span buf j n := by
  induction n generalizing i j with
  | zero => rfl
  | succ n ih =>
    have hnext : (i + 1) % size = (j + 1) % size := by
      rw [Nat.add_mod, h, ← Nat.add_mod]
    rw [span, span, cell_congr buf h, ih hnext]

theorem span_add (buf : Fin size → α) (start m n : Nat) :
    span buf start (m + n) = span buf start m ++ span buf (start + m) n := by
  induction m generalizing start with
  | zero => rw [Nat.zero_add, span, List.nil_append, Nat.add_zero]
  | succ m ih =>
    rw [Nat.add_right_comm, span, span, ih, List.cons_append, Nat.add_assoc start,
      Nat.add_comm 1 m]

theorem span_drop (buf : Fin size → α) (start m n : Nat) :
    (span buf start (m + n)).drop m = span buf (start + m) n := by
  rw [span_add, List.drop_left' (length_span buf start m)]

theorem span_last (buf : Fin size → α) (start n : Nat) :
    span buf start (n + 1) = span buf start n ++ [cell buf (start + n)] := by
  rw [span_add, span, span]

omit [NeZero size] in
theorem mod_ne_of_lt (hlt : i < j) (hround : j < i + size) : i % size ≠ j % size := by
  intro heq
  have hdvd : size ∣ j - i := (Nat.modEq_iff_dvd' (Nat.le_of_lt hlt)).mp heq
  have hle : size ≤ j - i := Nat.le_of_dvd (by omega) hdvd
  omega

theorem span_put_of_le (buf : Fin size → α) (x : α) (hj : start + n ≤ j) (hround : j < start + size) :
    span (put buf j x) start n = span buf start n := by
  induction n generalizing start with
  | zero => rfl
  | succ n ih =>
    have hne : start % size ≠ j % size := mod_ne_of_lt (by omega) hround
    rw [span, span, cell_put_of_ne buf x hne, ih (by omega) (by omega)]

theorem span_put_last (buf : Fin size → α) (x : α) (hn : n < size) :
    span (put buf (start + n) x) start (n + 1) = span buf start n ++ [x] := by
  rw [span_last, cell_put_self, span_put_of_le buf x (Nat.le_refl _) (by omega)]

section Counters

variable {k : Nat}

-- How far the counter `b` is ahead of `a`. Both wrap.
def ahead (a b : BitVec k) : Nat := (b - a).toNat

theorem ahead_self (a : BitVec k) : ahead a a = 0 := by
  rw [ahead, BitVec.sub_self, BitVec.toNat_zero]

variable {a b : BitVec k}

theorem ahead_eq_zero : ahead a b = 0 ↔ a = b := by
  constructor
  · intro h
    have hsub : b - a = 0 := BitVec.eq_of_toNat_eq h
    exact (sub_eq_zero.mp hsub).symm
  · intro h
    rw [h, ahead_self]

theorem ahead_lt (a b : BitVec k) : ahead a b < 2 ^ k := (b - a).isLt

theorem toNat_add_one (a : BitVec k) : (a + 1).toNat = (a.toNat + 1) % 2 ^ k := by
  rw [BitVec.toNat_add, show (1 : BitVec k).toNat = 1 % 2 ^ k from BitVec.toNat_ofNat 1 k,
    Nat.add_mod_mod]

theorem ahead_add_one (h : ahead a b + 1 < 2 ^ k) :
    ahead a (b + 1) = ahead a b + 1 := by
  have hsub : b + 1 - a = b - a + 1 := by abel
  rw [ahead, hsub, toNat_add_one]
  exact Nat.mod_eq_of_lt h

theorem ahead_trans {c : BitVec k} (h : ahead a b + ahead b c < 2 ^ k) :
    ahead a c = ahead a b + ahead b c := by
  have hsub : c - a = b - a + (c - b) := by abel
  rw [ahead, hsub, BitVec.toNat_add]
  exact Nat.mod_eq_of_lt h

theorem ahead_sub_one (h : a ≠ b) : ahead a (b - 1) + 1 = ahead a b := by
  have hsub : b - a = b - 1 - a + 1 := by abel
  have hpos : ahead a b ≠ 0 := fun hzero => h (ahead_eq_zero.mp hzero)
  have hmod : ahead a b = (ahead a (b - 1) + 1) % 2 ^ k := by
    rw [ahead, hsub, toNat_add_one, ahead]
  have hlt : ahead a (b - 1) + 1 < 2 ^ k := by
    have hle : ahead a (b - 1) < 2 ^ k := ahead_lt a (b - 1)
    by_contra hge
    rw [show ahead a (b - 1) + 1 = 2 ^ k by omega, Nat.mod_self] at hmod
    exact hpos hmod
  rw [hmod, Nat.mod_eq_of_lt hlt]

theorem ahead_one_add (h : a ≠ b) : ahead (a + 1) b + 1 = ahead a b := by
  have hsub : ahead (a + 1) b = ahead a (b - 1) := by
    rw [ahead, ahead, show b - (a + 1) = b - 1 - a by abel]
  rw [hsub, ahead_sub_one h]

theorem ahead_add_left {n : Nat} (h : n ≤ ahead a b) :
    ahead (a + BitVec.ofNat k n) b = ahead a b - n := by
  have hlt : n < 2 ^ k := Nat.lt_of_le_of_lt h (ahead_lt a b)
  have hsub : b - a = BitVec.ofNat k n + (b - (a + BitVec.ofNat k n)) := by abel
  have hmod : ahead a b = (n + ahead (a + BitVec.ofNat k n) b) % 2 ^ k := by
    rw [ahead, hsub, BitVec.toNat_add, BitVec.toNat_ofNat, Nat.mod_eq_of_lt hlt, ahead]
  have hle : ahead (a + BitVec.ofNat k n) b < 2 ^ k := ahead_lt _ _
  by_cases hwrap : n + ahead (a + BitVec.ofNat k n) b < 2 ^ k
  · rw [Nat.mod_eq_of_lt hwrap] at hmod
    omega
  · rw [Nat.mod_eq_sub_mod (by omega), Nat.mod_eq_of_lt (by omega)] at hmod
    omega

-- Counters that wrap at a multiple of the size denote the cells that counters
-- without a bound would.
omit [NeZero size] in
theorem add_one_mod (hdvd : size ∣ 2 ^ k) (a : BitVec k) :
    (a + 1).toNat % size = (a.toNat + 1) % size := by
  rw [toNat_add_one, Nat.mod_mod_of_dvd _ hdvd]

omit [NeZero size] in
theorem add_ofNat_mod (hdvd : size ∣ 2 ^ k) (a : BitVec k) (n : Nat) :
    (a + BitVec.ofNat k n).toNat % size = (a.toNat + n) % size := by
  rw [BitVec.toNat_add, BitVec.toNat_ofNat, Nat.add_mod_mod, Nat.mod_mod_of_dvd _ hdvd]

omit [NeZero size] in
theorem add_ahead_mod (hdvd : size ∣ 2 ^ k) (a b : BitVec k) :
    (a.toNat + ahead a b) % size = b.toNat % size := by
  have hsum : a + (b - a) = b := by abel
  rw [← Nat.mod_mod_of_dvd (a.toNat + ahead a b) hdvd, ahead, ← BitVec.toNat_add, hsum]

end Counters

end Xv6Ringbuf.Circular
