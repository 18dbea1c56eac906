import Xv6Ringbuf.Kernel.Uvmcopy

namespace Xv6Ringbuf.Moves

open Function

variable {α β : Type} [DecidableEq α]

def move (mem : α → β) (p : α × α) : α → β := update mem p.1 (mem p.2)

def moves (mem : α → β) (ps : List (α × α)) : α → β := ps.foldl move mem

-- No move writes what a later one reads or writes.
def Ordered (ps : List (α × α)) : Prop := ps.Pairwise fun p q => p.1 ≠ q.2 ∧ p.1 ≠ q.1

theorem moves_cons (mem : α → β) (p : α × α) (ps : List (α × α)) :
    moves mem (p :: ps) = moves (move mem p) ps := rfl

theorem moves_other (mem : α → β) {ps : List (α × α)} {a : α} (h : ∀ p ∈ ps, p.1 ≠ a) :
    moves mem ps a = mem a := by
  induction ps generalizing mem with
  | nil => rfl
  | cons p ps ih =>
    rw [List.forall_mem_cons] at h
    rw [moves_cons, ih _ h.2, move, update_of_ne h.1.symm]

theorem moves_mem (mem : α → β) {ps : List (α × α)} (h : Ordered ps) {p : α × α} (hp : p ∈ ps) :
    moves mem ps p.1 = mem p.2 := by
  induction ps generalizing mem with
  | nil => cases hp
  | cons q ps ih =>
    obtain ⟨hfirst, hrest⟩ := List.pairwise_cons.mp h
    rw [moves_cons]
    rcases List.mem_cons.mp hp with rfl | hp
    · -- Nothing later writes to the address of the first move.
      rw [moves_other _ fun q hq => (hfirst q hq).2.symm, move, update_self]
    · rw [ih _ hrest hp, move, update_of_ne (hfirst p hp).1.symm]

end Xv6Ringbuf.Moves

namespace Xv6Ringbuf

open Moves Function

-- The loop `*d++ = *s++` of the two functions.
def copyUp : Nat → UInt64 → UInt64 → (UInt64 → UInt8) → UInt64 → UInt8
  | 0, _, _, mem => mem
  | n + 1, d, s, mem => copyUp n (d + 1) (s + 1) (update mem d (mem s))

-- The loop `*--d = *--s`.
def copyDown : Nat → UInt64 → UInt64 → (UInt64 → UInt8) → UInt64 → UInt8
  | 0, _, _, mem => mem
  | n + 1, d, s, mem => copyDown n (d - 1) (s - 1) (update mem (d - 1) (mem (s - 1)))

-- Both functions return the destination and leave the memory changed.
def Kernel.memmove (mem : UInt64 → UInt8) (dst src : UInt64) (n : UInt32) :
    UInt64 × (UInt64 → UInt8) :=
  if n = 0 then (dst, mem)
  else if src < dst ∧ dst < src + n.toUInt64 then
    (dst, copyDown n.toNat (dst + n.toUInt64) (src + n.toUInt64) mem)
  else (dst, copyUp n.toNat dst src mem)

def User.memmove (mem : UInt64 → UInt8) (dst src : UInt64) (n : Int32) :
    UInt64 × (UInt64 → UInt8) :=
  if dst < src then (dst, copyUp n.toInt.toNat dst src mem)
  else (dst, copyDown n.toInt.toNat (dst + n.toInt64.toUInt64) (src + n.toInt64.toUInt64) mem)

-- `n` bytes have been copied as they were, and no other byte has changed.
structure Moved (mem mem' : UInt64 → UInt8) (dst src : UInt64) (n : Nat) : Prop where
  copied : ∀ i < n, mem' (dst + UInt64.ofNat i) = mem (src + UInt64.ofNat i)
  outside : ∀ a, a.toNat < dst.toNat ∨ dst.toNat + n ≤ a.toNat → mem' a = mem a

section Rows

variable {dst src : UInt64} {n : Nat}

theorem toNat_add_ofNat {a : UInt64} {i : Nat} (h : a.toNat + n ≤ 2 ^ 64) (hi : i < n) :
    (a + UInt64.ofNat i).toNat = a.toNat + i := by
  rw [UInt64.toNat_add, UInt64.toNat_ofNat']
  omega

theorem Moved.unique {mem mem₁ mem₂ : UInt64 → UInt8} (hdst : dst.toNat + n ≤ 2 ^ 64)
    (h₁ : Moved mem mem₁ dst src n) (h₂ : Moved mem mem₂ dst src n) : mem₁ = mem₂ := by
  funext a
  by_cases ha : dst.toNat ≤ a.toNat ∧ a.toNat < dst.toNat + n
  · have hi : a.toNat - dst.toNat < n := by omega
    have heq : a = dst + UInt64.ofNat (a.toNat - dst.toNat) := by
      apply UInt64.toNat_inj.mp
      rw [toNat_add_ofNat hdst hi]
      omega
    rw [heq, h₁.copied _ hi, h₂.copied _ hi]
  · rw [h₁.outside a (by omega), h₂.outside a (by omega)]

def row (dst src : UInt64) (n : Nat) : List (UInt64 × UInt64) :=
  (List.range n).map fun i => (dst + UInt64.ofNat i, src + UInt64.ofNat i)

theorem mem_row {p : UInt64 × UInt64} :
    p ∈ row dst src n ↔ ∃ i < n, p = (dst + UInt64.ofNat i, src + UInt64.ofNat i) := by
  simp only [row, List.mem_map, List.mem_range, eq_comm]

theorem row_succ (dst src : UInt64) (n : Nat) :
    row dst src (n + 1) = (dst, src) :: row (dst + 1) (src + 1) n := by
  unfold row
  rw [List.range_succ_eq_map, List.map_cons, List.map_map]
  congr 1
  · rw [show UInt64.ofNat 0 = 0 from rfl, UInt64.add_zero, UInt64.add_zero]
  · apply List.map_congr_left
    intro i _
    simp only [comp_apply, Nat.succ_eq_add_one, Kernel.add_succ]

theorem copyUp_eq (n : Nat) (d s : UInt64) (mem : UInt64 → UInt8) :
    copyUp n d s mem = moves mem (row d s n) := by
  induction n generalizing d s mem with
  | zero => rfl
  | succ n ih => rw [copyUp, ih, row_succ, moves_cons, move]

theorem add_ofNat_sub_one (a : UInt64) (n : Nat) : a + UInt64.ofNat (n + 1) - 1 = a + UInt64.ofNat n := by
  rw [UInt64.ofNat_add, ← UInt64.add_assoc]
  exact UInt64.add_sub_cancel _ _

theorem copyDown_eq (n : Nat) (d s : UInt64) (mem : UInt64 → UInt8) :
    copyDown n (d + UInt64.ofNat n) (s + UInt64.ofNat n) mem = moves mem (row d s n).reverse := by
  induction n generalizing mem with
  | zero => rfl
  | succ n ih =>
    have hrow : (row d s (n + 1)).reverse =
        (d + UInt64.ofNat n, s + UInt64.ofNat n) :: (row d s n).reverse := by
      unfold row
      rw [List.range_succ, List.map_append, List.reverse_append]
      rfl
    rw [copyDown, add_ofNat_sub_one, add_ofNat_sub_one, ih, hrow, moves_cons, move]

-- Upwards, a byte is read before it is written if it lies above, or if the ranges
-- are disjoint.
theorem row_ordered (hdst : dst.toNat + n ≤ 2 ^ 64) (hsrc : src.toNat + n ≤ 2 ^ 64)
    (h : dst ≤ src ∨ src.toNat + n ≤ dst.toNat) : Ordered (row dst src n) := by
  rw [UInt64.le_iff_toNat_le] at h
  unfold row Ordered
  rw [List.pairwise_map]
  apply List.pairwise_lt_range.imp_of_mem
  intro i j hi hj hlt
  rw [List.mem_range] at hi hj
  constructor
  · intro heq
    have hnat := congrArg UInt64.toNat heq
    rw [toNat_add_ofNat hdst hi, toNat_add_ofNat hsrc hj] at hnat
    omega
  · intro heq
    have hnat := congrArg UInt64.toNat heq
    rw [toNat_add_ofNat hdst hi, toNat_add_ofNat hdst hj] at hnat
    omega

theorem row_reverse_ordered (hdst : dst.toNat + n ≤ 2 ^ 64) (hsrc : src.toNat + n ≤ 2 ^ 64)
    (h : src ≤ dst) : Ordered (row dst src n).reverse := by
  rw [UInt64.le_iff_toNat_le] at h
  unfold row Ordered
  rw [List.pairwise_reverse, List.pairwise_map]
  apply List.pairwise_lt_range.imp_of_mem
  intro i j hi hj hlt
  rw [List.mem_range] at hi hj
  constructor
  · intro heq
    have hnat := congrArg UInt64.toNat heq
    rw [toNat_add_ofNat hdst hj, toNat_add_ofNat hsrc hi] at hnat
    omega
  · intro heq
    have hnat := congrArg UInt64.toNat heq
    rw [toNat_add_ofNat hdst hj, toNat_add_ofNat hdst hi] at hnat
    omega

theorem moved_of_ordered (mem : UInt64 → UInt8) {ps : List (UInt64 × UInt64)}
    (hdst : dst.toNat + n ≤ 2 ^ 64) (hordered : Ordered ps) (hmem : ∀ p, p ∈ ps ↔ p ∈ row dst src n) :
    Moved mem (moves mem ps) dst src n := by
  constructor
  · intro i hi
    have hp : (dst + UInt64.ofNat i, src + UInt64.ofNat i) ∈ ps :=
      (hmem _).mpr (mem_row.mpr ⟨i, hi, rfl⟩)
    exact moves_mem mem hordered hp
  · intro a ha
    apply moves_other
    intro p hp heq
    obtain ⟨i, hi, rfl⟩ := mem_row.mp ((hmem p).mp hp)
    have hnat := congrArg UInt64.toNat heq
    rw [toNat_add_ofNat hdst hi] at hnat
    omega

theorem copyUp_moved (mem : UInt64 → UInt8) (hdst : dst.toNat + n ≤ 2 ^ 64)
    (hsrc : src.toNat + n ≤ 2 ^ 64) (h : dst ≤ src ∨ src.toNat + n ≤ dst.toNat) :
    Moved mem (copyUp n dst src mem) dst src n := by
  rw [copyUp_eq]
  exact moved_of_ordered mem hdst (row_ordered hdst hsrc h) fun _ => Iff.rfl

theorem copyDown_moved (mem : UInt64 → UInt8) (hdst : dst.toNat + n ≤ 2 ^ 64)
    (hsrc : src.toNat + n ≤ 2 ^ 64) (h : src ≤ dst) :
    Moved mem (copyDown n (dst + UInt64.ofNat n) (src + UInt64.ofNat n) mem) dst src n := by
  rw [copyDown_eq]
  exact moved_of_ordered mem hdst (row_reverse_ordered hdst hsrc h) fun _ => List.mem_reverse

end Rows

section Memmove

variable (mem : UInt64 → UInt8) {dst src : UInt64}

theorem Kernel.memmove_fst (dst src : UInt64) (n : UInt32) : (Kernel.memmove mem dst src n).1 = dst := by
  unfold Kernel.memmove
  split
  · rfl
  · split
    · rfl
    · rfl

theorem User.memmove_fst (dst src : UInt64) (n : Int32) : (User.memmove mem dst src n).1 = dst := by
  unfold User.memmove
  split
  · rfl
  · rfl

theorem Kernel.memmove_moved {n : UInt32} (hdst : dst.toNat + n.toNat ≤ 2 ^ 64)
    (hsrc : src.toNat + n.toNat ≤ 2 ^ 64) :
    Moved mem (Kernel.memmove mem dst src n).2 dst src n.toNat := by
  have hwide : n.toUInt64 = UInt64.ofNat n.toNat := by
    apply UInt64.toNat_inj.mp
    rw [UInt32.toNat_toUInt64, UInt64.toNat_ofNat']
    exact (Nat.mod_eq_of_lt (Nat.lt_trans n.toNat_lt (by decide))).symm
  unfold Kernel.memmove
  by_cases hn : n = 0
  · subst hn
    rw [if_pos rfl]
    exact ⟨fun i hi => absurd hi (Nat.not_lt_zero i), fun _ _ => rfl⟩
  · rw [if_neg hn, hwide]
    by_cases hover : src < dst ∧ dst < src + UInt64.ofNat n.toNat
    · rw [if_pos hover]
      exact copyDown_moved mem hdst hsrc (UInt64.le_of_lt hover.1)
    · rw [if_neg hover]
      apply copyUp_moved mem hdst hsrc
      by_cases hlt : src < dst
      · -- The end of the source does not wrap, since the destination lies above it.
        right
        have hend : ¬dst < src + UInt64.ofNat n.toNat := fun h => hover ⟨hlt, h⟩
        rw [UInt64.lt_iff_toNat_lt] at hlt
        rw [UInt64.not_lt, UInt64.le_iff_toNat_le, UInt64.toNat_add, UInt64.toNat_ofNat'] at hend
        omega
      · exact .inl (UInt64.not_lt.mp hlt)

theorem User.memmove_moved {n : Int32} (hn : 0 ≤ n.toInt) (hdst : dst.toNat + n.toInt.toNat ≤ 2 ^ 64)
    (hsrc : src.toNat + n.toInt.toNat ≤ 2 ^ 64) :
    Moved mem (User.memmove mem dst src n).2 dst src n.toInt.toNat := by
  have hwide : n.toInt64.toUInt64 = UInt64.ofNat n.toInt.toNat := by
    have hextend := Kernel.toNat_signExtend n
    have hmax := n.toInt_lt
    apply UInt64.toNat_inj.mp
    rw [UInt64.toNat_ofNat']
    omega
  unfold User.memmove
  by_cases hlt : dst < src
  · rw [if_pos hlt]
    exact copyUp_moved mem hdst hsrc (.inl (UInt64.le_of_lt hlt))
  · rw [if_neg hlt, hwide]
    exact copyDown_moved mem hdst hsrc (UInt64.not_lt.mp hlt)

-- For lengths that both types have.
theorem memmove_moves_under_overlap (dst src : UInt64) (n : UInt32)
    (hdst : dst.toNat + n.toNat ≤ 2 ^ 64) (hsrc : src.toNat + n.toNat ≤ 2 ^ 64) :
    Moved mem (Kernel.memmove mem dst src n).2 dst src n.toNat ∧
    ∀ m : Int32, m.toInt = n.toNat →
      Moved mem (User.memmove mem dst src m).2 dst src n.toNat ∧
      User.memmove mem dst src m = Kernel.memmove mem dst src n := by
  have hkernel := Kernel.memmove_moved mem hdst hsrc
  refine ⟨hkernel, fun m hm => ?_⟩
  have hlen : m.toInt.toNat = n.toNat := by omega
  have huser : Moved mem (User.memmove mem dst src m).2 dst src n.toNat := by
    rw [← hlen] at hdst hsrc ⊢
    exact User.memmove_moved mem (by omega) hdst hsrc
  refine ⟨huser, Prod.ext ?_ (huser.unique hdst hkernel)⟩
  rw [User.memmove_fst, Kernel.memmove_fst]

theorem memmove_moves_up_by_two :
    Moved (fun a => a.toUInt8) (User.memmove (fun a => a.toUInt8) 1002 1000 5).2 1002 1000 5 := by
  have hboth := memmove_moves_under_overlap (fun a => a.toUInt8) 1002 1000 5 (by decide) (by decide)
  exact (hboth.2 5 (by decide)).1

end Memmove

end Xv6Ringbuf
