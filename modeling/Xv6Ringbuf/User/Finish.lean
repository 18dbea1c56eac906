import Xv6Ringbuf.User.Library
import Xv6Ringbuf.User.Calls

namespace Xv6Ringbuf.User.Library

open Interleave Function

-- Book pages that no other process changes while the call runs. The calls here make
-- no system call.
def pages : World (UInt64 → Book) where
  ringbuf _ _ _ books := ((-1, 0), books)
  load page cell books := ((books page).get cell, books)
  store page cell value books := update books page ((books page).set value cell)

def stored (book : Book) : Nat := (book.writeDone - book.readDone).toNat

-- What the two finish calls are for: the count moves the caller's counter if it is
-- within the bounds, and otherwise nothing changes.
def finishRead (book : Book) (n : Int32) : Book :=
  if 0 ≤ n.toInt ∧ n.toInt ≤ stored book then
    { book with readDone := book.readDone + UInt64.ofNat n.toInt.toNat }
  else book

def finishWrite (book : Book) (n : Int32) : Option Book :=
  if 0 ≤ n.toInt ∧ n.toInt + stored book ≤ 65536 then
    some { book with writeDone := book.writeDone + UInt64.ofNat n.toInt.toNat }
  else none

section Finish

variable {s : Process (UInt64 → Book)} {rd : Int32}

def Process.page (s : Process (UInt64 → Book)) (rd : Int32) : UInt64 := (s.table rd.toNatClampNeg).book

def Process.book (s : Process (UInt64 → Book)) (rd : Int32) : Book := s.world (s.page rd)

def Process.loaded (s : Process (UInt64 → Book)) (rd : Int32) : Process (UInt64 → Book) :=
  { s with log := s.log ++ checkLog rd ++ [.read rd.toNatClampNeg] ++ [.book (s.page rd)] ++
      [.book (s.page rd)] }

theorem play_counters {α : Type} (f : UserRingBuf → UInt64 → UInt64 → Code α)
    (hrd : User.isRdValid s.table rd = 0) :
    (isRdValid rd >>= fun r => if r ≠ 0 then .halt else slot rd.toNatClampNeg >>= fun rb =>
        load rb.book .readDone >>= fun read => load rb.book .writeDone >>= fun write =>
          f rb read write).play (perform pages) s =
      (f (s.table rd.toNatClampNeg) (s.book rd).readDone (s.book rd).writeDone).play (perform pages)
        (s.loaded rd) := by
  rw [play_checked, if_neg (not_not.mpr hrd)]
  rfl

theorem play_store (page : UInt64) (cell : Cell) (value : UInt64) (s : Process (UInt64 → Book)) :
    (store page cell value).play (perform pages) s =
      (some (), ⟨s.table, update s.world page ((s.world page).set value cell),
        s.log ++ [.book page]⟩) := rfl

-- How a call ends, whatever it accesses on its way.
def Ends {α : Type} (p : Code α) (s : Process (UInt64 → Book)) (value : Option α)
    (books : UInt64 → Book) : Prop :=
  (p.play (perform pages) s).1 = value ∧ (p.play (perform pages) s).2.world = books

variable (n : Int32) (hrd : User.isRdValid s.table rd = 0)

include hrd

theorem ends_finishRead (books : UInt64 → Book) :
    Ends (ringbufFinishRead rd n) s (some ()) books ↔
      (if (s.book rd).writeDone - (s.book rd).readDone < uint64OfInt n then s.world
        else if uint64OfInt n ≤ (s.book rd).writeDone then
          update s.world (s.page rd)
            { s.book rd with readDone := (s.book rd).readDone + uint64OfInt n }
        else s.world) = books := by
  rw [Ends, ringbufFinishRead, play_counters _ hrd]
  by_cases hmore : (s.book rd).writeDone - (s.book rd).readDone < uint64OfInt n
  · rw [if_pos hmore, if_pos hmore]
    exact and_iff_right rfl
  · rw [if_neg hmore, if_neg hmore]
    by_cases hless : uint64OfInt n ≤ (s.book rd).writeDone
    · rw [if_pos hless, if_pos hless, play_store]
      exact and_iff_right rfl
    · rw [if_neg hless, if_neg hless]
      exact and_iff_right rfl

theorem ends_finishWrite (value : Option Unit) (books : UInt64 → Book) :
    Ends (ringbufFinishWrite rd n) s value books ↔
      (if MAX_RINGBUF_BYTES - ((s.book rd).writeDone - (s.book rd).readDone) < uint64OfInt n then
        (none, s.world)
      else (some (), update s.world (s.page rd)
        { s.book rd with writeDone := (s.book rd).writeDone + uint64OfInt n })) = (value, books) := by
  rw [Ends, ringbufFinishWrite, play_counters _ hrd]
  by_cases hmore : MAX_RINGBUF_BYTES - ((s.book rd).writeDone - (s.book rd).readDone) < uint64OfInt n
  · rw [if_pos hmore, if_pos hmore, Prod.mk.injEq]
    rfl
  · rw [if_neg hmore, if_neg hmore, play_store, Prod.mk.injEq]
    rfl

end Finish

section Exact

variable (s : Process (UInt64 → Book)) (rd n : Int32)

def ReadExact : Prop :=
  Ends (ringbufFinishRead rd n) s (some ())
    (update s.world (s.page rd) (finishRead (s.book rd) n))

def WriteExact : Prop :=
  match finishWrite (s.book rd) n with
  | some book => Ends (ringbufFinishWrite rd n) s (some ()) (update s.world (s.page rd) book)
  | none => Ends (ringbufFinishWrite rd n) s none s.world

variable {s rd n} (hrd : User.isRdValid s.table rd = 0) (hstored : stored (s.book rd) ≤ 65536)

theorem uint64OfInt_of_nonneg (h : 0 ≤ n.toInt) : uint64OfInt n = UInt64.ofNat n.toInt.toNat := by
  apply UInt64.toNat_inj.mp
  have hlt := n.toInt_lt
  rw [toNat_uint64OfInt_of_nonneg n h, UInt64.toNat_ofNat']
  omega

include hrd hstored

theorem readExact_iff : ReadExact s rd n ↔
    (0 ≤ n.toInt → n.toInt ≤ stored (s.book rd) → n.toInt ≤ (s.book rd).writeDone.toNat) := by
  have hle := uint64OfInt_le_iff n ((s.book rd).writeDone - (s.book rd).readDone) (by
    rw [stored] at hstored
    omega)
  rw [ReadExact, ends_finishRead n hrd, finishRead]
  by_cases hin : 0 ≤ n.toInt ∧ n.toInt ≤ stored (s.book rd)
  · have hnat := toNat_uint64OfInt_of_nonneg n hin.1
    rw [if_neg (UInt64.not_lt.mpr (hle.mpr hin)), if_pos hin, ← uint64OfInt_of_nonneg hin.1]
    by_cases hless : uint64OfInt n ≤ (s.book rd).writeDone
    · rw [if_pos hless]
      rw [UInt64.le_iff_toNat_le] at hless
      exact iff_of_true rfl fun _ _ => by omega
    · rw [if_neg hless]
      rw [UInt64.le_iff_toNat_le] at hless
      refine iff_of_false (fun heq => ?_) fun himp => ?_
      · -- the counter would have to move
        have hat := congrArg (fun books => (books (s.page rd)).readDone) heq
        simp only [update_self] at hat
        change (s.book rd).readDone = (s.book rd).readDone + uint64OfInt n at hat
        have hzero : uint64OfInt n = 0 := by simpa using hat.symm
        rw [hzero] at hless
        exact hless (Nat.zero_le _)
      · have hto := himp hin.1 hin.2
        omega
  · rw [if_pos (UInt64.not_le.mp fun h => hin (hle.mp h)), if_neg hin]
    refine iff_of_true ?_ fun hpos hbound => absurd ⟨hpos, hbound⟩ hin
    exact (update_eq_self _ _).symm

theorem writeExact : WriteExact s rd n := by
  have hfree : (MAX_RINGBUF_BYTES - ((s.book rd).writeDone - (s.book rd).readDone)).toNat =
      65536 - stored (s.book rd) := by
    rw [stored] at hstored ⊢
    rw [UInt64.toNat_sub, toNat_MAX_RINGBUF_BYTES]
    omega
  have hle := uint64OfInt_le_iff n
    (MAX_RINGBUF_BYTES - ((s.book rd).writeDone - (s.book rd).readDone)) (by omega)
  rw [WriteExact, finishWrite]
  by_cases hin : 0 ≤ n.toInt ∧ n.toInt + stored (s.book rd) ≤ 65536
  · rw [if_pos hin]
    simp only [ends_finishWrite n hrd]
    rw [if_neg (UInt64.not_lt.mpr (hle.mpr ⟨hin.1, by omega⟩)), uint64OfInt_of_nonneg hin.1]
  · rw [if_neg hin]
    simp only [ends_finishWrite n hrd]
    rw [if_pos]
    apply UInt64.not_le.mp
    intro hbound
    have hcount := hle.mp hbound
    exact hin ⟨hcount.1, by omega⟩

end Exact

-- The second test of `ringbuf_finish_read` compares the count with the counter itself.
theorem finish_calls_exact_iff (s : Process (UInt64 → Book)) (rd n : Int32)
    (hrd : User.isRdValid s.table rd = 0) (hstored : stored (s.book rd) ≤ 65536) :
    ReadExact s rd n ∧ WriteExact s rd n ↔
      (0 ≤ n.toInt → n.toInt ≤ stored (s.book rd) → n.toInt ≤ (s.book rd).writeDone.toNat) := by
  rw [readExact_iff hrd hstored]
  exact and_iff_left (writeExact hrd hstored)

def processWith (book : Book) : Process (UInt64 → Book) :=
  ⟨fun _ => ⟨0x5000, 0x4000, 1⟩, fun _ => book, []⟩

theorem finish_calls_exact_iff_started : ReadExact (processWith ⟨1, 3⟩) 0 2 ∧
    WriteExact (processWith ⟨1, 3⟩) 0 2 :=
  (finish_calls_exact_iff (processWith ⟨1, 3⟩) 0 2 (by decide) (by decide)).mpr (by decide)

-- `write_done` has wrapped to 0 and `read_done` is one behind it: the byte cannot
-- be taken out.
theorem finish_read_stuck_after_wrap :
    stored ⟨0xffffffffffffffff, 0⟩ = 1 ∧
    ((ringbufFinishRead 0 1).play (perform pages) (processWith ⟨0xffffffffffffffff, 0⟩)).1 = some () ∧
    (((ringbufFinishRead 0 1).play (perform pages) (processWith ⟨0xffffffffffffffff, 0⟩)).2.world
      0x4000).readDone = 0xffffffffffffffff ∧
    ¬ReadExact (processWith ⟨0xffffffffffffffff, 0⟩) 0 1 := by
  refine ⟨by decide, by decide, by decide, ?_⟩
  rw [readExact_iff (by decide) (by decide)]
  decide

end Xv6Ringbuf.User.Library
