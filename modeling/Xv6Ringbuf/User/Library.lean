import Xv6Ringbuf.User.Ringbuf

namespace Xv6Ringbuf.User.Library

open Interleave

-- What the library does to the memory of its process and to the kernel: the accesses
-- to `user_ring_bufs`, the system call with its name, its flag and the variable
-- whose address it passes, and the accesses to a book page.
inductive Op where
  | slot (i : Nat)
  | setSlot (i : Nat) (rb : UserRingBuf)
  | ringbuf (name : List UInt8) (opens : Int32) (addr : UInt64)
  | load (book : UInt64) (cell : Cell)
  | store (book : UInt64) (cell : Cell) (value : UInt64)

-- The system call gives its result and leaves a value in the variable.
abbrev Reply : Op → Type
  | .slot _ => UserRingBuf
  | .setSlot _ _ => Unit
  | .ringbuf _ _ _ => Int32 × UInt64
  | .load _ _ => UInt64
  | .store _ _ _ => Unit

abbrev Code := Prog Op Reply

def slot (i : Nat) : Code UserRingBuf := Prog.perform (Op.slot i)

def setSlot (i : Nat) (rb : UserRingBuf) : Code Unit := Prog.perform (Op.setSlot i rb)

def ringbuf (name : List UInt8) (opens : Int32) (addr : UInt64) : Code (Int32 × UInt64) :=
  Prog.perform (Op.ringbuf name opens addr)

def load (book : UInt64) (cell : Cell) : Code UInt64 := Prog.perform (Op.load book cell)

def store (book : UInt64) (cell : Cell) (value : UInt64) : Code Unit :=
  Prog.perform (Op.store book cell value)

-- `||` looks at the table only if the index has passed.
def isRdValid (rd : Int32) : Code Int32 :=
  if rd < 0 ∨ MAX_USR_RINGBUF < rd then return -1 else do
    let rb ← slot rd.toNatClampNeg
    if rb.existsFlag = 0 then return -1 else return 0

def ringbufStartRead (rd : Int32) : Code (UInt64 × Int32) := do
  if (← isRdValid rd) ≠ 0 then .halt else do
    let rb ← slot rd.toNatClampNeg
    let read ← load rb.book .readDone
    let write ← load rb.book .writeDone
    return (rb.buf + read % USR_RINGBUF_SIZE * PGSIZE, intOfUint64 (write - read))

def ringbufFinishRead (rd : Int32) (bytes : Int32) : Code Unit := do
  if (← isRdValid rd) ≠ 0 then .halt else do
    let rb ← slot rd.toNatClampNeg
    let read ← load rb.book .readDone
    let write ← load rb.book .writeDone
    if write - read < uint64OfInt bytes then return ()
    else if uint64OfInt bytes ≤ write then store rb.book .readDone (read + uint64OfInt bytes)
    else return ()

def ringbufStartWrite (rd : Int32) : Code (UInt64 × Int32) := do
  if (← isRdValid rd) ≠ 0 then .halt else do
    let rb ← slot rd.toNatClampNeg
    let read ← load rb.book .readDone
    let write ← load rb.book .writeDone
    return (rb.buf + write % MAX_RINGBUF_BYTES, intOfUint64 (MAX_RINGBUF_BYTES - (write - read)))

def ringbufFinishWrite (rd : Int32) (bytes : Int32) : Code Unit := do
  if (← isRdValid rd) ≠ 0 then .halt else do
    let rb ← slot rd.toNatClampNeg
    let read ← load rb.book .readDone
    let write ← load rb.book .writeDone
    if MAX_RINGBUF_BYTES - (write - read) < uint64OfInt bytes then .halt
    else store rb.book .writeDone (write + uint64OfInt bytes)

-- The loop of `ringbuf_open` from index `i` on.
def claimEntry (addr : UInt64) : Nat → Nat → Code Int32
  | 0, _ => return -1
  | fuel + 1, i => do
      let rb ← slot i
      if rb.existsFlag ≠ 1 then do
        let buf := addr - (2 * USR_RINGBUF_SIZE - 1) * PGSIZE
        let book := buf - PGSIZE
        setSlot i ⟨buf, book, 1⟩
        return Int32.ofNat i
      else claimEntry addr fuel (i + 1)

-- `addr` is what the local variable holds before the call.
def ringbufOpen (name : List UInt8) (addr : UInt64) : Code Int32 := do
  let (result, addr) ← ringbuf name 1 addr
  if result ≠ 0 then return -1
  else claimEntry addr MAX_USR_RINGBUF.toNatClampNeg 0

def ringbufClose (rd : Int32) (name : List UInt8) : Code Int32 := do
  if (← isRdValid rd) ≠ 0 then .halt else do
    let rb ← slot rd.toNatClampNeg
    let (result, _) ← ringbuf name 0 (rb.buf + (2 * USR_RINGBUF_SIZE - 1) * PGSIZE)
    if result ≠ 0 then return -1
    else do
      setSlot rd.toNatClampNeg ⟨0, 0, 0⟩
      return 0

-- The kernel and the other processes that share the book pages may do anything.
structure World (ω : Type) where
  ringbuf : List UInt8 → Int32 → UInt64 → ω → (Int32 × UInt64) × ω
  load : UInt64 → Cell → ω → UInt64 × ω
  store : UInt64 → Cell → UInt64 → ω → ω

inductive Access where
  | read (i : Nat)
  | write (i : Nat)
  | call
  | book (page : UInt64)
deriving DecidableEq

-- A process with its table, all that is outside of it, and a record of the accesses.
structure Process (ω : Type) where
  table : UserRingBufs
  world : ω
  log : List Access

variable {ω : Type} (w : World ω)

def perform : (op : Op) → Process ω → Reply op × Process ω
  | .slot i, s => (s.table i, { s with log := s.log ++ [.read i] })
  | .setSlot i rb, s =>
    ((), { s with table := Function.update s.table i rb, log := s.log ++ [.write i] })
  | .ringbuf name opens addr, s =>
    ((w.ringbuf name opens addr s.world).1,
      { s with world := (w.ringbuf name opens addr s.world).2, log := s.log ++ [.call] })
  | .load book cell, s =>
    ((w.load book cell s.world).1,
      { s with world := (w.load book cell s.world).2, log := s.log ++ [.book book] })
  | .store book cell value, s =>
    ((), { s with world := w.store book cell value s.world, log := s.log ++ [.book book] })

variable {w}

section Ops

variable {α : Type} (s : Process ω)

theorem play_slot (i : Nat) (f : UserRingBuf → Code α) :
    (slot i >>= f).play (perform w) s =
      (f (s.table i)).play (perform w) { s with log := s.log ++ [.read i] } := rfl

theorem play_ringbuf (name : List UInt8) (opens : Int32) (addr : UInt64)
    (f : Int32 × UInt64 → Code α) :
    (ringbuf name opens addr >>= f).play (perform w) s =
      (f (w.ringbuf name opens addr s.world).1).play (perform w)
        { s with world := (w.ringbuf name opens addr s.world).2, log := s.log ++ [.call] } := rfl

end Ops

-- The check reads the entry of the descriptor if the index passes.
def checkLog (rd : Int32) : List Access :=
  if rd < 0 ∨ MAX_USR_RINGBUF < rd then [] else [.read rd.toNatClampNeg]

theorem isRdValid_eq (table : UserRingBufs) (rd : Int32) :
    User.isRdValid table rd = if rd < 0 ∨ MAX_USR_RINGBUF < rd then -1
      else if (table rd.toNatClampNeg).existsFlag = 0 then -1 else 0 := by
  rw [User.isRdValid]
  by_cases hrange : rd < 0 ∨ MAX_USR_RINGBUF < rd
  · rw [if_pos hrange, if_pos (or_assoc.mp (.inl hrange))]
  · simp only [← or_assoc, hrange, false_or, if_false]

section OnRing

variable (rbs : UserRingBufs) (page : UInt64) {α : Type}

-- The library seen from the one ring whose book page is at `page`, with a table that
-- stays as it is. Code that changes the table, enters the kernel or goes to another
-- ring has no meaning there.
def onRing : Code α → User.Code α
  | .ret value => .ret value
  | .halt => .halt
  | .act (.slot i) next => onRing (next (rbs i))
  | .act (.load book cell) next =>
    if book = page then .act (.load cell) fun value => onRing (next value) else .halt
  | .act (.store book cell value) next =>
    if book = page then .act (.store cell value) fun answer => onRing (next answer) else .halt
  | .act (.setSlot _ _) _ => .halt
  | .act (.ringbuf _ _ _) _ => .halt

theorem onRing_load (cell : Cell) (f : UInt64 → Code α) :
    onRing rbs page (load page cell >>= f) = User.load cell >>= fun value => onRing rbs page (f value) :=
  if_pos rfl

theorem onRing_store (cell : Cell) (value : UInt64) :
    onRing rbs page (store page cell value) = User.store cell value :=
  if_pos rfl

theorem onRing_ite (p : Prop) [Decidable p] (a b : Code α) :
    onRing rbs page (if p then a else b) = if p then onRing rbs page a else onRing rbs page b :=
  apply_ite _ p a b

theorem onRing_checked (rd : Int32) (f : UserRingBuf → Code α) :
    onRing rbs page
        (isRdValid rd >>= fun r => if r ≠ 0 then .halt else slot rd.toNatClampNeg >>= f) =
      if User.isRdValid rbs rd ≠ 0 then .halt else onRing rbs page (f (rbs rd.toNatClampNeg)) := by
  rw [isRdValid_eq, isRdValid]
  by_cases hrange : rd < 0 ∨ MAX_USR_RINGBUF < rd
  · rw [if_pos hrange, if_pos hrange]
    rfl
  · rw [if_neg hrange, if_neg hrange]
    show onRing rbs page ((if (rbs rd.toNatClampNeg).existsFlag = 0 then Prog.ret (-1) else .ret 0).bind
      fun r => if r ≠ 0 then .halt else slot rd.toNatClampNeg >>= f) = _
    by_cases hexists : (rbs rd.toNatClampNeg).existsFlag = 0
    · rw [if_pos hexists, if_pos hexists]
      rfl
    · rw [if_neg hexists, if_neg hexists]
      rfl

-- The two readings of each function agree on the ring of its descriptor.
theorem ringbufStartRead_onRing (rd : Int32) :
    onRing rbs (rbs rd.toNatClampNeg).book (ringbufStartRead rd) = User.ringbufStartRead rbs rd := by
  rw [ringbufStartRead, onRing_checked]
  simp only [onRing_load]
  rfl

theorem ringbufFinishRead_onRing (rd bytes : Int32) :
    onRing rbs (rbs rd.toNatClampNeg).book (ringbufFinishRead rd bytes) =
      User.ringbufFinishRead rbs rd bytes := by
  rw [ringbufFinishRead, onRing_checked]
  simp only [onRing_load, onRing_ite, onRing_store]
  rfl

theorem ringbufStartWrite_onRing (rd : Int32) :
    onRing rbs (rbs rd.toNatClampNeg).book (ringbufStartWrite rd) = User.ringbufStartWrite rbs rd := by
  rw [ringbufStartWrite, onRing_checked]
  simp only [onRing_load]
  rfl

theorem ringbufFinishWrite_onRing (rd bytes : Int32) :
    onRing rbs (rbs rd.toNatClampNeg).book (ringbufFinishWrite rd bytes) =
      User.ringbufFinishWrite rbs rd bytes := by
  rw [ringbufFinishWrite, onRing_checked]
  simp only [onRing_load, onRing_ite, onRing_store]
  rfl

end OnRing

theorem play_isRdValid (rd : Int32) (s : Process ω) :
    (isRdValid rd).play (perform w) s =
      (some (User.isRdValid s.table rd), { s with log := s.log ++ checkLog rd }) := by
  rw [isRdValid_eq, isRdValid, checkLog]
  by_cases hrange : rd < 0 ∨ MAX_USR_RINGBUF < rd
  · rw [if_pos hrange, if_pos hrange, if_pos hrange, List.append_nil]
    rfl
  · rw [if_neg hrange, if_neg hrange, if_neg hrange, play_slot]
    by_cases hexists : (s.table rd.toNatClampNeg).existsFlag = 0
    · rw [if_pos hexists, if_pos hexists]
      rfl
    · rw [if_neg hexists, if_neg hexists]
      rfl

theorem play_checked {α : Type} (rd : Int32) (body : Code α) (s : Process ω) :
    (isRdValid rd >>= fun r => if r ≠ 0 then .halt else body).play (perform w) s =
      if User.isRdValid s.table rd ≠ 0 then (none, { s with log := s.log ++ checkLog rd })
      else body.play (perform w) { s with log := s.log ++ checkLog rd } := by
  rw [Prog.play_bind, play_isRdValid]
  by_cases hrd : User.isRdValid s.table rd = 0
  · simp only [hrd, ne_eq, not_true_eq_false, if_false]
  · simp only [hrd, ne_eq, not_false_eq_true, if_true]
    rfl

theorem play_claimEntry (addr : UInt64) (fuel i : Nat) (s : Process ω) :
    ∃ log, (claimEntry addr fuel i).play (perform w) s =
      (some (User.claimEntry s.table addr fuel i).2,
        ⟨(User.claimEntry s.table addr fuel i).1, s.world, s.log ++ log⟩) ∧
      ∀ a ∈ log, ∃ j, i ≤ j ∧ j < i + fuel ∧ (a = .read j ∨ a = .write j) := by
  induction fuel generalizing i s with
  | zero => exact ⟨[], by rw [List.append_nil]; rfl, by simp⟩
  | succ fuel ih =>
    rw [claimEntry, User.claimEntry, play_slot]
    by_cases hfree : (s.table i).existsFlag ≠ 1
    · rw [if_pos hfree, if_pos hfree]
      refine ⟨[.read i, .write i], ?_, ?_⟩
      · rw [show s.log ++ [.read i, .write i] = s.log ++ [.read i] ++ [.write i] by simp]
        rfl
      · intro a ha
        refine ⟨i, Nat.le_refl i, by omega, ?_⟩
        simpa using ha
    · rw [if_neg hfree, if_neg hfree]
      obtain ⟨log, hplay, hlog⟩ := ih (i + 1) { s with log := s.log ++ [.read i] }
      refine ⟨.read i :: log, ?_, ?_⟩
      · rw [hplay, List.append_assoc, List.singleton_append]
      · intro a ha
        cases List.mem_cons.mp ha with
        | inl hhead => exact ⟨i, Nat.le_refl i, by omega, .inl hhead⟩
        | inr htail =>
          obtain ⟨j, hle, hlt, haccess⟩ := hlog a htail
          exact ⟨j, by omega, by omega, haccess⟩

end Xv6Ringbuf.User.Library
