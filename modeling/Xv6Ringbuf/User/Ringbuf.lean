import Xv6Ringbuf.Interleave
import Xv6Ringbuf.Param

namespace Xv6Ringbuf.User

open Interleave Function

def MAX_USR_RINGBUF : Int32 := 10

def USR_RINGBUF_SIZE : UInt64 := 16

-- The macro has no parentheses of its own. A use after `%` is therefore
-- written out at the place where it stands.
def MAX_RINGBUF_BYTES : UInt64 := USR_RINGBUF_SIZE * PGSIZE

structure UserRingBuf where
  buf : UInt64
  book : UInt64
  existsFlag : Int32

-- `user_ring_bufs`. Entries from `MAX_USR_RINGBUF` on stand for the memory
-- behind the array, which an index that is off by one reads.
abbrev UserRingBufs := Nat → UserRingBuf

structure Book where
  readDone : UInt64
  writeDone : UInt64

inductive Cell where
  | readDone
  | writeDone

def Book.get (book : Book) : Cell → UInt64
  | .readDone => book.readDone
  | .writeDone => book.writeDone

def Book.set (book : Book) (value : UInt64) : Cell → Book
  | .readDone => { book with readDone := value }
  | .writeDone => { book with writeDone := value }

-- One ring as its two processes share it. The data pages are the bytes at
-- offsets below `MAX_RINGBUF_BYTES`. The two lists are histories: what the
-- producer has put into its windows and what the consumer has taken out.
structure Ring where
  book : Book
  data : Nat → UInt8
  produced : List UInt8
  consumed : List UInt8

-- A freshly created ring has a zeroed book page.
def fresh (data : Nat → UInt8) : Ring := ⟨⟨0, 0⟩, data, [], []⟩

inductive Act where
  | load (cell : Cell)
  | store (cell : Cell) (value : UInt64)
  | loadByte (buf va : UInt64)
  | storeByte (buf va : UInt64) (byte : UInt8)
  | produce (bytes : List UInt8)
  | consume (bytes : List UInt8)

def Answer : Act → Type
  | .load _ => UInt64
  | .loadByte _ _ => UInt8
  | _ => Unit

-- The pages from `buf` on are the 16 data pages twice, back to back. Any other
-- address is not part of the ring.
def translate (buf va : UInt64) : Option Nat :=
  if (va - buf).toNat < 2 * MAX_RINGBUF_BYTES.toNat then
    some ((va - buf).toNat % MAX_RINGBUF_BYTES.toNat)
  else none

def exec : (a : Act) → Ring → Option (Answer a × Ring)
  | .load cell, s => some (s.book.get cell, s)
  | .store cell value, s => some ((), { s with book := s.book.set value cell })
  | .loadByte buf va, s => (translate buf va).map fun o => (s.data o, s)
  | .storeByte buf va byte, s =>
    (translate buf va).map fun o => ((), { s with data := update s.data o byte })
  | .produce bytes, s => some ((), { s with produced := s.produced ++ bytes })
  | .consume bytes, s => some ((), { s with consumed := s.consumed ++ bytes })

abbrev Code := Prog Act Answer

def load (cell : Cell) : Code UInt64 := Prog.perform (Act.load cell)

def store (cell : Cell) (value : UInt64) : Code Unit := Prog.perform (Act.store cell value)

def loadByte (buf va : UInt64) : Code UInt8 := Prog.perform (Act.loadByte buf va)

def storeByte (buf va : UInt64) (byte : UInt8) : Code Unit :=
  Prog.perform (Act.storeByte buf va byte)

-- An `int` operand next to a `uint64` one is sign extended.
def uint64OfInt (value : Int32) : UInt64 := value.toInt64.toUInt64

-- The cast `(int)` of a `uint64` keeps its low 32 bits.
def intOfUint64 (value : UInt64) : Int32 := value.toInt64.toInt32

def isRdValid (rbs : UserRingBufs) (rd : Int32) : Int32 :=
  if rd < 0 ∨ MAX_USR_RINGBUF < rd ∨ (rbs rd.toNatClampNeg).existsFlag = 0 then -1 else 0

-- The loop of `ringbuf_open` over its table from index `i` on, with the address
-- of the highest data page, which the system call has stored. The table keeps
-- the address of the lowest data page, 31 pages further down.
def claimEntry (rbs : UserRingBufs) (addr : UInt64) : Nat → Nat → UserRingBufs × Int32
  | 0, _ => (rbs, -1)
  | fuel + 1, i =>
    if (rbs i).existsFlag ≠ 1 then
      let buf := addr - (2 * USR_RINGBUF_SIZE - 1) * PGSIZE
      let book := buf - PGSIZE
      (update rbs i ⟨buf, book, 1⟩, Int32.ofNat i)
    else claimEntry rbs addr fuel (i + 1)

-- `result` is what the system call gave: an address, or a failure.
def ringbufOpen (rbs : UserRingBufs) (result : Option UInt64) : UserRingBufs × Int32 :=
  match result with
  | none => (rbs, -1)
  | some addr => claimEntry rbs addr MAX_USR_RINGBUF.toNatClampNeg 0

def ringbufStartRead (rbs : UserRingBufs) (rd : Int32) : Code (UInt64 × Int32) :=
  if isRdValid rbs rd ≠ 0 then .halt else do
    let rb := rbs rd.toNatClampNeg
    let read ← load .readDone
    let write ← load .writeDone
    let srcAddr := rb.buf
    -- `read % MAX_RINGBUF_BYTES` groups as `(read % USR_RINGBUF_SIZE) * PGSIZE`
    let readAddr := srcAddr + read % USR_RINGBUF_SIZE * PGSIZE
    return (readAddr, intOfUint64 (write - read))

def ringbufFinishRead (rbs : UserRingBufs) (rd : Int32) (bytes : Int32) : Code Unit :=
  if isRdValid rbs rd ≠ 0 then .halt else do
    let read ← load .readDone
    let write ← load .writeDone
    if write - read < uint64OfInt bytes then return ()
    else if uint64OfInt bytes ≤ write then store .readDone (read + uint64OfInt bytes)
    else return ()

def ringbufStartWrite (rbs : UserRingBufs) (rd : Int32) : Code (UInt64 × Int32) :=
  if isRdValid rbs rd ≠ 0 then .halt else do
    let rb := rbs rd.toNatClampNeg
    let read ← load .readDone
    let write ← load .writeDone
    let srcAddr := rb.buf
    let writeAddr := srcAddr + write % MAX_RINGBUF_BYTES
    return (writeAddr, intOfUint64 (MAX_RINGBUF_BYTES - (write - read)))

def ringbufFinishWrite (rbs : UserRingBufs) (rd : Int32) (bytes : Int32) : Code Unit :=
  if isRdValid rbs rd ≠ 0 then .halt else do
    let read ← load .readDone
    let write ← load .writeDone
    if MAX_RINGBUF_BYTES - (write - read) < uint64OfInt bytes then .halt
    else store .writeDone (write + uint64OfInt bytes)

-- The offsets of an `n` byte copy in the order in which `memmove` touches them.
def copyOrder (dst src : UInt64) (n : Nat) : List Nat :=
  if dst < src then List.range n else (List.range n).reverse

-- A copy into the window, one byte store at a time, in the given order.
def storeBytes (buf dst : UInt64) (bytes : Nat → UInt8) : List Nat → Code Unit
  | [] => return ()
  | i :: rest => do
      storeByte buf (dst + UInt64.ofNat i) (bytes i)
      storeBytes buf dst bytes rest

-- A copy out of the window into a private buffer.
def loadBytes (buf src : UInt64) : List Nat → (Nat → UInt8) → Code (Nat → UInt8)
  | [], out => return out
  | i :: rest, out => do
      let byte ← loadByte buf (src + UInt64.ofNat i)
      loadBytes buf src rest (update out i byte)

end Xv6Ringbuf.User
