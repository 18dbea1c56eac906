import Xv6Ringbuf.Fs.Bio
import Xv6Ringbuf.Param

namespace Xv6Ringbuf.Fs

open Interleave Crash

def LOGSIZE : Nat := MAXOPBLOCKS * 3

-- `struct logheader`, which is also the layout of the header block: the count
-- is word 0 and entry `i` is word `i + 1`. Block numbers are 32-bit words.
structure Logheader where
  n : Int32
  block : Fin LOGSIZE → Blockno

structure Log where
  start : Blockno
  size : Int32
  outstanding : Int32
  lh : Logheader

def Logheader.Listed (lh : Logheader) (b : Blockno) : Prop :=
  ∃ i : Fin LOGSIZE, (i : Int) < lh.n.toInt ∧ lh.block i = b

def Log.area (log : Log) : List Blockno :=
  (List.range log.size.toInt.toNat).map fun i => log.start + UInt32.ofNat i

def Log.block (log : Log) (tail : Nat) : Blockno := log.start + UInt32.ofNat tail + 1

def wordByte (word : UInt32) (k : Nat) : UInt8 := UInt8.ofNat (word.toNat / 256 ^ k)

def byteAt (data : Block) (off : Nat) : Nat :=
  if h : off < BSIZE then (data ⟨off, h⟩).toNat else 0

def getWord (data : Block) (i : Nat) : UInt32 :=
  UInt32.ofNat (byteAt data (4 * i) + 256 * byteAt data (4 * i + 1) +
    65536 * byteAt data (4 * i + 2) + 16777216 * byteAt data (4 * i + 3))

def setWord (data : Block) (i : Nat) (word : UInt32) : Block :=
  fun off => if off.val / 4 = i then wordByte word (off.val % 4) else data off

def headCount (data : Block) : Int32 := (getWord data 0).toInt32

def headEntry (data : Block) (i : Nat) : Blockno := getWord data (i + 1)

-- The rounds of a `for` loop over the entries of the header. An entry outside
-- of the array ends the run.
def forEntries (lh : Logheader) (body : Nat → Blockno → Code Unit) : Nat → Nat → Code Unit
  | 0, _ => return ()
  | rounds + 1, tail =>
    if h : tail < LOGSIZE then do
      body tail (lh.block ⟨tail, h⟩)
      forEntries lh body rounds (tail + 1)
    else .halt

def Logheader.rounds (lh : Logheader) : Nat := lh.n.toInt.toNat

def installEntry (log : Log) (recovering : Int32) (tail : Nat) (dst : Blockno) : Code Unit := do
  let lbuf ← bread (log.block tail)
  let _ ← bread dst
  memmove dst lbuf
  bwrite dst
  if recovering = 0 then bunpin dst
  brelse (log.block tail)
  brelse dst

def installTrans (log : Log) (recovering : Int32) : Code Unit :=
  forEntries log.lh (installEntry log recovering) log.lh.rounds 0

def readHead (log : Log) : Code Log := do
  let buf ← bread log.start
  let n := headCount buf
  if LOGSIZE < n.toInt then .halt
  else do
    brelse log.start
    return { log with lh := ⟨n, fun i =>
      if (i : Int) < n.toInt then headEntry buf i else log.lh.block i⟩ }

-- The entries of the in-memory header, copied into the first `n` entries of
-- the header block.
def fillEntries (lh : Logheader) (data : Block) : Nat → Block
  | 0 => data
  | n + 1 =>
    if h : n < LOGSIZE then setWord (fillEntries lh data n) (n + 1) (lh.block ⟨n, h⟩)
    else fillEntries lh data n

def writeHead (log : Log) : Code Unit := do
  let buf ← bread log.start
  if LOGSIZE < log.lh.n.toInt then .halt
  else do
    memmove log.start (fillEntries log.lh (setWord buf 0 log.lh.n.toUInt32) log.lh.rounds)
    bwrite log.start
    brelse log.start

def Log.clear (log : Log) : Log := { log with lh := { log.lh with n := 0 } }

def recoverFromLog (log : Log) : Code Log := do
  let log ← readHead log
  installTrans log 1
  let log := log.clear
  writeHead log
  return log

def logEntry (log : Log) (tail : Nat) (src : Blockno) : Code Unit := do
  let _ ← bread (log.block tail)
  let data ← bread src
  memmove (log.block tail) data
  bwrite (log.block tail)
  brelse src
  brelse (log.block tail)

def writeLog (log : Log) : Code Unit :=
  forEntries log.lh (logEntry log) log.lh.rounds 0

def commit (log : Log) : Code Log :=
  if 0 < log.lh.n then do
    writeLog log
    writeHead log
    installTrans log 0
    let log := log.clear
    writeHead log
    return log
  else return log

-- The index of block `b` among the first `n` entries, or `n` if it is not there.
def entryIndex (lh : Logheader) (b : Blockno) : Nat → Nat → Nat
  | 0, i => i
  | rounds + 1, i =>
    if h : i < LOGSIZE then
      if lh.block ⟨i, h⟩ = b then i else entryIndex lh b rounds (i + 1)
    else i

def logWrite (log : Log) (b : Blockno) : Code Log :=
  if (LOGSIZE : Int) ≤ log.lh.n.toInt ∨ log.size - 1 ≤ log.lh.n then .halt
  else if log.outstanding < 1 then .halt
  else
    let i := entryIndex log.lh b log.lh.rounds 0
    if h : i < LOGSIZE then
      let block := Function.update log.lh.block ⟨i, h⟩ b
      if i = log.lh.rounds then do
        bpin b
        return { log with lh := ⟨log.lh.n + 1, block⟩ }
      else return { log with lh := ⟨log.lh.n, block⟩ }
    else .halt

end Xv6Ringbuf.Fs
