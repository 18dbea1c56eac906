import Xv6Ringbuf.Fs.Layout

namespace Xv6Ringbuf.Fs

open Interleave

def NOFILE : Nat := 16

def NFILE : Nat := 100

def NDEV : Int16 := 10

-- The panics of fs.c, file.c and sysfile.c, and of the calls into bio.c.
inductive FsPanic where
  | freeingFreeBlock
  | ilock
  | ilockNoType
  | iunlock
  | igetNoInodes
  | bmapOutOfRange
  | dirlookupNotDir
  | dirlookupRead
  | dirlinkRead
  | unlinkNlink
  | isdiremptyReadi
  | unlinkWritei
  | fileclose
  | filedup
  | fileread
  | filewrite
  deriving DecidableEq

abbrev Fp := Fin NFILE

abbrev Fd := Fin NOFILE

inductive FileType where
  | FD_NONE
  | FD_INODE
  | FD_DEVICE
  deriving DecidableEq

-- `struct file`, without pipes.
structure File where
  type : FileType
  ref : Nat
  readable : Bool
  writable : Bool
  ip : Ip
  off : UInt32
  major : Int16

-- What the file system uses of `struct proc`.
structure Proc where
  cwd : Ip
  ofile : Fd → Option Fp

-- The steps of the file system code that touch shared state. A section under a
-- spin lock is one step.
inductive Sys where
  | bio (a : Act)
  | logWrite (b : Blockno)
  | beginOp
  | endOp
  | committed (log : Log)
  | iget (dev inum : UInt32)
  | idup (i : Ip)
  | inode (i : Ip)
  | setDin (i : Ip) (din : Dinode)
  | setValid (i : Ip) (valid : Bool)
  | acquiresleep (i : Ip)
  | releasesleep (i : Ip)
  | lastRef (i : Ip)
  | drop (i : Ip)
  | proc
  | setCwd (i : Ip)
  | setOfile (fd : Fd) (f : Option Fp)
  | filealloc
  | file (f : Fp)
  | setFile (f : Fp) (file : File)
  | filedup (f : Fp)
  | fileclose (f : Fp)
  | panic (p : FsPanic)

-- `endOp` answers with the log if this process has to commit it, and
-- `fileclose` with the file if this was the last reference to it.
abbrev Sys.Answer : Sys → Type
  | .bio a => Fs.Answer a
  | .endOp => Option Log
  | .iget _ _ => Ip
  | .inode _ => Inode
  | .lastRef _ => Bool
  | .proc => Proc
  | .filealloc => Option Fp
  | .file _ => File
  | .fileclose _ => Option File
  | .panic _ => Empty
  | _ => Unit

abbrev Fsys := Prog Sys Sys.Answer

namespace Fsys

def bread (b : Blockno) : Fsys Block := .perform (Sys.bio (.bread b))

def memmove (b : Blockno) (data : Block) : Fsys Unit := .perform (Sys.bio (.memmove b data))

def brelse (b : Blockno) : Fsys Unit := .perform (Sys.bio (.brelse b))

def logWrite (b : Blockno) : Fsys Unit := .perform (Sys.logWrite b)

def iget (dev inum : UInt32) : Fsys Ip := .perform (Sys.iget dev inum)

def idup (i : Ip) : Fsys Unit := .perform (Sys.idup i)

def inode (i : Ip) : Fsys Inode := .perform (Sys.inode i)

def setDin (i : Ip) (din : Dinode) : Fsys Unit := .perform (Sys.setDin i din)

def setValid (i : Ip) (valid : Bool) : Fsys Unit := .perform (Sys.setValid i valid)

def acquiresleep (i : Ip) : Fsys Unit := .perform (Sys.acquiresleep i)

def releasesleep (i : Ip) : Fsys Unit := .perform (Sys.releasesleep i)

def lastRef (i : Ip) : Fsys Bool := .perform (Sys.lastRef i)

def drop (i : Ip) : Fsys Unit := .perform (Sys.drop i)

def proc : Fsys Proc := .perform Sys.proc

def panic {α : Type} (p : FsPanic) : Fsys α := .act (Sys.panic p) Empty.elim

def beginOp : Fsys Unit := .perform Sys.beginOp

def ofCode {α : Type} : Code α → Fsys α
  | .ret value => .ret value
  | .halt => .halt
  | .act a next => .act (Sys.bio a) fun answer => ofCode (next answer)

-- The last operation to end commits the log.
def endOp : Fsys Unit := do
  match ← .perform Sys.endOp with
  | some log =>
    let log ← ofCode (commit log)
    .perform (Sys.committed log)
  | none => return ()

variable (sb : Superblock)

def bzero (bno : Blockno) : Fsys Unit := do
  let _ ← bread bno
  memmove bno zeroBlock
  logWrite bno
  brelse bno

-- The first clear bit of a bitmap block from bit `bi` on. Bit 0 stands for block
-- `b`.
def freeBit (data : Block) (b : Nat) : Nat → Nat → Option Nat
  | 0, _ => none
  | rounds + 1, bi =>
    if b + bi < sb.size.toNat then
      if getBit data bi then freeBit data b rounds (bi + 1) else some bi
    else none

def ballocFrom : Nat → Nat → Fsys Blockno
  | 0, _ => return 0
  | rounds + 1, b => do
      let bno := BBLOCK sb (UInt32.ofNat b)
      let data ← bread bno
      match freeBit sb data b BPB 0 with
      | some bi =>
        memmove bno (setBit data bi)
        logWrite bno
        brelse bno
        bzero (UInt32.ofNat (b + bi))
        return UInt32.ofNat (b + bi)
      | none =>
        brelse bno
        ballocFrom rounds (b + BPB)

def balloc : Fsys Blockno := ballocFrom sb ((sb.size.toNat + BPB - 1) / BPB) 0

def bfree (b : Blockno) : Fsys Unit := do
  let bno := BBLOCK sb b
  let data ← bread bno
  let bi := b.toNat % BPB
  if getBit data bi then
    memmove bno (clearBit data bi)
    logWrite bno
    brelse bno
  else panic .freeingFreeBlock

def iallocFrom (dev : UInt32) (type : Int16) : Nat → UInt32 → Fsys (Option Ip)
  | 0, _ => return none
  | rounds + 1, inum => do
      let bno := IBLOCK sb inum
      let data ← bread bno
      if (getDinode data (inum.toNat % IPB)).type = 0 then
        memmove bno (setDinode data (inum.toNat % IPB) { Dinode.zero with type := type })
        logWrite bno
        brelse bno
        return some (← iget dev inum)
      else
        brelse bno
        iallocFrom dev type rounds (inum + 1)

def ialloc (dev : UInt32) (type : Int16) : Fsys (Option Ip) :=
  iallocFrom sb dev type (sb.ninodes.toNat - 1) 1

def iupdate (i : Ip) : Fsys Unit := do
  let ip ← inode i
  let bno := IBLOCK sb ip.inum
  let data ← bread bno
  memmove bno (setDinode data (ip.inum.toNat % IPB) ip.din)
  logWrite bno
  brelse bno

def ilock (i : Ip) : Fsys Unit := do
  let ip ← inode i
  if ip.ref < 1 then panic .ilock
  else
    acquiresleep i
    let ip ← inode i
    if ip.valid then return ()
    else
      let bno := IBLOCK sb ip.inum
      let data ← bread bno
      let din := getDinode data (ip.inum.toNat % IPB)
      setDin i din
      brelse bno
      setValid i true
      if din.type = 0 then panic .ilockNoType else return ()

def iunlock (i : Ip) : Fsys Unit := do
  let ip ← inode i
  if ip.ref < 1 then panic .iunlock else releasesleep i

def setAddr (i : Ip) (slot : Fin (NDIRECT + 1)) (addr : Blockno) : Fsys Unit := do
  let ip ← inode i
  setDin i { ip.din with addrs := Function.update ip.din.addrs slot addr }

-- The address in a slot of the inode. An empty slot is given a new block.
def bmapSlot (i : Ip) (slot : Fin (NDIRECT + 1)) : Fsys Blockno := do
  let ip ← inode i
  if ip.din.addrs slot = 0 then
    let addr ← balloc sb
    if addr = 0 then return 0
    else
      setAddr i slot addr
      return addr
  else return ip.din.addrs slot

def bmap (i : Ip) (bn : Nat) : Fsys Blockno :=
  if h : bn < NDIRECT then bmapSlot sb i ⟨bn, by omega⟩
  else if bn - NDIRECT < NINDIRECT then do
    let addr ← bmapSlot sb i (Fin.last NDIRECT)
    if addr = 0 then return 0
    else
      let data ← bread addr
      let entry := getWord data (bn - NDIRECT)
      if entry = 0 then
        let new ← balloc sb
        if new = 0 then
          brelse addr
          return 0
        else
          memmove addr (setWord data (bn - NDIRECT) new)
          logWrite addr
          brelse addr
          return new
      else
        brelse addr
        return entry
  else panic .bmapOutOfRange

def itruncDirect (i : Ip) : Nat → Nat → Fsys Unit
  | 0, _ => return ()
  | rounds + 1, n => do
      if h : n < NDIRECT then
        let ip ← inode i
        let slot : Fin (NDIRECT + 1) := ⟨n, by omega⟩
        if ip.din.addrs slot = 0 then itruncDirect i rounds (n + 1)
        else
          bfree sb (ip.din.addrs slot)
          setAddr i slot 0
          itruncDirect i rounds (n + 1)
      else return ()

def bfreeEntries (data : Block) : Nat → Nat → Fsys Unit
  | 0, _ => return ()
  | rounds + 1, j => do
      if getWord data j = 0 then bfreeEntries data rounds (j + 1)
      else
        bfree sb (getWord data j)
        bfreeEntries data rounds (j + 1)

def itrunc (i : Ip) : Fsys Unit := do
  itruncDirect sb i NDIRECT 0
  let ip ← inode i
  let addr := ip.din.addrs (Fin.last NDIRECT)
  if addr ≠ 0 then
    let data ← bread addr
    bfreeEntries sb data NINDIRECT 0
    brelse addr
    bfree sb addr
    setAddr i (Fin.last NDIRECT) 0
  let ip ← inode i
  setDin i { ip.din with size := 0 }
  iupdate sb i

-- The last reference to an inode without a name frees it.
def iput (i : Ip) : Fsys Unit := do
  if ← lastRef i then
    itrunc sb i
    let ip ← inode i
    setDin i { ip.din with type := 0 }
    iupdate sb i
    setValid i false
    releasesleep i
  drop i

def iunlockput (i : Ip) : Fsys Unit := do
  iunlock i
  iput sb i

-- The destination of `either_copyout`: whether the copy of the next `m` bytes,
-- after `tot` bytes, succeeds. A kernel address never fails.
abbrev Dst := Nat → Nat → Bool

def kernelDst : Dst := fun _ _ => true

-- The source of `either_copyin`: the bytes that were copied, and whether the
-- copy succeeded.
abbrev Src := Nat → Nat → List UInt8 × Bool

def kernelSrc (bytes : List UInt8) : Src := fun tot m => ((bytes.drop tot).take m, true)

-- The loop of `readi`. The result is -1 after a failed copy.
def readiFrom (i : Ip) (dst : Dst) (n : Nat) : Nat → Nat → Nat → List UInt8 → Fsys (Int × List UInt8)
  | 0, tot, _, bytes => return (tot, bytes)
  | rounds + 1, tot, off, bytes =>
    if tot < n then do
      let addr ← bmap sb i (off / BSIZE)
      if addr = 0 then return (tot, bytes)
      else
        let data ← bread addr
        let m := min (n - tot) (BSIZE - off % BSIZE)
        brelse addr
        if dst tot m then
          readiFrom i dst n rounds (tot + m) (off + m) (bytes ++ sliceBytes data (off % BSIZE) m)
        else return (-1, bytes)
    else return (tot, bytes)

-- Besides its result `readi` gives the bytes that were copied.
def readi (i : Ip) (dst : Dst) (off n : UInt32) : Fsys (Int × List UInt8) := do
  let ip ← inode i
  if off > ip.din.size ∨ off + n < off then return (0, [])
  else
    let n := if off + n > ip.din.size then ip.din.size - off else n
    readiFrom sb i dst n.toNat n.toNat 0 off.toNat []

-- The loop of `writei` ends with the number of bytes written.
def writeiFrom (i : Ip) (src : Src) (n : Nat) : Nat → Nat → Nat → Fsys Nat
  | 0, tot, _ => return tot
  | rounds + 1, tot, off =>
    if tot < n then do
      let addr ← bmap sb i (off / BSIZE)
      if addr = 0 then return tot
      else
        let data ← bread addr
        let m := min (n - tot) (BSIZE - off % BSIZE)
        let (bytes, ok) := src tot m
        memmove addr (splice data (off % BSIZE) (bytes.take m))
        if ok then
          logWrite addr
          brelse addr
          writeiFrom i src n rounds (tot + m) (off + m)
        else
          brelse addr
          return tot
    else return tot

def writei (i : Ip) (src : Src) (off n : UInt32) : Fsys Int := do
  let ip ← inode i
  if off > ip.din.size ∨ off + n < off then return -1
  else if MAXFILE * BSIZE < (off + n).toNat then return -1
  else
    let tot ← writeiFrom sb i src n.toNat n.toNat 0 off.toNat
    let ip ← inode i
    if ip.din.size.toNat < off.toNat + tot then
      setDin i { ip.din with size := UInt32.ofNat (off.toNat + tot) }
    iupdate sb i
    return tot

end Fsys

end Xv6Ringbuf.Fs
