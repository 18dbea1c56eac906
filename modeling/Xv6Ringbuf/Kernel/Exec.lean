import Xv6Ringbuf.Kernel.Freewalk
import Xv6Ringbuf.Kernel.Heap

namespace Xv6Ringbuf.Kernel

open Machine

def ELF_MAGIC : UInt32 := 0x464C457F

def ELF_PROG_LOAD : UInt32 := 1

def MAXARG : Nat := 32

def numberAt (bytes : List UInt8) (offset size : Nat) : Nat :=
  ((bytes.drop offset).take size).foldr (fun byte acc => byte.toNat + 256 * acc) 0

structure Elfhdr where
  magic : UInt32
  entry : UInt64
  phoff : UInt64
  phnum : UInt16

def Elfhdr.ofBytes (bytes : List UInt8) : Elfhdr :=
  ⟨UInt32.ofNat (numberAt bytes 0 4), UInt64.ofNat (numberAt bytes 24 8),
    UInt64.ofNat (numberAt bytes 32 8), UInt16.ofNat (numberAt bytes 56 2)⟩

structure Proghdr where
  type : UInt32
  flags : UInt32
  off : UInt64
  vaddr : UInt64
  filesz : UInt64
  memsz : UInt64

def Proghdr.ofBytes (bytes : List UInt8) : Proghdr :=
  ⟨UInt32.ofNat (numberAt bytes 0 4), UInt32.ofNat (numberAt bytes 4 4),
    UInt64.ofNat (numberAt bytes 8 8), UInt64.ofNat (numberAt bytes 16 8),
    UInt64.ofNat (numberAt bytes 32 8), UInt64.ofNat (numberAt bytes 40 8)⟩

def flags2perm (flags : UInt32) : Perm := ⟨false, flags &&& 2 ≠ 0, flags &&& 1 ≠ 0, false⟩

-- The bytes that `readi` finds in a file for a kernel address.
def readi (content : List UInt8) (off n : UInt32) : List UInt8 :=
  let size := UInt32.ofNat content.length
  if size < off ∨ off + n < off then []
  else if size < off + n then (content.drop off.toNat).take (size - off).toNat
  else (content.drop off.toNat).take n.toNat

-- The loop ends before the rounds run out. What has been read is in memory even
-- if it was too little.
def loadsegLoop (va : UInt64) (content : List UInt8) (offset sz : UInt32) : Nat → UInt32 → K Int32
  | 0, _ => return 0
  | fuel + 1, i =>
    if i < sz then do
      let pa ← walkaddr (va + i.toUInt64)
      if pa = 0 then throw .loadseg
      else do
        let n := if sz - i < 4096 then sz - i else 4096
        let bytes := readi content (offset + i) n
        storeBytes pa bytes
        if bytes.length ≠ n.toNat then return -1
        else loadsegLoop va content offset sz fuel (i + 4096)
    else return 0

def loadseg (va : UInt64) (content : List UInt8) (offset sz : UInt32) : K Int32 :=
  loadsegLoop va content offset sz (sz.toNat / 4096 + 1) 0

-- The loop over the program headers: whether it came to its end, and `sz`. The
-- offset is an `int`, which counts modulo 2 ^ 32.
def loadLoop [Image] (content : List UInt8) : Nat → UInt32 → UInt64 → K (Bool × UInt64)
  | 0, _, sz => return (true, sz)
  | count + 1, off, sz =>
    let bytes := readi content off 56
    let ph := Proghdr.ofBytes bytes
    if bytes.length ≠ 56 then return (false, sz)
    else if ph.type ≠ ELF_PROG_LOAD then loadLoop content count (off + 56) sz
    else if ph.memsz < ph.filesz then return (false, sz)
    else if ph.vaddr + ph.memsz < ph.vaddr then return (false, sz)
    else if ph.vaddr % PGSIZE ≠ 0 then return (false, sz)
    else do
      let sz1 ← uvmalloc sz (ph.vaddr + ph.memsz) (flags2perm ph.flags)
      if sz1 = 0 then return (false, sz)
      else if (← loadseg ph.vaddr content ph.off.toUInt32 ph.filesz.toUInt32) < 0 then
        return (false, sz1)
      else loadLoop content count (off + 56) sz1

-- The state's page table is the new one from here on.
def uvmcreate : K Bool := do
  match ← newTable Level1 with
  | none => return false
  | some table => do
      modify fun s => { s with pagetable := table }
      return true

def procPagetable [Image] (trampoline trapframe : UInt64) : K Bool := do
  if ← uvmcreate then do
    if (← mappages TRAMPOLINE PGSIZE trampoline ⟨true, false, true, false⟩) < 0 then do
      uvmfree 0
      return false
    else if (← mappages TRAPFRAME PGSIZE trapframe ⟨true, true, false, false⟩) < 0 then do
      uvmunmap TRAMPOLINE 1 false
      uvmfree 0
      return false
    else return true
  else return false

def uvmclear (va : UInt64) : K Unit := do
  match ← walk va false with
  | none => throw .uvmclear
  | some x => setPte va (x.map fun pte => { pte with perm := { pte.perm with u := false } })

-- The strings, each below the one before. `none` stands for `goto bad`.
def pushStrings (stackbase : UInt64) :
    Nat → UInt64 → List UInt64 → List (List UInt8) → K (Option (UInt64 × List UInt64))
  | _, sp, ustack, [] => return some (sp, ustack)
  | argc, sp, ustack, arg :: rest =>
    let below := sp - UInt64.ofNat (arg.length + 1)
    let sp := below - below % 16
    if MAXARG ≤ argc then return none
    else if sp < stackbase then return none
    else do
      if (← copyout sp (arg ++ [0])) < 0 then return none
      else pushStrings stackbase (argc + 1) sp (ustack ++ [sp]) rest

-- The strings and the array of pointers to them.
def pushArgs (sz : UInt64) (argv : List (List UInt8)) : K (Option UInt64) := do
  match ← pushStrings (sz - PGSIZE) 0 sz [] argv with
  | none => return none
  | some (sp, ustack) => do
      let below := sp - UInt64.ofNat (8 * (ustack.length + 1))
      let sp := below - below % 16
      if sp < sz - PGSIZE then return none
      else if (← copyout sp ((ustack ++ [0]).flatMap bytesOf)) < 0 then return none
      else return some sp

-- What `exec` changes of the process, with the registers of its trapframe.
structure Caller where
  pagetable : Pagetable
  sz : UInt64
  trapframe : UInt64
  epc : UInt64
  sp : UInt64
  a1 : UInt64
  name : List UInt8

-- Besides the memory and the process: the operations that are open in the log,
-- the references to the file's inode and whether it is locked.
structure Exec where
  kernel : State
  caller : Caller
  outstanding : Nat
  ref : Nat
  locked : Bool

abbrev E := M Panic Exec

def inKernel {α : Type} (x : K α) : E α := fun e =>
  match x.run e.kernel with
  | .ok (value, s) => .ok (value, { e with kernel := s })
  | .error panic => .error panic

def beginOp : E Unit := modify fun e => { e with outstanding := e.outstanding + 1 }

def endOp : E Unit := modify fun e => { e with outstanding := e.outstanding - 1 }

-- `namei`, for a path that leads to the file, and `ilock`.
def openInode : E Unit := modify fun e => { e with ref := e.ref + 1, locked := true }

def iunlockput : E Unit := modify fun e => { e with ref := e.ref - 1, locked := false }

-- The label `bad`, with a page table or without, with the inode or without.
def execBad [Image] (pagetable : Option UInt64) (ip : Bool) : E Int32 := do
  match pagetable with
  | none => pure ()
  | some sz => inKernel (procFreepagetable sz)
  if ip then do
    iunlockput
    endOp
  return -1

def lastName : List UInt8 → List UInt8 → List UInt8
  | last, [] => last
  | last, c :: path => if c = 47 then lastName path path else lastName last path

-- `proc_freepagetable` of another page table than the state's.
def freeOld [Image] (pagetable : Pagetable) (sz : UInt64) : K Unit := do
  let new := (← get).pagetable
  modify fun s => { s with pagetable := pagetable }
  procFreepagetable sz
  modify fun s => { s with pagetable := new }

def commit [Image] (path : List UInt8) (entry sz sp : UInt64) : E Unit := do
  let old := (← get).caller
  modify fun e => { e with caller := ⟨e.kernel.pagetable, sz, old.trapframe, entry, sp, sp,
    (lastName path path).take 15⟩ }
  inKernel (freeOld old.pagetable old.sz)

def execStack [Image] (path : List UInt8) (argv : List (List UInt8)) (entry sz : UInt64) : E Int32 := do
  let sz1 ← inKernel (uvmalloc sz (sz + 2 * PGSIZE) ⟨false, true, false, false⟩)
  if sz1 = 0 then execBad (some sz) false
  else do
    inKernel (uvmclear (sz1 - 2 * PGSIZE))
    match ← inKernel (pushArgs sz1 argv) with
    | none => execBad (some sz1) false
    | some sp => do
        commit path entry sz1 sp
        return Int32.ofNat argv.length

def exec [Image] (trampoline : UInt64) (path : List UInt8) (file : Option (List UInt8))
    (argv : List (List UInt8)) : E Int32 := do
  beginOp
  match file with
  | none => do
      endOp
      return -1
  | some content => do
      openInode
      let bytes := readi content 0 64
      let elf := Elfhdr.ofBytes bytes
      if bytes.length ≠ 64 then execBad none true
      else if elf.magic ≠ ELF_MAGIC then execBad none true
      else if ← inKernel (procPagetable trampoline (← get).caller.trapframe) then do
        match ← inKernel (loadLoop content elf.phnum.toNat elf.phoff.toUInt32 0) with
        | (false, sz) => execBad (some sz) true
        | (true, sz) => do
            iunlockput
            endOp
            execStack path argv elf.entry (PGROUNDUP sz)
      else execBad none true

end Xv6Ringbuf.Kernel
