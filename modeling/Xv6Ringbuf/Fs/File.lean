import Xv6Ringbuf.Fs.Sysfile

namespace Xv6Ringbuf.Fs

open Interleave

namespace Fsys

variable (sb : Superblock)

def advance (f : Fp) (r : Int) : Fsys Unit := do
  if 0 < r then
    let file ← .perform (Sys.file f)
    .perform (Sys.setFile f { file with off := file.off + UInt32.ofNat r.toNat })

-- A device is read and written by its driver. `device` is what the driver
-- returns, or -1 if there is none.
def devsw (major : Int16) (device : Int) : Int := if major < 0 ∨ NDEV ≤ major then -1 else device

def fileread (f : Fp) (dst : Dst) (n : Int32) (device : Int) : Fsys Int := do
  let file ← .perform (Sys.file f)
  if ¬file.readable then return -1
  else
    match file.type with
    | .FD_DEVICE => return devsw file.major device
    | .FD_INODE =>
      ilock sb file.ip
      let (r, _) ← readi sb file.ip dst (← .perform (Sys.file f)).off n.toUInt32
      advance f r
      iunlock file.ip
      return r
    | .FD_NONE => panic .fileread

def maxWrite : Nat := (MAXOPBLOCKS - 1 - 1 - 2) / 2 * BSIZE

-- The loop of `filewrite`: the number of bytes that were written before a short
-- write or the end.
def filewriteFrom (f : Fp) (ip : Ip) (src : Src) (n : Nat) : Nat → Nat → Fsys Nat
  | 0, i => return i
  | rounds + 1, i =>
    if i < n then do
      let n₁ := min (n - i) maxWrite
      beginOp
      ilock sb ip
      let r ← writei sb ip (fun tot => src (i + tot)) (← .perform (Sys.file f)).off (UInt32.ofNat n₁)
      advance f r
      iunlock ip
      endOp
      if r ≠ n₁ then return i else filewriteFrom f ip src n rounds (i + n₁)
    else return i

def filewrite (f : Fp) (src : Src) (n : Int32) (device : Int) : Fsys Int := do
  let file ← .perform (Sys.file f)
  if ¬file.writable then return -1
  else
    match file.type with
    | .FD_DEVICE => return devsw file.major device
    | .FD_INODE =>
      let i ← filewriteFrom sb f file.ip src n.toInt.toNat n.toInt.toNat 0
      return if (i : Int) = n.toInt then n.toInt else -1
    | .FD_NONE => panic .filewrite

-- `copied` says whether the result of `stati` reaches the user.
def filestat (f : Fp) (copied : Bool) : Fsys Int := do
  let file ← .perform (Sys.file f)
  if file.type = .FD_INODE ∨ file.type = .FD_DEVICE then
    ilock sb file.ip
    let _ ← inode file.ip
    iunlock file.ip
    return if copied then 0 else -1
  else return -1

def argfd (fd : Fd) (call : Fp → Fsys Int) : Fsys Int := do
  match (← proc).ofile fd with
  | none => return -1
  | some f => call f

def sysRead (fd : Fd) (dst : Dst) (n : Int32) (device : Int) : Fsys Int :=
  argfd fd fun f => fileread sb f dst n device

def sysWrite (fd : Fd) (src : Src) (n : Int32) (device : Int) : Fsys Int :=
  argfd fd fun f => filewrite sb f src n device

def sysFstat (fd : Fd) (copied : Bool) : Fsys Int := argfd fd fun f => filestat sb f copied

def readParts (ip : Ip) : List (UInt32 × UInt32) → Fsys Unit
  | [] => return ()
  | (off, n) :: parts => do
      let _ ← readi sb ip kernelDst off n
      readParts ip parts

-- The file system's part of `exec`. Which parts of the file are read depends on
-- its headers, and the result on the new memory.
def exec (path : List UInt8) (parts : List (UInt32 × UInt32)) (result : Int) : Fsys Int := do
  beginOp
  match ← namei sb path with
  | none =>
    endOp
    return -1
  | some ip =>
    ilock sb ip
    readParts sb ip parts
    iunlockput sb ip
    endOp
    return result

-- The part of `fork` that takes the child's references.
def forkFiles (ofile : Fd → Option Fp) : List Fd → Fsys Unit
  | [] => return ()
  | fd :: fds => do
      match ofile fd with
      | none => forkFiles ofile fds
      | some f =>
        .perform (Sys.filedup f)
        forkFiles ofile fds

def fork : Fsys Proc := do
  let parent ← proc
  forkFiles parent.ofile (List.finRange NOFILE)
  idup parent.cwd
  return parent

def exitFiles : List Fd → Fsys Unit
  | [] => return ()
  | fd :: fds => do
      match (← proc).ofile fd with
      | none => exitFiles fds
      | some f =>
        fileclose sb f
        .perform (Sys.setOfile fd none)
        exitFiles fds

def exit : Fsys Unit := do
  exitFiles sb (List.finRange NOFILE)
  beginOp
  iput sb (← proc).cwd
  endOp

end Fsys

-- The system calls of sysfile.c, with what the user's memory and the devices
-- answer.
inductive Syscall where
  | open (path : List UInt8) (omode : Fsys.Omode)
  | close (fd : Fd)
  | dup (fd : Fd)
  | read (fd : Fd) (dst : Fsys.Dst) (n : Int32) (device : Int)
  | write (fd : Fd) (src : Fsys.Src) (n : Int32) (device : Int)
  | fstat (fd : Fd) (copied : Bool)
  | link (old new : List UInt8)
  | unlink (path : List UInt8)
  | mkdir (path : List UInt8)
  | mknod (path : List UInt8) (major minor : Int16)
  | chdir (path : List UInt8)
  | exec (path : List UInt8) (parts : List (UInt32 × UInt32)) (result : Int)

def Syscall.code (sb : Superblock) : Syscall → Fsys Int
  | .open path omode => Fsys.sysOpen sb path omode
  | .close fd => Fsys.sysClose sb fd
  | .dup fd => Fsys.sysDup fd
  | .read fd dst n device => Fsys.sysRead sb fd dst n device
  | .write fd src n device => Fsys.sysWrite sb fd src n device
  | .fstat fd copied => Fsys.sysFstat sb fd copied
  | .link old new => Fsys.sysLink sb old new
  | .unlink path => Fsys.sysUnlink sb path
  | .mkdir path => Fsys.sysMkdir sb path
  | .mknod path major minor => Fsys.sysMknod sb path major minor
  | .chdir path => Fsys.sysChdir sb path
  | .exec path parts result => Fsys.exec sb path parts result

end Xv6Ringbuf.Fs
