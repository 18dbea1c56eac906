import Xv6Ringbuf.Fs.Code

namespace Xv6Ringbuf.Fs.Fsys

open Interleave

variable (sb : Superblock)

def namecmp (s t : List UInt8) : Bool := strncmp DIRSIZ s t

def readDirent (dp : Ip) (off : Nat) : Fsys (Option Dirent) := do
  let (r, bytes) ← readi sb dp kernelDst (UInt32.ofNat off) (UInt32.ofNat sizeofDirent)
  return if r = sizeofDirent then some (.ofBytes bytes) else none

-- The loop of `dirlookup`: the entry's inode and its offset.
def dirlookupFrom (dp : Ip) (name : List UInt8) : Nat → Nat → Fsys (Option (Ip × Nat))
  | 0, _ => return none
  | rounds + 1, off => do
      let ip ← inode dp
      if off < ip.din.size.toNat then
        match ← readDirent sb dp off with
        | none => panic .dirlookupRead
        | some de =>
          if de.inum = 0 then dirlookupFrom dp name rounds (off + sizeofDirent)
          else if namecmp name de.name then
            return some (← iget ip.dev de.inum.toUInt32, off)
          else dirlookupFrom dp name rounds (off + sizeofDirent)
      else return none

def maxEntries : Nat := MAXFILE * BSIZE / sizeofDirent + 1

def dirlookup (dp : Ip) (name : List UInt8) : Fsys (Option (Ip × Nat)) := do
  let ip ← inode dp
  if ip.din.type ≠ T_DIR then panic .dirlookupNotDir
  else dirlookupFrom sb dp name maxEntries 0

-- The offset of the first empty entry, or the end of the directory.
def emptyDirent (dp : Ip) : Nat → Nat → Fsys Nat
  | 0, off => return off
  | rounds + 1, off => do
      let ip ← inode dp
      if off < ip.din.size.toNat then
        match ← readDirent sb dp off with
        | none => panic .dirlinkRead
        | some de => if de.inum = 0 then return off else emptyDirent dp rounds (off + sizeofDirent)
      else return off

def dirlink (dp : Ip) (name : List UInt8) (inum : UInt32) : Fsys Bool := do
  match ← dirlookup sb dp name with
  | some (ip, _) =>
    iput sb ip
    return false
  | none =>
    let off ← emptyDirent sb dp maxEntries 0
    let de : Dirent := ⟨inum.toUInt16, strncpy DIRSIZ name⟩
    let r ← writei sb dp (kernelSrc de.bytes) (UInt32.ofNat off) (UInt32.ofNat sizeofDirent)
    return r = sizeofDirent

def slash : UInt8 := 47

def skipSlashes : List UInt8 → List UInt8
  | c :: path => if c = slash then skipSlashes path else c :: path
  | [] => []

-- The bytes up to the next slash or the end of the string, and what follows.
def takeElem : List UInt8 → List UInt8 × List UInt8
  | c :: path =>
    if c = slash ∨ c = 0 then ([], c :: path)
    else
      let (elem, rest) := takeElem path
      (c :: elem, rest)
  | [] => ([], [])

-- The next path element, cut off at `DIRSIZ` bytes, and the path after it.
def skipelem (path : List UInt8) : Option (List UInt8 × List UInt8) :=
  let path := skipSlashes path
  if path.headD 0 = 0 then none
  else
    let (elem, rest) := takeElem path
    some (elem.take DIRSIZ, skipSlashes rest)

-- The loop of `namex`. For `nameiparent` it also gives the last element.
def namexFrom (nameiparent : Bool) : Nat → Ip → List UInt8 → List UInt8 →
    Fsys (Option (Ip × List UInt8))
  | 0, ip, _, name => return some (ip, name)
  | rounds + 1, ip, path, name =>
    match skipelem path with
    | none =>
      if nameiparent then do
        iput sb ip
        return none
      else return some (ip, name)
    | some (name, path) => do
        ilock sb ip
        let dp ← inode ip
        if dp.din.type ≠ T_DIR then
          iunlockput sb ip
          return none
        else if nameiparent ∧ path.headD 0 = 0 then
          iunlock ip
          return some (ip, name)
        else
          match ← dirlookup sb ip name with
          | none =>
            iunlockput sb ip
            return none
          | some (next, _) =>
            iunlockput sb ip
            namexFrom nameiparent rounds next path name

-- Every round takes at least one byte off the path.
def namex (nameiparent : Bool) (path : List UInt8) : Fsys (Option (Ip × List UInt8)) := do
  if path.headD 0 = slash then
    let ip ← iget ROOTDEV ROOTINO
    namexFrom sb nameiparent (path.length + 1) ip path []
  else
    let p ← proc
    idup p.cwd
    namexFrom sb nameiparent (path.length + 1) p.cwd path []

def namei (path : List UInt8) : Fsys (Option Ip) := do
  let r ← namex sb false path
  return r.map (·.1)

def nameiparent (path : List UInt8) : Fsys (Option (Ip × List UInt8)) := namex sb true path

def setNlink (i : Ip) (nlink : Int16 → Int16) : Fsys Unit := do
  let ip ← inode i
  setDin i { ip.din with nlink := nlink ip.din.nlink }
  iupdate sb i

def linkBad (ip : Ip) : Fsys Int := do
  ilock sb ip
  setNlink sb ip (· - 1)
  iunlockput sb ip
  endOp
  return -1

def sysLink (old new : List UInt8) : Fsys Int := do
  beginOp
  match ← namei sb old with
  | none =>
    endOp
    return -1
  | some ip =>
    ilock sb ip
    if (← inode ip).din.type = T_DIR then
      iunlockput sb ip
      endOp
      return -1
    else
      setNlink sb ip (· + 1)
      iunlock ip
      match ← nameiparent sb new with
      | none => linkBad sb ip
      | some (dp, name) =>
        ilock sb dp
        if (← inode dp).dev ≠ (← inode ip).dev then
          iunlockput sb dp
          linkBad sb ip
        else if ← dirlink sb dp name (← inode ip).inum then
          iunlockput sb dp
          iput sb ip
          endOp
          return 0
        else
          iunlockput sb dp
          linkBad sb ip

def isdiremptyFrom (dp : Ip) : Nat → Nat → Fsys Bool
  | 0, _ => return true
  | rounds + 1, off => do
      let ip ← inode dp
      if off < ip.din.size.toNat then
        match ← readDirent sb dp off with
        | none => panic .isdiremptyReadi
        | some de =>
          if de.inum = 0 then isdiremptyFrom dp rounds (off + sizeofDirent) else return false
      else return true

def isdirempty (dp : Ip) : Fsys Bool := isdiremptyFrom sb dp maxEntries (2 * sizeofDirent)

def nonempty (ip : Ip) : Fsys Bool := do
  if (← inode ip).din.type = T_DIR then return !(← isdirempty sb ip) else return false

def dot : List UInt8 := [46]

def dotdot : List UInt8 := [46, 46]

def unlinkBad (dp : Ip) : Fsys Int := do
  iunlockput sb dp
  endOp
  return -1

def sysUnlink (path : List UInt8) : Fsys Int := do
  beginOp
  match ← nameiparent sb path with
  | none =>
    endOp
    return -1
  | some (dp, name) =>
    ilock sb dp
    if namecmp name dot ∨ namecmp name dotdot then unlinkBad sb dp
    else
      match ← dirlookup sb dp name with
      | none => unlinkBad sb dp
      | some (ip, off) =>
        ilock sb ip
        if (← inode ip).din.nlink < 1 then panic .unlinkNlink
        else if ← nonempty sb ip then
          iunlockput sb ip
          unlinkBad sb dp
        else
          let r ← writei sb dp (kernelSrc Dirent.zero.bytes) (UInt32.ofNat off)
            (UInt32.ofNat sizeofDirent)
          if r ≠ sizeofDirent then panic .unlinkWritei
          else
            if (← inode ip).din.type = T_DIR then setNlink sb dp (· - 1)
            iunlockput sb dp
            setNlink sb ip (· - 1)
            iunlockput sb ip
            endOp
            return 0

def createFail (dp ip : Ip) : Fsys (Option Ip) := do
  setNlink sb ip fun _ => 0
  iunlockput sb ip
  iunlockput sb dp
  return none

-- The entries of a new inode: `.` and `..`, then its name in the parent.
def createEntries (dp ip : Ip) (name : List UInt8) (type : Int16) : Fsys Bool := do
  let inum := (← inode ip).inum
  if type = T_DIR then
    if ← dirlink sb ip dot inum then
      if ← dirlink sb ip dotdot (← inode dp).inum then dirlink sb dp name inum
      else return false
    else return false
  else dirlink sb dp name inum

def create (path : List UInt8) (type major minor : Int16) : Fsys (Option Ip) := do
  match ← nameiparent sb path with
  | none => return none
  | some (dp, name) =>
    ilock sb dp
    match ← dirlookup sb dp name with
    | some (ip, _) =>
      iunlockput sb dp
      ilock sb ip
      let found := (← inode ip).din.type
      if type = T_FILE ∧ (found = T_FILE ∨ found = T_DEVICE) then return some ip
      else
        iunlockput sb ip
        return none
    | none =>
      match ← ialloc sb (← inode dp).dev type with
      | none =>
        iunlockput sb dp
        return none
      | some ip =>
        ilock sb ip
        setDin ip { (← inode ip).din with major := major, minor := minor, nlink := 1 }
        iupdate sb ip
        if ← createEntries sb dp ip name type then
          if type = T_DIR then setNlink sb dp (· + 1)
          iunlockput sb dp
          return some ip
        else createFail sb dp ip

def fdallocFrom (ofile : Fd → Option Fp) : Option Fd :=
  (List.finRange NOFILE).find? fun fd => (ofile fd).isNone

def fdalloc (f : Fp) : Fsys (Option Fd) := do
  match fdallocFrom (← proc).ofile with
  | none => return none
  | some fd =>
    .perform (Sys.setOfile fd (some f))
    return some fd

def fileclose (f : Fp) : Fsys Unit := do
  match ← .perform (Sys.fileclose f) with
  | none => return ()
  | some file =>
    if file.type = .FD_INODE ∨ file.type = .FD_DEVICE then
      beginOp
      iput sb file.ip
      endOp

-- The flags of `open`. `other` is any further bit of `omode`.
structure Omode where
  wronly : Bool
  rdwr : Bool
  create : Bool
  trunc : Bool
  other : Bool

def Omode.rdonly (omode : Omode) : Bool :=
  !(omode.wronly || omode.rdwr || omode.create || omode.trunc || omode.other)

def openFail (ip : Ip) : Fsys Int := do
  iunlockput sb ip
  endOp
  return -1

-- The part of `sys_open` after the inode has been found and locked.
def openFile (ip : Ip) (omode : Omode) : Fsys Int := do
  let din := (← inode ip).din
  if din.type = T_DEVICE ∧ (din.major < 0 ∨ NDEV ≤ din.major) then openFail sb ip
  else
    match ← .perform Sys.filealloc with
    | none => openFail sb ip
    | some f =>
      match ← fdalloc f with
      | none =>
        fileclose sb f
        openFail sb ip
      | some fd =>
        let file ← .perform (Sys.file f)
        .perform (Sys.setFile f { file with
          type := if din.type = T_DEVICE then .FD_DEVICE else .FD_INODE
          major := if din.type = T_DEVICE then din.major else file.major
          off := if din.type = T_DEVICE then file.off else 0
          ip := ip
          readable := !omode.wronly
          writable := omode.wronly || omode.rdwr })
        if omode.trunc ∧ din.type = T_FILE then itrunc sb ip
        iunlock ip
        endOp
        return fd.val

def sysOpen (path : List UInt8) (omode : Omode) : Fsys Int := do
  beginOp
  if omode.create then
    match ← create sb path T_FILE 0 0 with
    | none =>
      endOp
      return -1
    | some ip => openFile sb ip omode
  else
    match ← namei sb path with
    | none =>
      endOp
      return -1
    | some ip =>
      ilock sb ip
      if (← inode ip).din.type = T_DIR ∧ ¬omode.rdonly then openFail sb ip
      else openFile sb ip omode

-- `sys_mkdir` and `sys_mknod` differ in the type only.
def sysMk (path : List UInt8) (type major minor : Int16) : Fsys Int := do
  beginOp
  match ← create sb path type major minor with
  | none =>
    endOp
    return -1
  | some ip =>
    iunlockput sb ip
    endOp
    return 0

def sysMkdir (path : List UInt8) : Fsys Int := sysMk sb path T_DIR 0 0

def sysMknod (path : List UInt8) (major minor : Int16) : Fsys Int :=
  sysMk sb path T_DEVICE major minor

def sysChdir (path : List UInt8) : Fsys Int := do
  beginOp
  match ← namei sb path with
  | none =>
    endOp
    return -1
  | some ip =>
    ilock sb ip
    if (← inode ip).din.type ≠ T_DIR then
      iunlockput sb ip
      endOp
      return -1
    else
      iunlock ip
      iput sb (← proc).cwd
      endOp
      .perform (Sys.setCwd ip)
      return 0

def sysClose (fd : Fd) : Fsys Int := do
  match (← proc).ofile fd with
  | none => return -1
  | some f =>
    .perform (Sys.setOfile fd none)
    fileclose sb f
    return 0

def sysDup (fd : Fd) : Fsys Int := do
  match (← proc).ofile fd with
  | none => return -1
  | some f =>
    match ← fdalloc f with
    | none => return -1
    | some new =>
      .perform (Sys.filedup f)
      return new.val

end Xv6Ringbuf.Fs.Fsys
