import Xv6Ringbuf.Fs.Inode
import Xv6Ringbuf.Fs.Log

namespace Xv6Ringbuf.Fs

def ROOTINO : UInt32 := 1

def FSMAGIC : UInt32 := 0x10203040

def NINDIRECT : Nat := BSIZE / 4

def MAXFILE : Nat := NDIRECT + NINDIRECT

def IPB : Nat := BSIZE / 64

def BPB : Nat := BSIZE * 8

def DIRSIZ : Nat := 14

def T_DIR : Int16 := 1

def T_FILE : Int16 := 2

def T_DEVICE : Int16 := 3

-- `struct superblock`, eight words.
structure Superblock where
  magic : UInt32
  size : UInt32
  nblocks : UInt32
  ninodes : UInt32
  nlog : UInt32
  logstart : UInt32
  inodestart : UInt32
  bmapstart : UInt32

def IBLOCK (sb : Superblock) (inum : UInt32) : Blockno := inum / UInt32.ofNat IPB + sb.inodestart

def BBLOCK (sb : Superblock) (b : UInt32) : Blockno := b / UInt32.ofNat BPB + sb.bmapstart

def zeroBlock : Block := fun _ => 0

def dataAt (data : Block) (off : Nat) : UInt8 := if h : off < BSIZE then data ⟨off, h⟩ else 0

def bitMask (bi : Nat) : UInt8 := 1 <<< UInt8.ofNat (bi % 8)

def getBit (data : Block) (bi : Nat) : Bool := dataAt data (bi / 8) &&& bitMask bi != 0

def setBit (data : Block) (bi : Nat) : Block :=
  fun off => if off.val = bi / 8 then data off ||| bitMask bi else data off

def clearBit (data : Block) (bi : Nat) : Block :=
  fun off => if off.val = bi / 8 then data off &&& ~~~bitMask bi else data off

def halves (low high : Int16) : UInt32 :=
  UInt32.ofNat (low.toUInt16.toNat + 65536 * high.toUInt16.toNat)

def lowHalf (word : UInt32) : Int16 := (UInt16.ofNat word.toNat).toInt16

def highHalf (word : UInt32) : Int16 := (UInt16.ofNat (word.toNat / 65536)).toInt16

-- An inode is sixteen words of its block: type and major, minor and nlink, size,
-- and the addresses.
def Dinode.word (din : Dinode) (w : Nat) : UInt32 :=
  if w = 0 then halves din.type din.major
  else if w = 1 then halves din.minor din.nlink
  else if w = 2 then din.size
  else if h : w - 3 < NDIRECT + 1 then din.addrs ⟨w - 3, h⟩
  else 0

def getDinode (data : Block) (k : Nat) : Dinode :=
  ⟨lowHalf (getWord data (16 * k)), highHalf (getWord data (16 * k)),
    lowHalf (getWord data (16 * k + 1)), highHalf (getWord data (16 * k + 1)),
    getWord data (16 * k + 2), fun i => getWord data (16 * k + 3 + i)⟩

def setDinode (data : Block) (k : Nat) (din : Dinode) : Block :=
  fun off => if off.val / 64 = k then wordByte (din.word (off.val / 4 % 16)) (off.val % 4) else data off

-- `struct dirent`. The name is an array of `DIRSIZ` bytes.
structure Dirent where
  inum : UInt16
  name : List UInt8
  deriving DecidableEq

def sizeofDirent : Nat := 16

def Dirent.ofBytes (bytes : List UInt8) : Dirent :=
  ⟨UInt16.ofNat ((bytes.getD 0 0).toNat + 256 * (bytes.getD 1 0).toNat), bytes.drop 2⟩

def Dirent.bytes (de : Dirent) : List UInt8 :=
  [UInt8.ofNat de.inum.toNat, UInt8.ofNat (de.inum.toNat / 256)] ++ de.name

def Dirent.zero : Dirent := ⟨0, List.replicate DIRSIZ 0⟩

-- The bytes of a block from `off` on, and a block with some of them replaced.
def sliceBytes (data : Block) (off n : Nat) : List UInt8 :=
  (List.range n).map fun k => dataAt data (off + k)

def splice (data : Block) (off : Nat) (bytes : List UInt8) : Block :=
  fun i => if off ≤ i.val then bytes.getD (i.val - off) (data i) else data i

-- `strncpy` into an array of `n` bytes.
def strncpy : Nat → List UInt8 → List UInt8
  | 0, _ => []
  | n + 1, [] => 0 :: strncpy n []
  | n + 1, c :: s => if c = 0 then 0 :: strncpy n [] else c :: strncpy n s

-- `strncmp` finds no difference. A string ends with a zero or with its array.
def strncmp : Nat → List UInt8 → List UInt8 → Bool
  | 0, _, _ => true
  | n + 1, s, t => s.headD 0 = t.headD 0 && (s.headD 0 = 0 || strncmp n s.tail t.tail)

namespace Mkfs

def FSSIZE : Nat := 2000

def NINODES : Nat := 200

def nbitmap : Nat := FSSIZE / (BSIZE * 8) + 1

def ninodeblocks : Nat := NINODES / IPB + 1

def nlog : Nat := LOGSIZE

def nmeta : Nat := 2 + nlog + ninodeblocks + nbitmap

def nblocks : Nat := FSSIZE - nmeta

def sb : Superblock :=
  ⟨FSMAGIC, UInt32.ofNat FSSIZE, UInt32.ofNat nblocks, UInt32.ofNat NINODES, UInt32.ofNat nlog, 2,
    UInt32.ofNat (2 + nlog), UInt32.ofNat (2 + nlog + ninodeblocks)⟩

def usedBits : Nat → Block
  | 0 => zeroBlock
  | used + 1 => setBit (usedBits used) used

end Mkfs

end Xv6Ringbuf.Fs
