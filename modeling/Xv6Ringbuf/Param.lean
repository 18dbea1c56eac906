import Mathlib.Init

namespace Xv6Ringbuf

-- The constants of param.h, riscv.h and memlayout.h that several parts share.

def MAXOPBLOCKS : Nat := 10

def NBUF : Nat := MAXOPBLOCKS * 3

def PGSIZE : UInt64 := 4096

@[simp] theorem toNat_PGSIZE : PGSIZE.toNat = 4096 := rfl

def KERNBASE : UInt64 := 0x80000000

def PHYSTOP : UInt64 := KERNBASE + 128 * 1024 * 1024

end Xv6Ringbuf
