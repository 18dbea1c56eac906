import Xv6Ringbuf.Machine
import Xv6Ringbuf.Param

namespace Xv6Ringbuf.Kernel

open Machine

-- One beyond the highest virtual address that the kernel uses, `1 << 38`.
def MAXVA : UInt64 := 274877906944

theorem toNat_MAXVA : MAXVA.toNat = 274877906944 := rfl

def TRAMPOLINE : UInt64 := MAXVA - PGSIZE

def TRAPFRAME : UInt64 := TRAMPOLINE - PGSIZE

def PGROUNDDOWN (a : UInt64) : UInt64 := a / PGSIZE * PGSIZE

def PGROUNDUP (sz : UInt64) : UInt64 := PGROUNDDOWN (sz + PGSIZE - 1)

-- The symbol `end` of kernel.ld: the first address after the kernel.
class Image where
  kend : UInt64
  kernbase_le : KERNBASE ≤ kend

structure Perm where
  r : Bool
  w : Bool
  x : Bool
  u : Bool
deriving DecidableEq

-- A valid leaf entry. An entry without `PTE_V` is `none`.
structure Pte where
  pa : UInt64
  perm : Perm
deriving DecidableEq

-- A page-table page: its physical address and its entries.
structure Table (α : Type) where
  page : UInt64
  entry : Fin 512 → Option α

def Table.set {α : Type} (t : Table α) (i : Fin 512) (x : Option α) : Table α :=
  { t with entry := Function.update t.entry i x }

-- The entries of the two upper levels point to lower tables.
abbrev Level0 := Table Pte

abbrev Level1 := Table Level0

abbrev Pagetable := Table Level1

abbrev MAX_RINGBUFS : Nat := 10

abbrev RINGBUF_SIZE : Nat := 16

abbrev RINGBUF_NAME_LEN : Nat := 16

structure Ringbuf where
  refcount : Int
  name : List UInt8
  buf : Fin RINGBUF_SIZE → UInt64
  book : UInt64

-- What a system call of one process works on: the allocator, the physical
-- memory, the caller's page table and the ring table. Page tables are kept apart
-- from `mem`. The last two fields are histories: the physical bytes that the
-- kernel has read on behalf of the caller, and the last address that it has
-- handed out with `copyout_user_addr`.
structure State where
  freelist : List UInt64
  mem : UInt64 → UInt8
  pagetable : Pagetable
  ringbufs : Fin MAX_RINGBUFS → Ringbuf
  reads : List UInt64
  given : Option UInt64

inductive Panic where
  | walk
  | mappagesSize
  | mappagesRemap
  | uvmunmapNotAligned
  | uvmunmapWalk
  | uvmunmapNotMapped
  | uvmunmapNotALeaf
  | uvmclear
  | uvmcopyPte
  | uvmcopyPresent
  | loadseg
  | kfree
  | freewalkLeaf
  | kerneltrap
deriving DecidableEq

abbrev K := M Panic State

def memset (mem : UInt64 → UInt8) (dst : UInt64) (c : UInt8) : UInt64 → UInt8 :=
  fun a => if a - dst < PGSIZE then c else mem a

def setPage (dst : UInt64) (c : UInt8) : K Unit :=
  modify fun s => { s with mem := memset s.mem dst c }

def kalloc : K (Option UInt64) := do
  match (← get).freelist with
  | [] => return none
  | r :: rest => do
      modify fun s => { s with freelist := rest }
      setPage r 5
      return some r

def kfree [Image] (pa : UInt64) : K Unit :=
  if pa % PGSIZE ≠ 0 ∨ pa < Image.kend ∨ PHYSTOP ≤ pa then throw .kfree
  else do
    setPage pa 1
    modify fun s => { s with freelist := pa :: s.freelist }

def px (level : Nat) (va : UInt64) : Fin 512 :=
  ⟨va.toNat / 2 ^ (12 + 9 * level) % 512, Nat.mod_lt _ (by decide)⟩

-- The entry that `walk` finds: `none` if a table is missing on the way.
def Pagetable.lookup (pt : Pagetable) (va : UInt64) : Option (Option Pte) :=
  match pt.entry (px 2 va) with
  | none => none
  | some l1 =>
    match l1.entry (px 1 va) with
    | none => none
    | some l0 => some (l0.entry (px 0 va))

def Pagetable.setPte (pt : Pagetable) (va : UInt64) (x : Option Pte) : Pagetable :=
  match pt.entry (px 2 va) with
  | none => pt
  | some l1 =>
    match l1.entry (px 1 va) with
    | none => pt
    | some l0 =>
      Table.set pt (px 2 va) (some (l1.set (px 1 va) (some (l0.set (px 0 va) x))))

def setPte (va : UInt64) (x : Option Pte) : K Unit :=
  modify fun s => { s with pagetable := s.pagetable.setPte va x }

def newTable (α : Type) : K (Option (Table α)) := do
  match ← kalloc with
  | none => return none
  | some page => do
      setPage page 0
      return some ⟨page, fun _ => none⟩

-- The two rounds of the loop of `walk` with `alloc`, at levels 2 and 1.
def allocLevel1 (va : UInt64) : K Bool := do
  match (← get).pagetable.entry (px 2 va) with
  | some _ => return true
  | none =>
    match ← newTable Level0 with
    | none => return false
    | some table => do
        modify fun s => { s with pagetable := Table.set s.pagetable (px 2 va) (some table) }
        return true

def allocLevel0 (va : UInt64) : K Bool := do
  match (← get).pagetable.entry (px 2 va) with
  | none => return false
  | some l1 =>
    match l1.entry (px 1 va) with
    | some _ => return true
    | none =>
      match ← newTable Pte with
      | none => return false
      | some table => do
          modify fun s => { s with
            pagetable := Table.set s.pagetable (px 2 va) (some (l1.set (px 1 va) (some table))) }
          return true

def walk (va : UInt64) (alloc : Bool) : K (Option (Option Pte)) :=
  if MAXVA ≤ va then throw .walk
  else if alloc then do
    if ← allocLevel1 va then
      if ← allocLevel0 va then return (← get).pagetable.lookup va
      else return none
    else return none
  else return (← get).pagetable.lookup va

def Pagetable.walkaddr (pt : Pagetable) (va : UInt64) : UInt64 :=
  if MAXVA ≤ va then 0
  else
    match pt.lookup va with
    | some (some pte) => if pte.perm.u then pte.pa else 0
    | _ => 0

def walkaddr (va : UInt64) : K UInt64 :=
  return (← get).pagetable.walkaddr va

def mapLoop (perm : Perm) (last : UInt64) : Nat → UInt64 → UInt64 → K Int32
  | 0, _, _ => return 0
  | fuel + 1, a, pa => do
      match ← walk a true with
      | none => return -1
      | some (some _) => throw .mappagesRemap
      | some none => do
          setPte a (some ⟨pa, perm⟩)
          if a = last then return 0
          else mapLoop perm last fuel (a + PGSIZE) (pa + PGSIZE)

-- The loop ends at `last`, before the rounds run out.
def mappages (va size pa : UInt64) (perm : Perm) : K Int32 :=
  if size = 0 then throw .mappagesSize
  else mapLoop perm (PGROUNDDOWN (va + size - 1)) (size.toNat / 4096 + 2) (PGROUNDDOWN va) pa

def unmapLoop [Image] (stop : UInt64) (doFree : Bool) : Nat → UInt64 → K Unit
  | 0, _ => return ()
  | fuel + 1, a =>
    if a < stop then do
      match ← walk a false with
      | none => throw .uvmunmapWalk
      | some none => throw .uvmunmapNotMapped
      | some (some pte) =>
        if pte.perm = ⟨false, false, false, false⟩ then throw .uvmunmapNotALeaf
        else do
          if doFree then kfree pte.pa
          setPte a none
          unmapLoop stop doFree fuel (a + PGSIZE)
    else return ()

-- The bound of the loop wraps around at the end of the address space.
def uvmunmap [Image] (va npages : UInt64) (doFree : Bool) : K Unit :=
  if va % PGSIZE ≠ 0 then throw .uvmunmapNotAligned
  else unmapLoop (va + npages * PGSIZE) doFree npages.toNat va

def uvmdealloc [Image] (oldsz newsz : UInt64) : K UInt64 :=
  if oldsz ≤ newsz then return oldsz
  else do
    if PGROUNDUP newsz < PGROUNDUP oldsz then
      uvmunmap (PGROUNDUP newsz) ((PGROUNDUP oldsz - PGROUNDUP newsz) / PGSIZE) true
    return newsz

def storeBytes (pa : UInt64) (bytes : List UInt8) : K Unit :=
  modify fun s => { s with
    mem := fun a => if (a - pa).toNat < bytes.length then bytes.getD (a - pa).toNat 0 else s.mem a }

-- Each round copies at least one byte.
def copyoutLoop : Nat → UInt64 → List UInt8 → K Int32
  | 0, _, _ => return 0
  | fuel + 1, dstva, src =>
    if src.isEmpty then return 0
    else do
      let va0 := PGROUNDDOWN dstva
      let pa0 ← walkaddr va0
      if pa0 = 0 then return -1
      else do
        let n := min (PGSIZE - (dstva - va0)).toNat src.length
        storeBytes (pa0 + (dstva - va0)) (src.take n)
        copyoutLoop fuel (va0 + PGSIZE) (src.drop n)

def copyout (dstva : UInt64) (src : List UInt8) : K Int32 :=
  copyoutLoop (src.length + 1) dstva src

def bytesOf (value : UInt64) : List UInt8 :=
  (List.range 8).map fun i => UInt8.ofNat (value.toNat / 256 ^ i)

def wordAt (mem : UInt64 → UInt8) (pa : UInt64) : UInt64 :=
  UInt64.ofNat ((List.range 8).foldr (fun i acc => (mem (pa + UInt64.ofNat i)).toNat + 256 * acc) 0)

-- The kernel reads 8 bytes at a physical address. The only memory that it maps
-- there is the RAM, and any other access traps.
def loadWord (pa : UInt64) : K UInt64 :=
  if pa < KERNBASE ∨ PHYSTOP - 8 < pa then throw .kerneltrap
  else do
    modify fun s => { s with reads := s.reads ++ (List.range 8).map fun i => pa + UInt64.ofNat i }
    return wordAt (← get).mem pa

end Xv6Ringbuf.Kernel
