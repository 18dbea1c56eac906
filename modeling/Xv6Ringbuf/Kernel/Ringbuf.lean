import Xv6Ringbuf.Kernel.Vm

namespace Xv6Ringbuf.Kernel

open Machine Function

-- A string is the bytes from its address on. Bytes behind the list read as 0,
-- which only `strlen` can reach: it runs into the end of the memory there.
def strncmp (p q : List UInt8) : Nat → Int
  | 0 => 0
  | n + 1 =>
    if p.headD 0 ≠ 0 ∧ p.headD 0 = q.headD 0 then strncmp p.tail q.tail n
    else (p.headD 0).toNat - (q.headD 0).toNat

-- The `n` bytes that `strncpy` stores.
def strncpy (t : List UInt8) : Nat → List UInt8
  | 0 => []
  | n + 1 =>
    if t.headD 0 = 0 then List.replicate (n + 1) 0
    else t.headD 0 :: strncpy t.tail n

def strlen : List UInt8 → Option Nat
  | [] => none
  | c :: s => if c = 0 then some 0 else (strlen s).map (· + 1)

-- The loop of `find_contiguous_pages` over the pages above `KERNBASE`.
def findLoop (pt : Pagetable) (num : Nat) : Nat → UInt64 → UInt64 → Nat → Option UInt64
  | 0, _, _, _ => none
  | fuel + 1, va, base, count =>
    if KERNBASE < va then
      if pt.walkaddr va = 0 then
        if count + 1 = num then some base
        else findLoop pt num fuel (va - PGSIZE) base (count + 1)
      else findLoop pt num fuel (va - PGSIZE) va 0
    else none

def TOP : UInt64 := PGROUNDUP (MAXVA - PGSIZE - PGSIZE - PGSIZE)

def findContiguousPages (num : Nat) : K (Option UInt64) :=
  return findLoop (← get).pagetable num ((TOP - KERNBASE) / PGSIZE).toNat TOP TOP 0

def permRing : Perm := ⟨true, true, true, true⟩

def mappageToBook [Image] (rb : Ringbuf) (va : UInt64) : K (Int32 × Ringbuf) := do
  if rb.refcount = 0 then
    match ← kalloc with
    | none => do
        let _ ← uvmdealloc va PGSIZE
        return (-1, rb)
    | some mem => do
        setPage mem 0
        if (← mappages va PGSIZE mem permRing) ≠ 0 then do
          kfree mem
          let _ ← uvmdealloc va PGSIZE
          return (-1, rb)
        else return (0, { rb with book := mem })
  else
    if (← mappages va PGSIZE rb.book permRing) ≠ 0 then do
      kfree rb.book
      let _ ← uvmdealloc va PGSIZE
      return (-1, rb)
    else return (0, rb)

-- The data page of round `i`: pages 0 to 15 are allocated by a ring without
-- references, all others are the ones already there.
def pageOf (rb : Ringbuf) (i : Nat) : K (Option (UInt64 × Ringbuf)) :=
  if h : rb.refcount = 0 ∧ i < RINGBUF_SIZE then do
    match ← kalloc with
    | none => return none
    | some mem => do
        setPage mem 0
        return some (mem, { rb with buf := update rb.buf ⟨i, h.2⟩ mem })
  else return some (rb.buf ⟨i % RINGBUF_SIZE, Nat.mod_lt _ (by decide)⟩, rb)

def mapRounds [Image] (base : UInt64) : Nat → Nat → Ringbuf → K (Int32 × Ringbuf)
  | 0, _, rb => return (0, rb)
  | rounds + 1, i, rb => do
      let va := base - UInt64.ofNat i * PGSIZE
      match ← pageOf rb i with
      | none => do
          let _ ← uvmdealloc va PGSIZE
          return (-1, rb)
      | some (pa, rb) =>
        if (← mappages va PGSIZE pa permRing) ≠ 0 then do
          kfree pa
          let _ ← uvmdealloc va PGSIZE
          return (-1, rb)
        else mapRounds base rounds (i + 1) rb

def mappagesToProc [Image] (rb : Ringbuf) (base : UInt64) (num : Nat) : K (Int32 × Ringbuf) :=
  if rb.refcount < 0 then return (-1, rb)
  else mapRounds base num 0 rb

def validatePages (va : UInt64) : K Int32 := do
  if (← walkaddr va) = 0 then return -1 else return 0

def copyoutUserAddr (base addr : UInt64) : K Int32 := do
  if (← copyout addr (bytesOf base)) < 0 then return -1
  else do
    modify fun s => { s with given := some base }
    return 0

abbrev Ringbufs := Fin MAX_RINGBUFS → Ringbuf

def getRingbufIndex (rbs : Ringbufs) : Nat :=
  (List.finRange MAX_RINGBUFS).countP fun k => strncmp (rbs k).name [] RINGBUF_NAME_LEN ≠ 0

-- The loop over the table that stops at the first entry with this name.
def findName (rbs : Ringbufs) (name : List UInt8) : Option (Fin MAX_RINGBUFS) :=
  (List.finRange MAX_RINGBUFS).find? fun k => strncmp (rbs k).name name RINGBUF_NAME_LEN = 0

def setRingbuf (k : Fin MAX_RINGBUFS) (rb : Ringbuf) : K Unit :=
  modify fun s => { s with ringbufs := update s.ringbufs k rb }

def NUM_CONTIGUOUS_PAGES : Nat := 1 + 2 * RINGBUF_SIZE + 1

-- An index outside of the table cannot be stored to.
def createRingbuf [Image] (name : List UInt8) (addr : UInt64) : K Int32 := do
  let rb : Ringbuf := ⟨0, strncpy name RINGBUF_NAME_LEN, fun _ => 0, 0⟩
  match ← findContiguousPages NUM_CONTIGUOUS_PAGES with
  | none => return -1
  | some top => do
      let base := top - PGSIZE
      let (result, rb) ← mappagesToProc rb base (2 * RINGBUF_SIZE)
      if result ≠ 0 then return -1
      else if (← validatePages base) ≠ 0 then return -1
      else do
        let bookVa := base - UInt64.ofNat (2 * RINGBUF_SIZE) * PGSIZE
        let (result, rb) ← mappageToBook rb bookVa
        if result ≠ 0 then return -1
        else if (← validatePages bookVa) ≠ 0 then return -1
        else if (← copyoutUserAddr base addr) ≠ 0 then return -1
        else do
          let index := getRingbufIndex (← get).ringbufs
          if h : index < MAX_RINGBUFS then do
            setRingbuf ⟨index, h⟩ { rb with refcount := rb.refcount + 1 }
            return 0
          else throw .kerneltrap

-- The entry is changed in place, also when the call fails later on.
def appendRingbuf [Image] (name : List UInt8) (addr : UInt64) : K Int32 := do
  match findName (← get).ringbufs name with
  | none => return -1
  | some k => do
      match ← findContiguousPages NUM_CONTIGUOUS_PAGES with
      | none => return -1
      | some top => do
          let base := top - PGSIZE - PGSIZE
          let (result, rb) ← mappagesToProc ((← get).ringbufs k) base (2 * RINGBUF_SIZE)
          setRingbuf k rb
          if result ≠ 0 then return -1
          else do
            let bookVa := base - UInt64.ofNat (2 * RINGBUF_SIZE) * PGSIZE
            let (result, rb) ← mappageToBook rb bookVa
            setRingbuf k rb
            if result ≠ 0 then return -1
            else if (← copyoutUserAddr base addr) ≠ 0 then return -1
            else do
              setRingbuf k { rb with refcount := rb.refcount + 1 }
              return 0

def kfreeAll [Image] : List UInt64 → K Unit
  | [] => return ()
  | pa :: rest => do
      kfree pa
      kfreeAll rest

def unmapRingbufPmem [Image] (k : Fin MAX_RINGBUFS) : K Int32 := do
  let rb := (← get).ringbufs k
  setRingbuf k { rb with name := strncpy [] RINGBUF_NAME_LEN }
  kfree rb.book
  kfreeAll (List.ofFn rb.buf)
  return 0

def unmapRingbuf [Image] (name : List UInt8) (addr : UInt64) : K Int32 := do
  match findName (← get).ringbufs name with
  | none => return -1
  | some k => do
      let rb := (← get).ringbufs k
      setRingbuf k { rb with refcount := rb.refcount - 1 }
      let pa ← walkaddr addr
      let va ← loadWord (pa + addr % 4096)
      if (← validatePages va) ≠ 0 then return -1
      else do
        let va := va - UInt64.ofNat (2 * RINGBUF_SIZE - 1) * PGSIZE
        uvmunmap va (UInt64.ofNat (2 * RINGBUF_SIZE)) false
        uvmunmap (va - PGSIZE) 1 false
        if rb.refcount - 1 = 0 then do
          let _ ← unmapRingbufPmem k
          return 0
        else return 0

def ringbuf [Image] (name : List UInt8) (opens : Int32) (addr : UInt64) : K Int32 := do
  if MAX_RINGBUFS ≤ getRingbufIndex (← get).ringbufs then return -1
  else
    match strlen name with
    | none => throw .kerneltrap
    | some len =>
      if RINGBUF_NAME_LEN < len then return -1
      else do
        let found := (findName (← get).ringbufs name).isSome
        if opens ≠ 0 then
          if ¬found then
            if (← createRingbuf name addr) ≠ 0 then return -1 else return 0
          else
            if (← appendRingbuf name addr) ≠ 0 then return -1 else return 0
        else
          if (← unmapRingbuf name addr) ≠ 0 then return -1 else return 0

end Xv6Ringbuf.Kernel
