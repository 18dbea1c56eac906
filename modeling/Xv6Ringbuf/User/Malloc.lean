import Xv6Ringbuf.Machine
import Xv6Ringbuf.Param
import Xv6Ringbuf.Trace

namespace Xv6Ringbuf.Umalloc

open Machine Function

def PGROUNDUP (sz : Nat) : Nat := (sz + PGSIZE.toNat - 1) / PGSIZE.toNat * PGSIZE.toNat

-- `sizeof(Header)` is 16.
structure Header where
  ptr : Nat
  size : Nat

-- The memory of the process as headers, by their address. `freep` is 0 until the
-- first call of `malloc`. The kernel's page allocator answers the next calls of
-- `sbrk` with `grants`.
structure Heap where
  mem : Nat → Header
  freep : Nat
  brk : Nat
  grants : List Bool

-- A page fault, or a loop that is still going when the fuel is used up.
inductive Stop where
  | fault
  | hang
deriving DecidableEq

def load (a : Nat) : M Stop Heap Header := do
  let h ← get
  if a < PGROUNDUP h.brk then pure (h.mem a) else throw .fault

def store (a : Nat) (x : Header) : M Stop Heap Unit := do
  let h ← get
  if a < PGROUNDUP h.brk then
    modify fun h => { h with mem := update h.mem a x }
  else throw .fault

def granted : M Stop Heap Bool := do
  let h ← get
  modify fun h => { h with grants := h.grants.tail }
  pure (h.grants.headD false)

-- `uvmalloc` clears the new pages.
def Heap.grow (h : Heap) (new : Nat) : Heap where
  mem a := if PGROUNDUP h.brk ≤ a ∧ a < PGROUNDUP new then ⟨0, 0⟩ else h.mem a
  freep := h.freep
  brk := new
  grants := h.grants

-- `uvmdealloc` does nothing if the new size is not below the old one, and the sum
-- of the old size and `n` is taken modulo 2^64.
def Heap.shrink (h : Heap) (n : Int) : Heap :=
  if 0 ≤ h.brk + n then { h with brk := (h.brk + n).toNat } else h

-- A process has at most the memory of the machine.
def sbrk (n : Int) : M Stop Heap (Option Nat) := do
  let h ← get
  if 0 < n then do
    let ok ← granted
    if ok ∧ h.brk + n.toNat ≤ (PHYSTOP - KERNBASE).toNat then do
      modify fun h => h.grow (h.brk + n.toNat)
      pure (some h.brk)
    else pure none
  else do
    modify fun h => h.shrink n
    pure (some h.brk)

def freeLoop : Nat → Nat → Nat → M Stop Heap Nat
  | 0, _, _ => throw .hang
  | fuel + 1, bp, p => do
      let x ← load p
      if p < bp ∧ bp < x.ptr then pure p
      else if x.ptr ≤ p ∧ (p < bp ∨ bp < x.ptr) then pure p
      else freeLoop fuel bp x.ptr

def joinNext (bp p : Nat) : M Stop Heap Unit := do
  let b ← load bp
  let x ← load p
  if bp + 16 * b.size = x.ptr then do
    let y ← load x.ptr
    store bp ⟨y.ptr, (b.size + y.size) % 2 ^ 32⟩
  else store bp { b with ptr := x.ptr }

def joinPrev (bp p : Nat) : M Stop Heap Unit := do
  let x ← load p
  let b ← load bp
  if p + 16 * x.size = bp then store p ⟨b.ptr, (x.size + b.size) % 2 ^ 32⟩
  else store p { x with ptr := bp }

def free (fuel ap : Nat) : M Stop Heap Unit := do
  let h ← get
  let p ← freeLoop fuel (ap - 16) h.freep
  joinNext (ap - 16) p
  joinPrev (ap - 16) p
  modify fun h => { h with freep := p }

-- The units that `morecore` asks for.
def request (nu : Nat) : Nat := if nu < 4096 then 4096 else nu

-- The parameter of `sbrk` is an `int`.
def morecore (fuel nu : Nat) : M Stop Heap Nat := do
  let p ← sbrk (BitVec.ofNat 32 (request nu * 16)).toInt
  match p with
  | none => pure 0
  | some hp => do
      let x ← load hp
      store hp { x with size := request nu }
      free fuel (hp + 16)
      let h ← get
      pure h.freep

-- The sum has 64 bits: `sizeof` is an `unsigned long`.
def nunits (nbytes : Nat) : Nat := (nbytes + 16 - 1) / 16 + 1

-- Takes the units from the block `p`, from its end if it has more.
def carve (units prevp p : Nat) (x : Header) : M Stop Heap Nat :=
  if x.size = units then do
    let y ← load prevp
    store prevp { y with ptr := x.ptr }
    pure p
  else do
    store p { x with size := x.size - units }
    let y ← load (p + 16 * (x.size - units))
    store (p + 16 * (x.size - units)) { y with size := units }
    pure (p + 16 * (x.size - units))

def mallocLoop (fuel units : Nat) : Nat → Nat → Nat → M Stop Heap Nat
  | 0, _, _ => throw .hang
  | rounds + 1, prevp, p => do
      let x ← load p
      if units ≤ x.size then do
        let q ← carve units prevp p x
        modify fun h => { h with freep := prevp }
        pure (q + 16)
      else do
        let h ← get
        if p = h.freep then do
          let p ← morecore fuel units
          if p = 0 then pure 0
          else do
            let y ← load p
            mallocLoop fuel units rounds p y.ptr
        else mallocLoop fuel units rounds p x.ptr

-- The first call makes the list of `base` alone.
def initBase (base : Nat) : M Stop Heap Unit := do
  let h ← get
  if h.freep = 0 then do
    store base ⟨base, 0⟩
    modify fun h => { h with freep := base }
  else pure ()

def malloc (base fuel nbytes : Nat) : M Stop Heap Nat := do
  initBase base
  let h ← get
  let x ← load h.freep
  mallocLoop fuel (nunits nbytes) fuel h.freep x.ptr

-- What a call of `malloc` has returned and has not been freed.
structure Region where
  ptr : Nat
  n : Nat
deriving DecidableEq

structure Prog where
  heap : Heap
  live : List Region

-- Besides its calls, the program writes to its regions.
inductive Event where
  | malloc (n : BitVec 32) (grants : List Bool)
  | free (ptr : Nat)
  | write (a : Nat) (x : Header)

def Prog.step (base fuel : Nat) (s : Prog) : Event → Except Stop Prog
  | .malloc n grants => do
      let (p, h) ← (malloc base fuel n.toNat).run { s.heap with grants := grants }
      pure ⟨h, if p = 0 then s.live else ⟨p, n.toNat⟩ :: s.live⟩
  | .free ptr => do
      let (_, h) ← (free fuel ptr).run s.heap
      pure ⟨h, s.live.eraseP fun v => v.ptr = ptr⟩
  | .write a x => pure ⟨{ s.heap with mem := update s.heap.mem a x }, s.live⟩

-- Only live pointers are freed and only live regions are written.
def Proper (s : Prog) : Event → Prop
  | .malloc _ _ => True
  | .free ptr => ∃ v ∈ s.live, v.ptr = ptr
  | .write a _ => ∃ v ∈ s.live, v.ptr ≤ a ∧ a < v.ptr + v.n ∧ 16 ∣ a - v.ptr

-- The memory from `start` on is that obtained from `sbrk`.
def boot (mem : Nat → Header) (start : Nat) : Prog := ⟨⟨mem, 0, start, []⟩, []⟩

def OnList (base : Nat) (h : Heap) (a : Nat) : Prop :=
  h.freep ≠ 0 ∧ a ≠ base ∧ ∃ k, a = (fun x => (h.mem x).ptr)^[k] base

-- A live region with its header is [ptr - 16, ptr + n).
structure Sound (base start : Nat) (s : Prog) : Prop where
  inside : ∀ v ∈ s.live, start + 16 ≤ v.ptr ∧ v.ptr + v.n ≤ s.heap.brk
  apart : s.live.Pairwise fun v w => v.ptr + v.n + 16 ≤ w.ptr ∨ w.ptr + w.n + 16 ≤ v.ptr
  free : ∀ v ∈ s.live, ∀ a, OnList base s.heap a →
    v.ptr + v.n ≤ a ∨ a + 16 * (s.heap.mem a).size + 16 ≤ v.ptr

end Xv6Ringbuf.Umalloc
