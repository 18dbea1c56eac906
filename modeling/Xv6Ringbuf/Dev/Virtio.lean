import Xv6Ringbuf.Circular
import Xv6Ringbuf.Fs.Layout
import Xv6Ringbuf.Trace

namespace Xv6Ringbuf.Virtio

open Circular Fs Function

def NUM : Nat := 8

instance : NeZero NUM := ⟨by decide⟩

def VRING_DESC_F_NEXT : UInt16 := 1

def VRING_DESC_F_WRITE : UInt16 := 2

def VIRTIO_BLK_T_IN : UInt32 := 0

def VIRTIO_BLK_T_OUT : UInt32 := 1

-- What the address of a descriptor points to: nothing, `disk.ops[i]`, `b->data`
-- or `disk.info[i].status`.
inductive Addr (β : Type) where
  | null
  | op (i : Nat)
  | data (b : β)
  | status (i : Nat)

-- `struct virtq_desc`
structure Desc (β : Type) where
  addr : Addr β
  len : UInt32
  flags : UInt16
  next : Nat

-- `struct virtio_blk_req`
structure Op where
  type : UInt32
  reserved : UInt32
  sector : UInt64

-- The avail ring, and the used ring with the `id` of its entries.
structure Ring where
  idx : BitVec 16
  ring : Fin NUM → Nat

def Ring.push (r : Ring) (head : Nat) : Ring := ⟨r.idx + 1, put r.ring r.idx.toNat head⟩

def Ring.read (r : Ring) (i : BitVec 16) : Nat := cell r.ring i.toNat

inductive Chan (β : Type) where
  | free
  | buf (b : β)
deriving DecidableEq

-- The variables of a call of `virtio_disk_rw` that has its descriptors.
structure Req (β : Type) where
  buf : β
  write : Bool
  i₀ : Nat
  i₁ : Nat
  i₂ : Nat
deriving DecidableEq

def Req.idx {β : Type} (r : Req β) : List Nat := [r.i₀, r.i₁, r.i₂]

-- Where a process is between two sections with `vdisk_lock`.
inductive Phase (β : Type) where
  | idle
  | allocating (b : β) (write : Bool)
  | waiting (r : Req β)
deriving DecidableEq

namespace Phase

variable {β : Type}

-- The buffer that a process has given to the disk, and its descriptors.
def buf : Phase β → Option β
  | .idle => none
  | .allocating b _ => some b
  | .waiting r => some r.buf

def idx : Phase β → List Nat
  | .waiting r => r.idx
  | _ => []

end Phase

-- The buffers, and the blocks on the medium by their first sector.
structure View (β δ : Type) where
  blockno : β → UInt32
  data : β → δ
  medium : UInt64 → δ

-- What there is to see of the disk from outside.
inductive Deed (π β δ : Type) where
  | call (p : π) (b : β) (write : Bool) (blockno : UInt32) (data : δ)
  | move (b : β) (write : Bool)
  | ret (p : π) (b : β)

-- `struct disk` with the queue, the processes, and the device: how far it is in the
-- avail ring and the heads it is at work on. `history` is not part of the system.
structure State (π β δ : Type) where
  desc : Nat → Desc β
  avail : Ring
  used : Ring
  free : Nat → Bool
  usedIdx : BitVec 16
  info : Nat → Option β
  status : Nat → UInt8
  ops : Nat → Op
  disk : β → Bool
  view : View β δ
  phase : π → Phase β
  asleep : π → Option (Chan β)
  devIdx : BitVec 16
  taken : List Nat
  history : List (Deed π β δ)

-- The last two are no calls of `panic`: a store through a null pointer, and a chain
-- the device has no meaning for.
inductive Panic where
  | freeDesc1
  | freeDesc2
  | intrStatus
  | null
  | chain

variable {π β δ : Type} [DecidableEq π] [DecidableEq β]

def Desc.zero : Desc β := ⟨.null, 0, 0, 0⟩

namespace View

-- The caller has the buffer locked, and has filled it in.
def fill (v : View β δ) (b : β) (blockno : UInt32) (data : δ) : View β δ :=
  { v with blockno := update v.blockno b blockno, data := update v.data b data }

def move (v : View β δ) (b : β) (sector : UInt64) (write : Bool) : View β δ :=
  { v with
    data := if write then v.data else update v.data b (v.medium sector)
    medium := if write then update v.medium sector (v.data b) else v.medium }

end View

def boot (view : View β δ) : State π β δ where
  desc _ := .zero
  avail := ⟨0, fun _ => 0⟩
  used := ⟨0, fun _ => 0⟩
  free i := i < NUM
  usedIdx := 0
  info _ := none
  status _ := 0
  ops _ := ⟨0, 0, 0⟩
  disk _ := false
  view := view
  phase _ := .idle
  asleep _ := none
  devIdx := 0
  taken := []
  history := []

namespace State

def wakeup (chan : Chan β) (s : State π β δ) : State π β δ :=
  { s with asleep := fun p => if s.asleep p = some chan then none else s.asleep p }

def sleep (p : π) (chan : Chan β) (s : State π β δ) : State π β δ :=
  { s with asleep := update s.asleep p (some chan) }

def enter (p : π) (phase : Phase β) (s : State π β δ) : State π β δ :=
  { s with phase := update s.phase p phase }

def note (deed : Deed π β δ) (s : State π β δ) : State π β δ :=
  { s with history := s.history ++ [deed] }

def call (p : π) (b : β) (write : Bool) (blockno : UInt32) (data : δ) (s : State π β δ) :
    State π β δ :=
  (enter p (.allocating b write) { s with view := s.view.fill b blockno data }).note
    (.call p b write blockno data)

def allocDesc (s : State π β δ) : Option (Nat × State π β δ) :=
  ((List.range NUM).find? s.free).map fun i => (i, { s with free := update s.free i false })

def freeDesc (i : Nat) (s : State π β δ) : Except Panic (State π β δ) :=
  if NUM ≤ i then .error .freeDesc1
  else if s.free i then .error .freeDesc2
  else .ok (wakeup .free { s with desc := update s.desc i .zero, free := update s.free i true })

-- Every round frees one of the `NUM` descriptors or panics.
def freeChainFrom : Nat → Nat → State π β δ → Except Panic (State π β δ)
  | 0, _, _ => .error .chain
  | rounds + 1, i, s => (freeDesc i s).bind fun s' =>
    if (s.desc i).flags &&& VRING_DESC_F_NEXT ≠ 0 then freeChainFrom rounds (s.desc i).next s'
    else .ok s'

def freeChain (i : Nat) (s : State π β δ) : Except Panic (State π β δ) :=
  freeChainFrom (NUM + 1) i s

-- `idx` has the descriptors of the rounds before.
def allocDescs : Nat → List Nat → State π β δ → Except Panic (Option (List Nat) × State π β δ)
  | 0, idx, s => .ok (some idx, s)
  | rounds + 1, idx, s =>
    match s.allocDesc with
    | some (i, s) => allocDescs rounds (idx ++ [i]) s
    | none => do return (none, ← idx.foldlM (fun s i => freeDesc i s) s)

def alloc3Desc (s : State π β δ) : Except Panic (Option (List Nat) × State π β δ) := allocDescs 3 [] s

-- The product is one of 32 bits.
def sector (blockno : UInt32) : UInt64 := (blockno * UInt32.ofNat (BSIZE / 512)).toUInt64

def blkReq (write : Bool) (sector : UInt64) : Op :=
  ⟨if write then VIRTIO_BLK_T_OUT else VIRTIO_BLK_T_IN, 0, sector⟩

def opDesc (i₀ i₁ : Nat) : Desc β := ⟨.op i₀, 16, VRING_DESC_F_NEXT, i₁⟩

def dataDesc (b : β) (write : Bool) (i₂ : Nat) : Desc β :=
  ⟨.data b, UInt32.ofNat BSIZE, (if write then 0 else VRING_DESC_F_WRITE) ||| VRING_DESC_F_NEXT, i₂⟩

def statusDesc (i₀ : Nat) : Desc β := ⟨.status i₀, 1, VRING_DESC_F_WRITE, 0⟩

-- The three descriptors are filled in and their head goes into the avail ring. The
-- buffer is locked, so that its block number is what it was at the start of the call.
def publish (r : Req β) (s : State π β δ) : State π β δ :=
  { s with
    ops := update s.ops r.i₀ (blkReq r.write (sector (s.view.blockno r.buf)))
    desc := update (update (update s.desc r.i₀ (opDesc r.i₀ r.i₁)) r.i₁
      (dataDesc r.buf r.write r.i₂)) r.i₂ (statusDesc r.i₀)
    status := update s.status r.i₀ 0xff
    disk := update s.disk r.buf true
    info := update s.info r.i₀ (some r.buf)
    avail := s.avail.push r.i₀ }

-- `virtio_disk_rw` from the loop that waits for the interrupt on.
def finish (p : π) (r : Req β) (s : State π β δ) : Except Panic (State π β δ) :=
  if s.disk r.buf then .ok (s.sleep p (.buf r.buf))
  else do
    let s ← freeChain r.i₀ { s with info := update s.info r.i₀ none }
    return (s.enter p .idle).note (.ret p r.buf)

-- `virtio_disk_rw` from the loop that allocates on.
def virtioDiskRw (p : π) (b : β) (write : Bool) (s : State π β δ) :
    Except Panic (State π β δ) := do
  match ← alloc3Desc s with
  | (none, s) => return s.sleep p .free
  | (some idx, s) =>
    let r : Req β := ⟨b, write, idx[0]!, idx[1]!, idx[2]!⟩
    finish p r ((s.publish r).enter p (.waiting r))

-- One round of the loop of `virtio_disk_intr`. An interrupt may come at any time,
-- whether or not the one before was acknowledged, and anything may happen between
-- two rounds.
def virtioDiskIntr (s : State π β δ) : Except Panic (State π β δ) :=
  if s.usedIdx = s.used.idx then .ok s
  else
    let id := s.used.read s.usedIdx
    if s.status id ≠ 0 then .error .intrStatus
    else
      match s.info id with
      | none => .error .null
      | some b => .ok (wakeup (.buf b)
          { s with disk := update s.disk b false, usedIdx := s.usedIdx + 1 })

-- The device takes the next entry of the avail ring.
def take (s : State π β δ) : State π β δ :=
  { s with devIdx := s.devIdx + 1, taken := s.taken ++ [s.avail.read s.devIdx] }

-- What the device finds in memory from the head of a chain on: a request, a block it
-- may write exactly if it is to read from the medium, and a status it may write.
def request (head : Nat) (s : State π β δ) : Option (Op × β × Nat) :=
  let d₀ := s.desc head
  let d₁ := s.desc d₀.next
  let d₂ := s.desc d₁.next
  match d₀.addr, d₁.addr, d₂.addr with
  | .op i, .data b, .status j =>
    if d₀.len = 16 ∧ d₀.flags = VRING_DESC_F_NEXT ∧ (s.ops i).type ≤ VIRTIO_BLK_T_OUT ∧
        d₁.len = UInt32.ofNat BSIZE ∧
        d₁.flags = (if (s.ops i).type = VIRTIO_BLK_T_OUT then 0 else VRING_DESC_F_WRITE) |||
          VRING_DESC_F_NEXT ∧
        d₂.len = 1 ∧ d₂.flags = VRING_DESC_F_WRITE then
      some (s.ops i, b, j)
    else none
  | _, _, _ => none

-- The device posts a request that it has taken. The status and the data that it then
-- leaves are its own choice.
def complete (head : Nat) (status : UInt8) (view : View β δ) (s : State π β δ) :
    Except Panic (State π β δ) :=
  match s.request head with
  | none => .error .chain
  | some (op, b, j) => .ok { s with
      view := view
      status := update s.status j status
      used := s.used.push head
      taken := s.taken.erase head
      history := s.history ++ [.move b (op.type = VIRTIO_BLK_T_OUT)] }

end State

-- A section with `vdisk_lock`, or a step of the device.
inductive Event (π β δ : Type) where
  | rw (p : π) (b : β) (write : Bool) (blockno : UInt32) (data : δ)
  | resume (p : π)
  | intr
  | take
  | complete (head : Nat) (status : UInt8) (view : View β δ)

def step (s : State π β δ) : Event π β δ → Except Panic (State π β δ)
  | .rw p b write blockno data => (s.call p b write blockno data).virtioDiskRw p b write
  | .resume p =>
    match s.phase p, s.asleep p with
    | .allocating b write, none => s.virtioDiskRw p b write
    | .waiting r, none => s.finish p r
    | _, _ => .ok s
  | .intr => s.virtioDiskIntr
  | .take => .ok s.take
  | .complete head status view => s.complete head status view

-- The callers: a process is in one call at a time, a buffer has a sleep lock, and a
-- block number times two has 32 bits.
def Orderly (s : State π β δ) : Event π β δ → Prop
  | .rw p b _ blockno _ => s.phase p = .idle ∧ (∀ q, (s.phase q).buf ≠ some b) ∧ blockno.toNat < 2 ^ 31
  | _ => True

-- The device: it takes what is there, in the order of the avail ring, carries out what
-- it has taken, in any order, and reports success.
def Reliable (s : State π β δ) : Event π β δ → Prop
  | .take => s.devIdx ≠ s.avail.idx
  | .complete head status view => head ∈ s.taken ∧ ∀ op b j, s.request head = some (op, b, j) →
      status = 0 ∧ view = s.view.move b op.sector (op.type = VIRTIO_BLK_T_OUT)
  | _ => True

-- A call for a buffer: who made it, its direction, and whether its block has moved.
structure Job (π : Type) where
  caller : π
  write : Bool
  done : Bool
deriving DecidableEq

-- A disk that moves a block at once, at some moment between the call and its return.
structure Atomic (π β δ : Type) where
  view : View β δ
  job : β → Option (Job π)

namespace Atomic

def assign (t : Atomic π β δ) (b : β) (job : Option (Job π)) : Atomic π β δ :=
  { t with job := update t.job b job }

-- A block is two sectors of the medium.
def sector (blockno : UInt32) : UInt64 := UInt64.ofNat (2 * blockno.toNat)

def step (t : Atomic π β δ) : Deed π β δ → Option (Atomic π β δ)
  | .call p b write blockno data =>
    if t.job b = none then
      some (assign { t with view := t.view.fill b blockno data } b (some ⟨p, write, false⟩))
    else none
  | .move b write => (t.job b).bind fun job =>
    if job.write = write ∧ job.done = false then
      some (assign { t with view := t.view.move b (sector (t.view.blockno b)) write } b
        (some { job with done := true }))
    else none
  | .ret p b => (t.job b).bind fun job =>
    if job.caller = p ∧ job.done = true then some (t.assign b none) else none

def start (view : View β δ) : Atomic π β δ := ⟨view, fun _ => none⟩

end Atomic

theorem sector_eq {blockno : UInt32} (h : blockno.toNat < 2 ^ 31) :
    State.sector blockno = Atomic.sector blockno := by
  apply UInt64.toNat_inj.mp
  have hsize : (UInt32.ofNat (BSIZE / 512)).toNat = 2 := by decide
  rw [State.sector, Atomic.sector, UInt32.toNat_toUInt64, UInt32.toNat_mul, hsize,
    UInt64.toNat_ofNat_of_lt' (show 2 * blockno.toNat < 2 ^ 64 by omega)]
  omega

example : State.sector 0x80000000 = 0 := by decide

end Xv6Ringbuf.Virtio
