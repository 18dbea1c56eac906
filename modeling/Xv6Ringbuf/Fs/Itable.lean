import Xv6Ringbuf.Fs.Inode
import Xv6Ringbuf.Trace

namespace Xv6Ringbuf.Fs

open Function

inductive ItablePanic where
  | ilock
  | ilockNoType
  | iunlock
  | igetNoInodes
  deriving DecidableEq

-- Where a process stands in an `iput` that frees the inode.
inductive Freeing where
  | itrunc
  | clearType
  | iupdate
  | invalidate
  | releasesleep
  | decrement
  deriving DecidableEq

-- Where a process stands: between two calls, in `ilock` with the sleep lock
-- taken, in an `iput` that frees the inode, in the scan of `ialloc`, or at the
-- `iget` that ends it.
inductive ItablePc where
  | idle
  | loading (i : Ip)
  | freeing (i : Ip) (stage : Freeing)
  | scanning (dev : UInt32) (type : Int16) (inum : UInt32)
  | getting (dev inum : UInt32)
  deriving DecidableEq

-- The inode table, the inodes on the logical disk, and the processes `P`.
-- `refs` lists the references that are outstanding, each with its holder, and
-- `dirty` marks the entries whose holder owes an `iupdate`.
structure Itable (P : Type) where
  table : Table
  lock : Ip → Option P
  disk : UInt32 → UInt32 → Dinode
  refs : List (P × Ip)
  dirty : Ip → Bool
  pc : P → ItablePc
  panic : Option ItablePanic

-- A section under `itable.lock`, the taking and the release of a sleep lock and
-- an access to the block of an inode are one event each. `pass` hands a
-- reference to another process, as `fork` and a shared file do.
inductive ItableEvent (P : Type) where
  | iget (p : P) (dev inum : UInt32)
  | idup (p : P) (i : Ip)
  | pass (p q : P) (i : Ip)
  | ilock (p : P) (i : Ip)
  | load (p : P)
  | change (p : P) (i : Ip) (din : Dinode)
  | iupdate (p : P) (i : Ip)
  | iunlock (p : P) (i : Ip)
  | iput (p : P) (i : Ip)
  | free (p : P)
  | ialloc (p : P) (dev : UInt32) (type : Int16)
  | scan (p : P)

namespace Itable

variable {P : Type} [DecidableEq P]

def goto (t : Itable P) (p : P) (pc : ItablePc) : Itable P :=
  { t with pc := update t.pc p pc }

def setEntry (t : Itable P) (i : Ip) (entry : Inode) : Itable P :=
  { t with table := update t.table i entry }

def setDisk (t : Itable P) (dev inum : UInt32) (din : Dinode) : Itable P :=
  { t with disk := update t.disk dev (update (t.disk dev) inum din) }

def home (t : Itable P) (i : Ip) : Dinode := t.disk (t.table i).dev (t.table i).inum

-- `iupdate`: the copy in the table goes to the disk.
def flush (t : Itable P) (i : Ip) : Itable P :=
  { t.setDisk (t.table i).dev (t.table i).inum (t.table i).din with
    dirty := update t.dirty i false }

def iget (t : Itable P) (p : P) (dev inum : UInt32) : Itable P :=
  match t.table.iget dev inum with
  | some (i, table) => { t with table := table, refs := (p, i) :: t.refs }
  | none => { t with panic := some .igetNoInodes }

-- `ilock` up to the sleep lock. A process that waits for the lock has no event.
def ilock (t : Itable P) (p : P) (i : Ip) : Option (Itable P) :=
  if (t.table i).ref < 1 then some { t with panic := some .ilock }
  else if t.lock i = none then
    some ({ t with lock := update t.lock i (some p) }.goto p (.loading i))
  else none

def load (t : Itable P) (p : P) (i : Ip) : Itable P :=
  if (t.table i).valid then t.goto p .idle
  else
    let t' := t.setEntry i { t.table i with valid := true, din := t.home i }
    if (t.home i).type = 0 then { t' with panic := some .ilockNoType }
    else t'.goto p .idle

def iunlock (t : Itable P) (p : P) (i : Ip) : Itable P :=
  if t.lock i ≠ some p ∨ (t.table i).ref < 1 then { t with panic := some .iunlock }
  else { t with lock := update t.lock i none }

def decrement (t : Itable P) (p : P) (i : Ip) : Itable P :=
  { t with table := t.table.drop i, refs := t.refs.erase (p, i) }

-- `iput` up to the end of its first section. It takes the sleep lock inside of
-- that section, where nobody could wait for it.
def iput (t : Itable P) (p : P) (i : Ip) : Option (Itable P) :=
  if (t.table i).Unlinked then
    if t.lock i = none then
      some ({ t with lock := update t.lock i (some p) }.goto p (.freeing i .itrunc))
    else none
  else some (t.decrement p i)

def free (t : Itable P) (p : P) (i : Ip) : Freeing → Itable P
  | .itrunc =>
    ((t.setEntry i { t.table i with din := { (t.table i).din with size := 0, addrs := fun _ => 0 } }).flush
      i).goto p (.freeing i .clearType)
  | .clearType =>
    (t.setEntry i { t.table i with din := { (t.table i).din with type := 0 } }).goto p
      (.freeing i .iupdate)
  | .iupdate => (t.flush i).goto p (.freeing i .invalidate)
  | .invalidate =>
    (t.setEntry i { t.table i with valid := false }).goto p (.freeing i .releasesleep)
  | .releasesleep => { t with lock := update t.lock i none }.goto p (.freeing i .decrement)
  | .decrement => (t.decrement p i).goto p .idle

-- One round of the scan of `ialloc`, up to the number of inodes of the disk.
def scan (ninodes : UInt32) (t : Itable P) (p : P) (dev : UInt32) (type : Int16) (inum : UInt32) :
    Itable P :=
  if inum < ninodes then
    if (t.disk dev inum).type = 0 then
      (t.setDisk dev inum { Dinode.zero with type := type }).goto p (.getting dev inum)
    else t.goto p (.scanning dev type (inum + 1))
  else t.goto p .idle

-- A process uses an inode through a reference it holds, changes the copy only
-- under the lock, follows a change by `iupdate` before `iunlock`, and keeps a
-- reference as long as it holds the lock.
def step (ninodes : UInt32) (t : Itable P) (e : ItableEvent P) : Option (Itable P) :=
  if t.panic.isSome then none
  else
    match e with
    | .iget p dev inum => if t.pc p = .idle then some (t.iget p dev inum) else none
    | .idup p i =>
      if t.pc p = .idle ∧ (p, i) ∈ t.refs then
        some { t with table := t.table.idup i, refs := (p, i) :: t.refs }
      else none
    | .pass p q i =>
      if t.pc p = .idle ∧ (p, i) ∈ t.refs ∧ (t.lock i = some p → 2 ≤ t.refs.count (p, i)) then
        some { t with refs := (q, i) :: t.refs.erase (p, i) }
      else none
    | .ilock p i => if t.pc p = .idle ∧ (p, i) ∈ t.refs then t.ilock p i else none
    | .load p =>
      match t.pc p with
      | .loading i => some (t.load p i)
      | _ => none
    | .change p i din =>
      if t.pc p = .idle ∧ t.lock i = some p then
        some { t.setEntry i { t.table i with din := din } with
          dirty := update t.dirty i true }
      else none
    | .iupdate p i => if t.pc p = .idle ∧ t.lock i = some p then some (t.flush i) else none
    | .iunlock p i =>
      if t.pc p = .idle ∧ t.lock i = some p ∧ t.dirty i = false then some (t.iunlock p i)
      else none
    | .iput p i =>
      if t.pc p = .idle ∧ (p, i) ∈ t.refs ∧ (t.lock i = some p → 2 ≤ t.refs.count (p, i)) then
        t.iput p i
      else none
    | .free p =>
      match t.pc p with
      | .freeing i stage => some (t.free p i stage)
      | _ => none
    | .ialloc p dev type =>
      if t.pc p = .idle then some (t.goto p (.scanning dev type 1)) else none
    | .scan p =>
      match t.pc p with
      | .scanning dev type inum => some (t.scan ninodes p dev type inum)
      | .getting dev inum => some ((t.iget p dev inum).goto p .idle)
      | _ => none

def init (disk : UInt32 → UInt32 → Dinode) : Itable P :=
  ⟨.empty, fun _ => none, disk, [], fun _ => false, fun _ => .idle, none⟩

end Itable

-- Only `iput` gives an inode the type of a free one. A holder that does so in its
-- copy lets `ialloc` take an inode that is in use.
def ItableEvent.Typed {P : Type} : ItableEvent P → Prop
  | .change _ _ din => din.type ≠ 0
  | _ => True

-- What is known of an entry that is valid, from the most to nothing.
inductive Duty where
  | full
  | typed
  | homeTyped
  | any

-- What the process that has an inode locked guarantees of it meanwhile.
def ItablePc.duty (pc : ItablePc) (i : Ip) : Duty :=
  match pc with
  | .freeing j stage =>
    if j = i then
      match stage with
      | .itrunc | .clearType => .typed
      | .iupdate => .homeTyped
      | _ => .any
    else .full
  | _ => .full

def Duty.Meets (duty : Duty) (dirty : Bool) (din home : Dinode) : Prop :=
  match duty with
  | .full => home.type ≠ 0 ∧ din.type ≠ 0 ∧ (dirty = false → din = home)
  | .typed => home.type ≠ 0 ∧ din.type ≠ 0
  | .homeTyped => home.type ≠ 0
  | .any => True

namespace Itable

section Invariant

variable {P : Type}

def duty (t : Itable P) (i : Ip) : Duty :=
  match t.lock i with
  | none => .full
  | some p => (t.pc p).duty i

def Meets (t : Itable P) (i : Ip) : Prop :=
  (t.duty i).Meets (t.dirty i) (t.table i).din (t.home i)

-- Where a process stands in a call that goes over several events.
structure Standing (t : Itable P) (p : P) : Prop where
  loading : ∀ i, t.pc p = .loading i → t.lock i = some p ∧ t.dirty i = false
  freeing : ∀ i stage, t.pc p = .freeing i stage → (p, i) ∈ t.refs ∧
    (stage ≠ .decrement → t.lock i = some p ∧ t.dirty i = false) ∧
    (stage = .decrement → t.lock i ≠ some p) ∧
    (stage = .releasesleep → (t.table i).valid = false)

structure Coherent (t : Itable P) : Prop where
  unique : t.table.Unique
  count : ∀ i, (t.table i).ref = (t.refs.map Prod.snd).count i
  holder : ∀ i p, t.lock i = some p → (p, i) ∈ t.refs
  clean : ∀ i, t.lock i = none → t.dirty i = false
  standing : ∀ p, Standing t p
  entry : ∀ i, 0 < (t.table i).ref → (t.table i).valid = true →
    t.panic = some .ilockNoType ∧ t.lock i ≠ none ∨ t.Meets i

variable {t t' : Itable P} {p : P} {i : Ip}

theorem Coherent.ref_pos (h : Coherent t) (hmem : (p, i) ∈ t.refs) :
    0 < (t.table i).ref := by
  rw [h.count]
  exact List.count_pos_iff.mpr (List.mem_map.mpr ⟨(p, i), hmem, rfl⟩)

theorem Coherent.meets (h : Coherent t) (hpanic : t.panic = none) (href : 0 < (t.table i).ref)
    (hvalid : (t.table i).valid = true) : t.Meets i := by
  rcases h.entry i href hvalid with ⟨hno, -⟩ | hmeets
  · rw [hpanic] at hno
    cases hno
  · exact hmeets

theorem Coherent.din_eq_home (h : Coherent t) (href : 0 < (t.table i).ref)
    (hvalid : (t.table i).valid = true) (hlock : t.lock i = none) : (t.table i).din = t.home i := by
  rcases h.entry i href hvalid with ⟨-, hlocked⟩ | hmeets
  · exact absurd hlock hlocked
  · simp only [Meets, duty, hlock, Duty.Meets] at hmeets
    exact hmeets.2.2 (h.clean i hlock)

theorem Meets.congr (h : t.Meets i) (hduty : t'.duty i = t.duty i) (hdirty : t'.dirty i = t.dirty i)
    (hdin : (t'.table i).din = (t.table i).din) (hhome : t'.home i = t.home i) : t'.Meets i := by
  rw [Meets, hduty, hdirty, hdin, hhome]
  exact h

theorem init_coherent (disk : UInt32 → UInt32 → Dinode) : Coherent (init disk : Itable P) := by
  refine ⟨?_, fun _ => rfl, ?_, fun _ _ => rfl, ?_, ?_⟩
  · intro i j hi
    cases hi
  · intro i p hp
    cases hp
  · intro p
    constructor
    · intro i hi
      cases hi
    · intro i stage hi
      cases hi
  · intro i hi
    cases hi

theorem Standing.congr (h : Standing t p) (hpc : t'.pc p = t.pc p)
    (hlock : ∀ i, t'.lock i = some p ↔ t.lock i = some p)
    (hdirty : ∀ i, t.lock i = some p → t.dirty i = false → t'.dirty i = false)
    (hrefs : ∀ i, (p, i) ∈ t.refs → t.pc p ≠ .idle → (p, i) ∈ t'.refs)
    (hvalid : ∀ i, (p, i) ∈ t.refs → (t.table i).valid = false → t.lock i = some p →
      (t'.table i).valid = false) : Standing t' p := by
  constructor
  · intro i hi
    rw [hpc] at hi
    obtain ⟨hl, hd⟩ := h.loading i hi
    exact ⟨(hlock i).mpr hl, hdirty i hl hd⟩
  · intro i stage hi
    rw [hpc] at hi
    obtain ⟨hmem, hheld, hreleased, hinvalid⟩ := h.freeing i stage hi
    refine ⟨hrefs i hmem (by simp [hi]), ?_, ?_, ?_⟩
    · intro hstage
      obtain ⟨hl, hd⟩ := hheld hstage
      exact ⟨(hlock i).mpr hl, hdirty i hl hd⟩
    · intro hstage hl
      exact hreleased hstage ((hlock i).mp hl)
    · intro hstage
      obtain ⟨hl, -⟩ := hheld (by simp [hstage])
      exact hvalid i hmem (hinvalid hstage) hl

theorem Standing.idle (hpc : (∀ i, t.pc p ≠ .loading i) ∧ ∀ i stage, t.pc p ≠ .freeing i stage) :
    Standing t p :=
  ⟨fun i hi => absurd hi (hpc.1 i), fun i stage hi => absurd hi (hpc.2 i stage)⟩

end Invariant

variable {P : Type} [DecidableEq P]

theorem duty_goto (t : Itable P) (p : P) (pc : ItablePc) (i : Ip) :
    (t.goto p pc).duty i = if t.lock i = some p then pc.duty i else t.duty i := by
  simp only [duty, goto]
  cases hlock : t.lock i with
  | none => simp
  | some q =>
    by_cases hqp : q = p
    · subst hqp
      simp
    · simp [hqp]

theorem duty_goto_eq (t : Itable P) {p : P} {pc : ItablePc} {i : Ip}
    (h : t.lock i = some p → pc.duty i = (t.pc p).duty i) : (t.goto p pc).duty i = t.duty i := by
  rw [duty_goto]
  split
  · rename_i hlock
    rw [h hlock]
    simp only [duty, hlock]
  · rfl

end Itable

end Xv6Ringbuf.Fs
