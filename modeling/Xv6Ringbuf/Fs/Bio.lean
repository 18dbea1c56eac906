import Xv6Ringbuf.Crash

namespace Xv6Ringbuf.Fs

open Interleave Crash Function

def BSIZE : Nat := 1024

abbrev Block := Fin BSIZE → UInt8

abbrev Blockno := UInt32

def ROOTDEV : UInt32 := 1

-- A valid buffer of the device that holds the file system. `locked` is its
-- sleep lock.
structure Buf where
  data : Block
  refcnt : Nat
  locked : Bool

-- The disk and the buffer cache in front of it. `written` lists the blocks
-- that have been written to the disk, in order.
structure Bcache where
  disk : Blockno → Block
  buf : Blockno → Option Buf
  written : List Blockno

-- The calls of bio.c. `memmove` stands for any change of a locked buffer's data.
inductive Act where
  | bread (b : Blockno)
  | memmove (b : Blockno) (data : Block)
  | bwrite (b : Blockno)
  | brelse (b : Blockno)
  | bpin (b : Blockno)
  | bunpin (b : Blockno)

abbrev Answer : Act → Type
  | .bread _ => Block
  | _ => Unit

abbrev Code := Prog Act Answer

def Bcache.set (s : Bcache) (b : Blockno) (buf : Buf) : Bcache :=
  { s with buf := update s.buf b (some buf) }

-- The buffer of block `b` if this process has it locked. The calls below panic
-- on a buffer that is not locked.
def Bcache.locked (s : Bcache) (b : Blockno) : Option Buf :=
  (s.buf b).filter (·.locked)

-- A `bread` of a locked buffer never returns to the process that locked it.
def act : (a : Act) → Bcache → Option (Answer a × Bcache)
  | .bread b, s =>
    match s.buf b with
    | none => some (s.disk b, s.set b ⟨s.disk b, 1, true⟩)
    | some buf =>
      if buf.locked then none
      else some (buf.data, s.set b ⟨buf.data, buf.refcnt + 1, true⟩)
  | .memmove b data, s =>
    (s.locked b).map fun buf => ((), s.set b { buf with data := data })
  | .bwrite b, s =>
    (s.locked b).map fun buf =>
      ((), { s with disk := update s.disk b buf.data, written := s.written ++ [b] })
  | .brelse b, s =>
    (s.locked b).map fun buf =>
      ((), s.set b { buf with refcnt := buf.refcnt - 1, locked := false })
  | .bpin b, s =>
    (s.locked b).map fun buf => ((), s.set b { buf with refcnt := buf.refcnt + 1 })
  | .bunpin b, s =>
    (s.locked b).map fun buf => ((), s.set b { buf with refcnt := buf.refcnt - 1 })

-- What the rest of the system does to the cache meanwhile: `bget` recycles
-- buffers that nobody references, and other processes read blocks.
structure Drift (s t : Bcache) : Prop where
  disk : t.disk = s.disk
  written : t.written = s.written
  buf : ∀ b, t.buf b = s.buf b ∨
    (∀ buf, s.buf b = some buf → buf.refcnt = 0) ∧
      (t.buf b = none ∨ t.buf b = some ⟨s.disk b, 0, false⟩)

def exec (a : Act) (s : Bcache) (answer : Answer a) (s' : Bcache) : Prop :=
  ∃ t, Drift s t ∧ act a t = some (answer, s')

def bread (b : Blockno) : Code Block := .perform (Act.bread b)

def memmove (b : Blockno) (data : Block) : Code Unit := .perform (Act.memmove b data)

def bwrite (b : Blockno) : Code Unit := .perform (Act.bwrite b)

def brelse (b : Blockno) : Code Unit := .perform (Act.brelse b)

def bpin (b : Blockno) : Code Unit := .perform (Act.bpin b)

def bunpin (b : Blockno) : Code Unit := .perform (Act.bunpin b)

def boot (disk : Blockno → Block) : Bcache := ⟨disk, fun _ => none, []⟩

-- What the cache is for: a disk on which some blocks have pending contents that
-- are not written yet, and some blocks are held by this process.
structure Logical where
  disk : Blockno → Block
  pending : Blockno → Option Block
  held : Blockno → Option Block
  written : List Blockno

def Logical.contents (t : Logical) (b : Blockno) : Block := (t.pending b).getD (t.disk b)

open Classical in
-- A release without a pin must not lose a change.
noncomputable def step : (a : Act) → Logical → Option (Answer a × Logical)
  | .bread b, t =>
    match t.held b with
    | none => some (t.contents b, { t with held := update t.held b (some (t.contents b)) })
    | some _ => none
  | .memmove b data, t =>
    (t.held b).map fun _ => ((), { t with held := update t.held b (some data) })
  | .bwrite b, t =>
    (t.held b).map fun data =>
      ((), { t with disk := update t.disk b data, written := t.written ++ [b] })
  | .brelse b, t =>
    (t.held b).bind fun data =>
      if t.pending b = none ∧ data ≠ t.disk b then none
      else some ((), { t with
        held := update t.held b none
        pending := update t.pending b ((t.pending b).map fun _ => data) })
  | .bpin b, t =>
    (t.held b).bind fun data =>
      if t.pending b = none then
        some ((), { t with pending := update t.pending b (some data) })
      else none
  | .bunpin b, t =>
    (t.held b).bind fun _ =>
      if t.pending b = none then none
      else some ((), { t with pending := update t.pending b none })

section Inversion

variable {t t' : Logical} {b : Blockno}

theorem step_bread {answer : Block} (h : step (.bread b) t = some (answer, t')) :
    t.held b = none ∧ answer = t.contents b ∧
      t' = { t with held := update t.held b (some (t.contents b)) } := by
  cases hheld : t.held b with
  | some data => simp [step, hheld] at h
  | none =>
    simp only [step, hheld, Option.some.injEq, Prod.mk.injEq] at h
    exact ⟨rfl, h.1.symm, h.2.symm⟩

variable {answer : Unit}

theorem step_brelse (h : step (.brelse b) t = some (answer, t')) :
    ∃ data, t.held b = some data ∧ ¬(t.pending b = none ∧ data ≠ t.disk b) ∧ t' = { t with
      held := update t.held b none
      pending := update t.pending b ((t.pending b).map fun _ => data) } := by
  simp only [step, Option.bind_eq_some_iff, Option.ite_none_left_eq_some, Option.some.injEq,
    Prod.mk.injEq] at h
  obtain ⟨data, hheld, hkept, -, rfl⟩ := h
  exact ⟨data, hheld, hkept, rfl⟩

theorem step_bpin (h : step (.bpin b) t = some (answer, t')) :
    ∃ data, t.held b = some data ∧ t.pending b = none ∧
      t' = { t with pending := update t.pending b (some data) } := by
  simp only [step, Option.bind_eq_some_iff, Option.ite_none_right_eq_some, Option.some.injEq,
    Prod.mk.injEq] at h
  obtain ⟨data, hheld, hpending, -, rfl⟩ := h
  exact ⟨data, hheld, hpending, rfl⟩

theorem step_bunpin (h : step (.bunpin b) t = some (answer, t')) :
    ∃ data old, t.held b = some data ∧ t.pending b = some old ∧
      t' = { t with pending := update t.pending b none } := by
  simp only [step, Option.bind_eq_some_iff, Option.ite_none_left_eq_some, Option.some.injEq,
    Prod.mk.injEq] at h
  obtain ⟨data, hheld, hpending, -, rfl⟩ := h
  obtain ⟨old, hold⟩ := Option.ne_none_iff_exists'.mp hpending
  exact ⟨data, old, hheld, hold, rfl⟩

end Inversion

-- How one buffer of the cache stands for one block of the logical disk. A pin
-- is a reference of its own, so a block with pending contents is always cached.
def Slot (disk : Block) (pending held : Option Block) (buf : Option Buf) : Prop :=
  match held with
  | some data => ∃ refcnt, buf = some ⟨data, refcnt, true⟩ ∧ pending.toList.length < refcnt
  | none => buf = none ∧ pending = none ∨
      ∃ refcnt, buf = some ⟨pending.getD disk, refcnt, false⟩ ∧ pending.toList.length ≤ refcnt

structure Backs (t : Logical) (s : Bcache) : Prop where
  disk : s.disk = t.disk
  written : s.written = t.written
  slot : ∀ b, Slot (t.disk b) (t.pending b) (t.held b) (s.buf b)

variable {t : Logical} {s : Bcache} {b : Blockno} {data : Block}

theorem Backs.of_held (h : Backs t s) (hheld : t.held b = some data) :
    ∃ refcnt, s.buf b = some ⟨data, refcnt, true⟩ ∧ (t.pending b).toList.length < refcnt := by
  simpa only [Slot, hheld] using h.slot b

theorem Backs.of_free (h : Backs t s) (hfree : t.held b = none) :
    s.buf b = none ∧ t.pending b = none ∨ ∃ refcnt,
      s.buf b = some ⟨t.contents b, refcnt, false⟩ ∧ (t.pending b).toList.length ≤ refcnt := by
  simpa only [Slot, hfree, Logical.contents] using h.slot b

theorem Backs.locked_of_held (h : Backs t s) (hheld : t.held b = some data) :
    ∃ refcnt, s.locked b = some ⟨data, refcnt, true⟩ ∧ (t.pending b).toList.length < refcnt := by
  obtain ⟨refcnt, hbuf, hpins⟩ := h.of_held hheld
  exact ⟨refcnt, by simp [Bcache.locked, hbuf], hpins⟩

theorem Backs.drift {s' : Bcache} (h : Backs t s) (hdrift : Drift s s') :
    Backs t s' := by
  refine ⟨hdrift.disk.trans h.disk, hdrift.written.trans h.written, ?_⟩
  intro b
  rcases hdrift.buf b with heq | ⟨hunused, hnew⟩
  · rw [heq]
    exact h.slot b
  · cases hheld : t.held b with
    | some data =>
      obtain ⟨refcnt, hbuf, hpins⟩ := h.of_held hheld
      have hzero := hunused _ hbuf
      simp only at hzero
      omega
    | none =>
      have hpending : t.pending b = none := by
        rcases h.of_free hheld with ⟨_, hpending⟩ | ⟨refcnt, hbuf, hpins⟩
        · exact hpending
        · have hzero : refcnt = 0 := hunused _ hbuf
          simpa [hzero] using hpins
      rw [congrFun h.disk b] at hnew
      rcases hnew with hnew | hnew
      · exact .inl ⟨hnew, hpending⟩
      · exact .inr ⟨0, by rw [hnew, hpending]; rfl, by simp [hpending]⟩

theorem Backs.set {t' : Logical} (h : Backs t s) {buf : Buf} (hdisk : t'.disk = t.disk)
    (hwritten : t'.written = t.written)
    (hother : ∀ c, c ≠ b → t'.pending c = t.pending c ∧ t'.held c = t.held c)
    (hslot : Slot (t.disk b) (t'.pending b) (t'.held b) (some buf)) : Backs t' (s.set b buf) := by
  refine ⟨h.disk.trans hdisk.symm, h.written.trans hwritten.symm, ?_⟩
  intro c
  rw [hdisk]
  by_cases hcb : c = b
  · simpa only [hcb, Bcache.set, update_self] using hslot
  · obtain ⟨hpending, hheld⟩ := hother c hcb
    simpa only [Bcache.set, update_of_ne hcb, hpending, hheld] using h.slot c

-- What the logical disk does, the cache does with the same answer.
def Follows (a : Act) (t : Logical) (s : Bcache) : Prop :=
  ∀ answer t', step a t = some (answer, t') → ∃ s', act a s = some (answer, s') ∧ Backs t' s'

theorem follows_bread (h : Backs t s) (b : Blockno) :
    Follows (.bread b) t s := by
  intro answer t' hstep
  obtain ⟨hheld, rfl, rfl⟩ := step_bread hstep
  rcases h.of_free hheld with ⟨hbuf, hpending⟩ | ⟨refcnt, hbuf, hpins⟩
  · have hcontents : s.disk b = t.contents b := by
      simp [Logical.contents, hpending, h.disk]
    refine ⟨s.set b ⟨t.contents b, 1, true⟩, by simp only [act, hbuf, hcontents],
      h.set rfl rfl ?_ ?_⟩
    · exact fun c hcb => ⟨rfl, update_of_ne hcb _ _⟩
    · simp only [Slot, update_self, hpending]
      exact ⟨1, rfl, by simp⟩
  · refine ⟨s.set b ⟨t.contents b, refcnt + 1, true⟩,
      by simp only [act, hbuf, Bool.false_eq_true, if_false], h.set rfl rfl ?_ ?_⟩
    · exact fun c hcb => ⟨rfl, update_of_ne hcb _ _⟩
    · simp only [Slot, update_self]
      exact ⟨refcnt + 1, rfl, by omega⟩

theorem follows_memmove (h : Backs t s) (b : Blockno) (data : Block) :
    Follows (.memmove b data) t s := by
  intro answer t' hstep
  simp only [step, Option.map_eq_some_iff, Prod.mk.injEq] at hstep
  obtain ⟨old, hheld, -, rfl⟩ := hstep
  obtain ⟨refcnt, hlocked, hpins⟩ := h.locked_of_held hheld
  refine ⟨s.set b ⟨data, refcnt, true⟩, by simp only [act, hlocked, Option.map_some],
    h.set rfl rfl ?_ ?_⟩
  · exact fun c hcb => ⟨rfl, update_of_ne hcb _ _⟩
  · simp only [Slot, update_self]
    exact ⟨refcnt, rfl, hpins⟩

theorem follows_bwrite (h : Backs t s) (b : Blockno) :
    Follows (.bwrite b) t s := by
  intro answer t' hstep
  simp only [step, Option.map_eq_some_iff, Prod.mk.injEq] at hstep
  obtain ⟨data, hheld, -, rfl⟩ := hstep
  obtain ⟨refcnt, hlocked, _⟩ := h.locked_of_held hheld
  refine ⟨_, by simp only [act, hlocked, Option.map_some]; rfl, ?_, ?_, ?_⟩
  · simp only [h.disk]
  · simp only [h.written]
  · intro c
    by_cases hcb : c = b
    · have hslot := h.slot b
      simpa only [hcb, Slot, hheld] using hslot
    · simpa only [update_of_ne hcb] using h.slot c

theorem follows_brelse (h : Backs t s) (b : Blockno) :
    Follows (.brelse b) t s := by
  intro answer t' hstep
  obtain ⟨data, hheld, hkept, rfl⟩ := step_brelse hstep
  obtain ⟨refcnt, hlocked, hpins⟩ := h.locked_of_held hheld
  refine ⟨s.set b ⟨data, refcnt - 1, false⟩, by simp only [act, hlocked, Option.map_some],
    h.set rfl rfl ?_ ?_⟩
  · exact fun c hcb => ⟨update_of_ne hcb _ _, update_of_ne hcb _ _⟩
  · simp only [Slot, update_self]
    refine .inr ⟨refcnt - 1, ?_, ?_⟩
    · cases hpending : t.pending b with
      | none =>
        have hdata : data = t.disk b := by simpa [hpending] using hkept
        rw [hdata]
        rfl
      | some old => rfl
    · cases hpending : t.pending b with
      | none => simp
      | some old =>
        rw [hpending] at hpins
        simp only [Option.toList_some, List.length_singleton] at hpins
        simp only [Option.map_some, Option.toList_some, List.length_singleton]
        omega

theorem follows_bpin (h : Backs t s) (b : Blockno) :
    Follows (.bpin b) t s := by
  intro answer t' hstep
  obtain ⟨data, hheld, -, rfl⟩ := step_bpin hstep
  obtain ⟨refcnt, hlocked, hpins⟩ := h.locked_of_held hheld
  refine ⟨s.set b ⟨data, refcnt + 1, true⟩, by simp only [act, hlocked, Option.map_some],
    h.set rfl rfl ?_ ?_⟩
  · exact fun c hcb => ⟨update_of_ne hcb _ _, rfl⟩
  · simp only [Slot, hheld, update_self]
    refine ⟨refcnt + 1, rfl, ?_⟩
    simp only [Option.toList_some, List.length_singleton]
    omega

theorem follows_bunpin (h : Backs t s) (b : Blockno) :
    Follows (.bunpin b) t s := by
  intro answer t' hstep
  obtain ⟨data, old, hheld, hpending, rfl⟩ := step_bunpin hstep
  obtain ⟨refcnt, hlocked, hpins⟩ := h.locked_of_held hheld
  rw [hpending] at hpins
  simp only [Option.toList_some, List.length_singleton] at hpins
  refine ⟨s.set b ⟨data, refcnt - 1, true⟩, by simp only [act, hlocked, Option.map_some],
    h.set rfl rfl ?_ ?_⟩
  · exact fun c hcb => ⟨update_of_ne hcb _ _, rfl⟩
  · simp only [Slot, hheld, update_self]
    refine ⟨refcnt - 1, rfl, ?_⟩
    simp only [Option.toList_none, List.length_nil]
    omega

theorem follows (h : Backs t s) (a : Act) : Follows a t s := by
  cases a with
  | bread b => exact follows_bread h b
  | memmove b data => exact follows_memmove h b data
  | bwrite b => exact follows_bwrite h b
  | brelse b => exact follows_brelse h b
  | bpin b => exact follows_bpin h b
  | bunpin b => exact follows_bunpin h b

theorem drift_refl (s : Bcache) : Drift s s := ⟨rfl, rfl, fun _ => .inl rfl⟩

theorem simulates : Simulates (fun a t answer t' => step a t = some (answer, t')) exec Backs := by
  intro a t s hback ⟨answer, t', hstep⟩
  constructor
  · obtain ⟨s', hact, _⟩ := follows hback a answer t' hstep
    exact ⟨answer, s', s, drift_refl s, hact⟩
  · rintro answer' s' ⟨u, hdrift, hact⟩
    obtain ⟨s'', hact', hback'⟩ := follows (hback.drift hdrift) a answer t' hstep
    obtain ⟨rfl, rfl⟩ := Prod.mk.inj (Option.some.inj (hact'.symm.trans hact))
    exact ⟨t', hstep, hback'⟩

theorem boot_backs (disk : Blockno → Block) :
    Backs ⟨disk, fun _ => none, fun _ => none, []⟩ (boot disk) :=
  ⟨rfl, rfl, fun _ => .inl ⟨rfl, rfl⟩⟩

end Xv6Ringbuf.Fs
