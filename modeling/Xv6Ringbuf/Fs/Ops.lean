import Xv6Ringbuf.Fs.Transaction
import Xv6Ringbuf.Trace

namespace Xv6Ringbuf.Fs

open Interleave Crash Function

-- The panics of log.c.
inductive LogPanic where
  | logCommitting
  | tooBigTransaction
  | outsideOfTrans
  deriving DecidableEq

-- What `log_write` does to the header. The answer says whether the block is
-- new, which is when its buffer is pinned.
def Log.enter (log : Log) (b : Blockno) : Except LogPanic (Option (Bool × Log)) :=
  if (LOGSIZE : Int) ≤ log.lh.n.toInt ∨ log.size - 1 ≤ log.lh.n then .error .tooBigTransaction
  else if log.outstanding < 1 then .error .outsideOfTrans
  else
    let i := entryIndex log.lh b log.lh.rounds 0
    if h : i < LOGSIZE then
      let block := update log.lh.block ⟨i, h⟩ b
      if i = log.lh.rounds then .ok (some (true, { log with lh := ⟨log.lh.n + 1, block⟩ }))
      else .ok (some (false, { log with lh := ⟨log.lh.n, block⟩ }))
    else .ok none

-- Where a process stands in `commit`.
inductive Stage where
  | begun
  | writeLog (tail : Nat)
  | writeHead
  | installTrans (tail : Nat)
  | clear
  | eraseHead
  | returned
  deriving DecidableEq

-- Where a process stands with respect to the log: outside of an operation,
-- asleep in `begin_op`, woken up there, inside of an operation, or in the
-- `commit` at the end of one.
inductive Pc where
  | outside
  | asleep
  | woken
  | inside
  | committing (stage : Stage)
  deriving DecidableEq

-- A write to the disk: the copy of a block in the log, the header with its
-- count, or a block at home.
inductive Write where
  | logged (b : Blockno)
  | head (n : Int32)
  | home (b : Blockno)
  deriving DecidableEq

-- The log and the processes `P` that use it. `written` lists the writes to the
-- disk in order, each with the process that made it.
structure Ops (P : Type) where
  log : Log
  committing : Bool
  pc : P → Pc
  written : List (P × Write)
  panic : Option LogPanic

-- A section under `log.lock` is one event, and so is each step of `commit`,
-- which does not hold the lock.
inductive Event (P : Type) where
  | beginOp (p : P)
  | logWrite (p : P) (b : Blockno)
  | endOp (p : P)
  | commit (p : P)
  | finish (p : P)

namespace Ops

variable {P : Type} [DecidableEq P]

def set (s : Ops P) (p : P) (pc : Pc) : Ops P := { s with pc := update s.pc p pc }

def wakeup (s : Ops P) : Ops P :=
  { s with pc := fun p => if s.pc p = .asleep then .woken else s.pc p }

-- One round of the loop of `begin_op`.
def beginOp (s : Ops P) (p : P) : Ops P :=
  if s.committing then s.set p .asleep
  else if s.log.lh.n + (s.log.outstanding + 1) * Int32.ofNat MAXOPBLOCKS > Int32.ofNat LOGSIZE then
    s.set p .asleep
  else { s with log := { s.log with outstanding := s.log.outstanding + 1 } }.set p .inside

def logWrite (s : Ops P) (b : Blockno) : Option (Ops P) :=
  match s.log.enter b with
  | .error e => some { s with panic := some e }
  | .ok none => none
  | .ok (some (_, log)) => some { s with log := log }

def endOp (s : Ops P) (p : P) : Ops P :=
  let s := { s with log := { s.log with outstanding := s.log.outstanding - 1 } }
  if s.committing then { s with panic := some .logCommitting }
  else if s.log.outstanding = 0 then { s with committing := true }.set p (.committing .begun)
  else (s.set p .outside).wakeup

def write (s : Ops P) (p : P) (w : Write) : Ops P := { s with written := s.written ++ [(p, w)] }

-- One round of a loop of `commit` over the entries, and the stage after the loop.
def forEntry (s : Ops P) (p : P) (w : Blockno → Write) (tail : Nat) (next after : Stage) :
    Option (Ops P) :=
  if (tail : Int) < s.log.lh.n.toInt then
    if h : tail < LOGSIZE then
      some ((s.write p (w (s.log.lh.block ⟨tail, h⟩))).set p (.committing next))
    else none
  else some (s.set p (.committing after))

-- One step of `commit`. It reads the log as it is at that moment.
def commit (s : Ops P) (p : P) : Stage → Option (Ops P)
  | .begun =>
    some (s.set p (.committing (if 0 < s.log.lh.n then .writeLog 0 else .returned)))
  | .writeLog tail => s.forEntry p .logged tail (.writeLog (tail + 1)) .writeHead
  | .writeHead => some ((s.write p (.head s.log.lh.n)).set p (.committing (.installTrans 0)))
  | .installTrans tail => s.forEntry p .home tail (.installTrans (tail + 1)) .clear
  | .clear => some ({ s with log := s.log.clear }.set p (.committing .eraseHead))
  | .eraseHead => some ((s.write p (.head s.log.lh.n)).set p (.committing .returned))
  | .returned => none

def finish (s : Ops P) (p : P) : Ops P :=
  ({ s with committing := false }.set p .outside).wakeup

-- A process calls `end_op` once for each `begin_op`. Nothing keeps it from
-- calling `log_write` outside of an operation.
def step (s : Ops P) (e : Event P) : Option (Ops P) :=
  if s.panic.isSome then none
  else
    match e with
    | .beginOp p => if s.pc p = .outside ∨ s.pc p = .woken then some (s.beginOp p) else none
    | .logWrite p b => if s.pc p = .outside ∨ s.pc p = .inside then s.logWrite b else none
    | .endOp p => if s.pc p = .inside then some (s.endOp p) else none
    | .commit p =>
      match s.pc p with
      | .committing stage => s.commit p stage
      | _ => none
    | .finish p => if s.pc p = .committing .returned then some (s.finish p) else none

def init (start : Blockno) (size : Int32) (block : Fin LOGSIZE → Blockno) : Ops P :=
  ⟨⟨start, size, 0, ⟨0, block⟩⟩, false, fun _ => .outside, [], none⟩

end Ops

theorem toInt_add_one {n : Int32} (hlo : 0 ≤ n.toInt) (hhi : n.toInt ≤ 1000) :
    (n + 1).toInt = n.toInt + 1 := by
  rw [Int32.toInt_add]
  change (n.toInt + 1).bmod (2 ^ 32) = _
  apply Int.bmod_eq_of_le <;> omega

theorem toInt_sub_one {n : Int32} (hlo : 0 ≤ n.toInt) (hhi : n.toInt ≤ 1000) :
    (n - 1).toInt = n.toInt - 1 := by
  rw [Int32.toInt_sub]
  change (n.toInt - 1).bmod (2 ^ 32) = _
  apply Int.bmod_eq_of_le <;> omega

theorem reserve_le_iff {n outstanding : Int32} (hn : 0 ≤ n.toInt) (hn' : n.toInt ≤ LOGSIZE)
    (ho : 0 ≤ outstanding.toInt) (ho' : outstanding.toInt ≤ 3) :
    ¬(n + (outstanding + 1) * Int32.ofNat MAXOPBLOCKS > Int32.ofNat LOGSIZE) ↔
      n.toInt + (outstanding.toInt + 1) * 10 ≤ 30 := by
  have hlogsize : LOGSIZE = 30 := rfl
  have hsucc := toInt_add_one ho (by omega)
  have hmul : ((outstanding + 1) * Int32.ofNat MAXOPBLOCKS).toInt = (outstanding.toInt + 1) * 10 := by
    rw [Int32.toInt_mul, hsucc]
    change ((outstanding.toInt + 1) * 10).bmod (2 ^ 32) = _
    apply Int.bmod_eq_of_le <;> omega
  have hadd : (n + (outstanding + 1) * Int32.ofNat MAXOPBLOCKS).toInt =
      n.toInt + (outstanding.toInt + 1) * 10 := by
    rw [Int32.toInt_add, hmul]
    apply Int.bmod_eq_of_le <;> omega
  have hmax : (Int32.ofNat LOGSIZE).toInt = 30 := by decide
  rw [gt_iff_lt, Int32.lt_iff_toInt_lt, hadd, hmax, Int.not_lt]

structure Entered (log : Log) (b : Blockno) (fresh : Bool) (log' : Log) : Prop where
  outstanding : log'.outstanding = log.outstanding
  size : log'.size = log.size
  inside : 1 ≤ log.outstanding.toInt
  room : log.lh.n.toInt < LOGSIZE
  listed : log'.lh.Listed b
  kept : ∀ c, log.lh.Listed c → log'.lh.Listed c
  added : fresh = true → ¬log.lh.Listed b ∧ log'.lh.n.toInt = log.lh.n.toInt + 1
  absorbed : fresh = false → log'.lh.n = log.lh.n

theorem Log.enter_ok {log log' : Log} {b : Blockno} {fresh : Bool} (hn : 0 ≤ log.lh.n.toInt)
    (h : log.enter b = .ok (some (fresh, log'))) : Entered log b fresh log' := by
  unfold Log.enter at h
  split at h
  · cases h
  rename_i hfull
  split at h
  · cases h
  rename_i hop
  have hop' : 1 ≤ log.outstanding.toInt := by
    have hle := Int32.le_iff_toInt_le.mp (Int32.not_lt.mp hop)
    exact hle
  have hroom : log.lh.n.toInt < LOGSIZE := by omega
  have hlogsize : LOGSIZE = 30 := rfl
  have hrounds : (log.lh.rounds : Int) = log.lh.n.toInt := by
    unfold Logheader.rounds
    omega
  have hsucc := toInt_add_one hn (by omega)
  rcases entryIndex_spec log.lh b log.lh.rounds 0 (by omega) with
    ⟨hindex, hnew⟩ | ⟨j, hj, hindex, hblock⟩
  · have hlast : log.lh.rounds < LOGSIZE := by omega
    simp only [hindex, Nat.zero_add, dif_pos hlast, if_true, Except.ok.injEq, Option.some.injEq,
      Prod.mk.injEq] at h
    obtain ⟨rfl, rfl⟩ := h
    have hother : ¬log.lh.Listed b := by
      rintro ⟨j, hj, heq⟩
      exact hnew j (by omega) (by omega) heq
    refine ⟨rfl, rfl, hop', hroom, ?_, ?_, fun _ => ⟨hother, hsucc⟩, fun h => by cases h⟩
    · exact ⟨⟨log.lh.rounds, hlast⟩, by simp only [hsucc]; omega, update_self ..⟩
    · rintro c ⟨j, hj, heq⟩
      have hne : j ≠ ⟨log.lh.rounds, hlast⟩ := by
        rintro rfl
        simp only at hj
        omega
      exact ⟨j, by simp only [hsucc]; omega, by simp only [update_of_ne hne, heq]⟩
  · have hjn : (j : Int) < log.lh.n.toInt := by omega
    have hsame : update log.lh.block j b = log.lh.block := by
      rw [← hblock, update_eq_self]
    simp only [hindex, dif_pos j.2, if_neg (show ¬(j : Nat) = log.lh.rounds by omega), hsame,
      Except.ok.injEq, Option.some.injEq, Prod.mk.injEq] at h
    obtain ⟨rfl, rfl⟩ := h
    exact ⟨rfl, rfl, hop', hroom, ⟨j, hjn, hblock⟩, fun _ h => h, fun h => (by cases h),
      fun _ => rfl⟩

theorem Log.enter_ne_committing (log : Log) (b : Blockno) : log.enter b ≠ .error .logCommitting := by
  unfold Log.enter
  split
  · simp
  · split
    · simp
    · dsimp only
      split
      · split <;> simp
      · simp

namespace Ops

variable {P : Type} [DecidableEq P]

inductive Stepped (s : Ops P) : Event P → Ops P → Prop where
  | slept {p} (hpc : s.pc p = .outside ∨ s.pc p = .woken) : Stepped s (.beginOp p) (s.set p .asleep)
  | began {p} (hpc : s.pc p = .outside ∨ s.pc p = .woken) (hidle : s.committing = false)
      (hroom : ¬(s.log.lh.n + (s.log.outstanding + 1) * Int32.ofNat MAXOPBLOCKS > Int32.ofNat LOGSIZE)) :
      Stepped s (.beginOp p)
        ({ s with log := { s.log with outstanding := s.log.outstanding + 1 } }.set p .inside)
  | refused {p b e} (hpc : s.pc p = .outside ∨ s.pc p = .inside) (henter : s.log.enter b = .error e) :
      Stepped s (.logWrite p b) { s with panic := some e }
  | logged {p b fresh log} (hpc : s.pc p = .outside ∨ s.pc p = .inside)
      (henter : s.log.enter b = .ok (some (fresh, log))) :
      Stepped s (.logWrite p b) { s with log := log }
  | torn {p} (hpc : s.pc p = .inside) (hcommit : s.committing = true) :
      Stepped s (.endOp p)
        { s with
          log := { s.log with outstanding := s.log.outstanding - 1 }
          panic := some .logCommitting }
  | last {p} (hpc : s.pc p = .inside) (hidle : s.committing = false)
      (hzero : s.log.outstanding - 1 = 0) :
      Stepped s (.endOp p)
        ({ s with
          log := { s.log with outstanding := s.log.outstanding - 1 }
          committing := true }.set p (.committing .begun))
  | ended {p} (hpc : s.pc p = .inside) (hidle : s.committing = false)
      (hmore : s.log.outstanding - 1 ≠ 0) :
      Stepped s (.endOp p)
        ({ s with log := { s.log with outstanding := s.log.outstanding - 1 } }.set p .outside).wakeup
  | committed {p stage s'} (hpc : s.pc p = .committing stage) (hcommit : s.commit p stage = some s') :
      Stepped s (.commit p) s'
  | finished {p} (hpc : s.pc p = .committing .returned) : Stepped s (.finish p) (s.finish p)

variable {s s' : Ops P} {p : P}

theorem stepped_of_step {e : Event P} (h : s.step e = some s') :
    s.panic = none ∧ Stepped s e s' := by
  unfold step at h
  split at h
  · cases h
  rename_i hpanic
  refine ⟨by simpa using hpanic, ?_⟩
  cases e with
  | beginOp p =>
    simp only [Option.ite_none_right_eq_some, Option.some.injEq] at h
    obtain ⟨hpc, rfl⟩ := h
    unfold beginOp
    split
    · exact .slept hpc
    · split
      · exact .slept hpc
      · rename_i hidle hroom
        exact .began hpc (by simpa using hidle) hroom
  | logWrite p b =>
    simp only [Option.ite_none_right_eq_some] at h
    obtain ⟨hpc, h⟩ := h
    unfold logWrite at h
    split at h
    · rename_i e henter
      rw [← Option.some.inj h]
      exact .refused hpc henter
    · cases h
    · rename_i fresh log henter
      rw [← Option.some.inj h]
      exact .logged hpc henter
  | endOp p =>
    simp only [Option.ite_none_right_eq_some, Option.some.injEq] at h
    obtain ⟨hpc, rfl⟩ := h
    unfold endOp
    dsimp only
    split
    · rename_i hcommit
      exact .torn hpc hcommit
    · rename_i hidle
      split
      · rename_i hzero
        exact .last hpc (by simpa using hidle) hzero
      · rename_i hmore
        exact .ended hpc (by simpa using hidle) hmore
  | commit p =>
    simp only at h
    split at h
    · rename_i stage hpc
      exact .committed hpc h
    · cases h
  | finish p =>
    simp only [Option.ite_none_right_eq_some, Option.some.injEq] at h
    obtain ⟨hpc, rfl⟩ := h
    exact .finished hpc

-- A step of `commit` changes nothing but the process's place in it, the disk
-- and, at one point, the count of the header.
structure Committed (s : Ops P) (p : P) (s' : Ops P) : Prop where
  pc : ∃ stage, s'.pc = update s.pc p (.committing stage)
  log : s'.log = s.log ∨ s'.log = s.log.clear
  committing : s'.committing = s.committing
  panic : s'.panic = s.panic

theorem forEntry_committed {w : Blockno → Write} {tail : Nat} {next after : Stage}
    (h : s.forEntry p w tail next after = some s') : Committed s p s' := by
  unfold forEntry at h
  split at h
  · split at h
    · rw [← Option.some.inj h]
      exact ⟨⟨next, rfl⟩, .inl rfl, rfl, rfl⟩
    · cases h
  · rw [← Option.some.inj h]
    exact ⟨⟨after, rfl⟩, .inl rfl, rfl, rfl⟩

theorem commit_committed {stage : Stage} (h : s.commit p stage = some s') :
    Committed s p s' := by
  cases stage with
  | begun =>
    rw [← Option.some.inj h]
    exact ⟨⟨_, rfl⟩, .inl rfl, rfl, rfl⟩
  | writeLog tail => exact forEntry_committed h
  | writeHead =>
    rw [← Option.some.inj h]
    exact ⟨⟨_, rfl⟩, .inl rfl, rfl, rfl⟩
  | installTrans tail => exact forEntry_committed h
  | clear =>
    rw [← Option.some.inj h]
    exact ⟨⟨_, rfl⟩, .inr rfl, rfl, rfl⟩
  | eraseHead =>
    rw [← Option.some.inj h]
    exact ⟨⟨_, rfl⟩, .inl rfl, rfl, rfl⟩
  | returned => cases h

end Ops

end Xv6Ringbuf.Fs
