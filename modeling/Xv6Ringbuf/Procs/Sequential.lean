import Xv6Ringbuf.Procs.Code
import Xv6Ringbuf.Protocol
import Xv6Ringbuf.Trace

namespace Xv6Ringbuf.Procs

open Interleave Protocol Function

-- The process table between system calls that run one after the other. A process
-- that has called `sched` goes on with its context. `answers` are what the rest
-- of the kernel is going to say to requests.
structure Seq where
  procs : Slot → Proc
  nextpid : Int32
  context : Slot → Option (Code Int32)
  answers : List Bool

def Seq.write (s : Seq) (p : Slot) (w : Store) : Seq :=
  { s with procs := update s.procs p (w.apply (s.procs p)) }

-- No lock is held between the calls, so that every lock is free.
def Seq.handle (s : Seq) : (a : Act) → Option (a.Answer × Seq)
  | .acquire _ => some ((), s)
  | .release _ => some ((), s)
  | .load p => some (s.procs p, s)
  | .store p w => some ((), s.write p w)
  | .nextpid => some (s.nextpid, s)
  | .setNextpid pid => some ((), { s with nextpid := pid })
  | .forkret p => some ((), { s with context := update s.context p none })
  | .sched => some ((), s)
  | .ask _ => some (s.answers.headD false, { s with answers := s.answers.tail })
  | .note _ => some ((), s)
  | .panic => none

inductive Outcome (α : Type) where
  | returned (result : α) (s : Seq)
  | blocked (code : Code α) (s : Seq)
  | stopped

def Seq.exec {α : Type} : Code α → Seq → Outcome α
  | .ret result, s => .returned result s
  | .halt, _ => .stopped
  | .act .sched next, s => .blocked (next ()) s
  | .act a next, s =>
    match s.handle a with
    | none => .stopped
    | some (answer, s') => exec (next answer) s'

def Seq.settle (p : Slot) : Outcome Int32 → Option Seq
  | .returned _ s => some s
  | .blocked code s => some { s with context := update s.context p (some code) }
  | .stopped => none

inductive Step where
  | trap (p : Slot) (trap : Trap) (answers : List Bool)
  | dispatch (p : Slot) (answers : List Bool)

def Seq.resume (s : Seq) (p : Slot) (answers : List Bool) : Seq :=
  { s with
    procs := update s.procs p { s.procs p with state := .RUNNING }
    context := update s.context p none
    answers := answers }

def Seq.step (s : Seq) : Step → Option Seq
  | .trap p trap answers =>
    if (s.procs p).state = .RUNNING ∧ (s.context p).isNone then
      Seq.settle p (Seq.exec (usertrap p trap) { s with answers := answers })
    else none
  | .dispatch p answers =>
    if (s.procs p).state = .RUNNABLE then
      match s.context p with
      | none => some (s.resume p answers)
      | some code => Seq.settle p (Seq.exec code (s.resume p answers))
    else none

-- The table after `userinit`: the entries are zero but for the first process.
def Seq.boot : Seq where
  procs p := if p = initproc then ⟨.RUNNABLE, none, false, 0, 1, none⟩
    else ⟨.UNUSED, none, false, 0, 0, none⟩
  nextpid := 2
  context _ := none
  answers := []

theorem Seq.exec_act {α : Type} {a : Act} (next : a.Answer → Code α) (s : Seq) (h : a ≠ .sched) :
    Seq.exec (.act a next) s =
      match s.handle a with
      | none => .stopped
      | some (answer, s') => Seq.exec (next answer) s' := by
  cases a with
  | sched => exact absurd rfl h
  | _ => rfl

theorem Seq.exec_bind {α β : Type} (code : Code α) (f : α → Code β) (s : Seq) :
    Seq.exec (code >>= f) s =
      match Seq.exec code s with
      | .returned value s' => Seq.exec (f value) s'
      | .blocked rest s' => .blocked (rest >>= f) s'
      | .stopped => .stopped := by
  induction code generalizing s with
  | ret value => rfl
  | halt => rfl
  | act a next ih =>
    by_cases h : a = .sched
    · subst h
      rfl
    · change Seq.exec (.act a fun answer => next answer >>= f) s = _
      rw [exec_act _ s h, exec_act _ s h]
      cases s.handle a with
      | none => rfl
      | some result => exact ih result.1 result.2

def quiet : Rules Act Act.Answer Unit := ⟨fun _ a => ∀ p, a ≠ .store p .killed, fun _ _ _ => ()⟩

abbrev Quiet {α : Type} (code : Code α) : Prop := Obeys quiet (fun _ _ => True) code ()

section Quiet

variable {α β : Type}

theorem quiet_bind {code : Code α} {next : α → Code β} (h : Quiet code) (hnext : ∀ x, Quiet (next x)) :
    Quiet (code >>= next) :=
  Obeys.bind h fun x _ _ => hnext x

theorem quiet_pure (x : α) : Quiet (pure x : Code α) := trivial

theorem quiet_ite {c : Prop} [Decidable c] {x y : Code α} (hx : Quiet x) (hy : Quiet y) :
    Quiet (if c then x else y) :=
  obeys_ite (fun _ => hx) fun _ => hy

theorem quiet_act {a : Act} {next : a.Answer → Code α} (h : ∀ p, a ≠ .store p .killed)
    (hnext : ∀ x, Quiet (next x)) : Quiet (.act a next) :=
  obeys_act h hnext

theorem acquire_quiet (l : Lock) : Quiet (acquire l) := quiet_act (by simp) fun _ => trivial

theorem release_quiet (l : Lock) : Quiet (release l) := quiet_act (by simp) fun _ => trivial

theorem load_quiet (p : Slot) : Quiet (load p) := quiet_act (by simp) fun _ => trivial

theorem store_quiet (p : Slot) {w : Store} (h : w ≠ .killed) : Quiet (store p w) :=
  quiet_act (by simp [h]) fun _ => trivial

theorem ask_quiet (request : Request) : Quiet (ask request) := quiet_act (by simp) fun _ => trivial

theorem note_quiet (event : Note) : Quiet (note event) := quiet_act (by simp) fun _ => trivial

theorem sched_quiet : Quiet sched := quiet_act (by simp) fun _ => trivial

theorem panic_quiet : Quiet (panic : Code α) := quiet_act (by simp) fun x => x.elim

end Quiet

theorem refuse_quiet (p : Slot) : Quiet (refuse p) :=
  quiet_bind (store_quiet p (by simp)) fun _ => quiet_bind (release_quiet _) fun _ => quiet_pure _

theorem allocpid_quiet : Quiet allocpid := by
  have hnextpid : Quiet nextpid := quiet_act (by simp) fun _ => trivial
  have hset : ∀ pid, Quiet (setNextpid pid) := fun _ => quiet_act (by simp) fun _ => trivial
  refine quiet_bind (acquire_quiet _) fun _ => quiet_bind hnextpid fun pid => ?_
  exact quiet_bind (hset _) fun _ => quiet_bind (release_quiet _) fun _ => quiet_pure _

theorem allocprocFound_quiet (p : Slot) : Quiet (allocprocFound p) := by
  refine quiet_bind allocpid_quiet fun pid => quiet_bind (store_quiet p (by simp)) fun _ => ?_
  refine quiet_bind (ask_quiet _) fun _ => quiet_ite ?_ (refuse_quiet p)
  refine quiet_bind (ask_quiet _) fun _ => quiet_ite ?_ (refuse_quiet p)
  exact quiet_act (by simp) fun _ => quiet_pure _

theorem allocprocFrom_quiet (ps : List Slot) : Quiet (allocprocFrom ps) := by
  induction ps with
  | nil => exact quiet_pure _
  | cons p ps ih =>
    refine quiet_bind (acquire_quiet _) fun _ => quiet_bind (load_quiet p) fun _ => ?_
    refine quiet_ite (allocprocFound_quiet p) ?_
    exact quiet_bind (release_quiet _) fun _ => ih

theorem fork_quiet (me : Slot) : Quiet (fork me) := by
  refine quiet_bind (allocprocFrom_quiet _) ?_
  intro np
  cases np with
  | none => exact quiet_pure _
  | some np =>
    refine quiet_bind (ask_quiet _) fun _ => quiet_ite ?_ ?_
    · refine quiet_bind (load_quiet np) fun child => quiet_bind (release_quiet _) fun _ => ?_
      refine quiet_bind (acquire_quiet _) fun _ => quiet_bind (store_quiet np (by simp)) fun _ => ?_
      refine quiet_bind (release_quiet _) fun _ => quiet_bind (acquire_quiet _) fun _ => ?_
      refine quiet_bind (store_quiet np (by simp)) fun _ => quiet_bind (release_quiet _) fun _ => ?_
      exact quiet_pure _
    · refine quiet_bind (store_quiet np (by simp)) fun _ => quiet_bind (release_quiet _) fun _ => ?_
      exact quiet_pure _

theorem wakeIf_quiet (p : Slot) (sleeping : Bool) : Quiet (wakeIf p sleeping) :=
  quiet_ite (store_quiet p (by simp)) (quiet_pure _)

theorem wakeupFrom_quiet (me : Slot) (chan : Option Chan) (ps : List Slot) :
    Quiet (wakeupFrom me chan ps) := by
  induction ps with
  | nil => exact quiet_pure _
  | cons p ps ih =>
    refine quiet_ite ?_ ih
    refine quiet_bind (acquire_quiet _) fun _ => quiet_bind (load_quiet p) fun _ => ?_
    exact quiet_bind (wakeIf_quiet p _) fun _ => quiet_bind (release_quiet _) fun _ => ih

theorem wakeup_quiet (me : Slot) (chan : Option Chan) : Quiet (wakeup me chan) :=
  quiet_bind (note_quiet _) fun _ => quiet_bind (wakeupFrom_quiet me chan _) fun _ => note_quiet _

theorem sleep_quiet (me : Slot) (chan : Chan) (lk : Lock) : Quiet (sleep me chan lk) := by
  refine quiet_bind (note_quiet _) fun _ => quiet_bind (acquire_quiet _) fun _ => ?_
  refine quiet_bind (release_quiet _) fun _ => quiet_bind (store_quiet me (by simp)) fun _ => ?_
  refine quiet_bind sched_quiet fun _ => quiet_bind (store_quiet me (by simp)) fun _ => ?_
  exact quiet_bind (release_quiet _) fun _ => acquire_quiet _

theorem reparentFrom_quiet (me : Slot) (ps : List Slot) : Quiet (reparentFrom me ps) := by
  induction ps with
  | nil => exact quiet_pure _
  | cons p ps ih =>
    refine quiet_bind (load_quiet p) fun _ => quiet_ite ?_ ih
    refine quiet_bind (store_quiet p (by simp)) fun _ => ?_
    exact quiet_bind (wakeup_quiet me _) fun _ => ih

theorem exit_quiet {α : Type} (me : Slot) (status : Int32) : Quiet (exit me status : Code α) := by
  refine quiet_ite panic_quiet ?_
  refine quiet_bind (note_quiet _) fun _ => quiet_bind (acquire_quiet _) fun _ => ?_
  refine quiet_bind (reparentFrom_quiet me _) fun _ => quiet_bind (load_quiet me) fun _ => ?_
  refine quiet_bind (wakeup_quiet me _) fun _ => quiet_bind (acquire_quiet _) fun _ => ?_
  refine quiet_bind (store_quiet me (by simp)) fun _ => quiet_bind (release_quiet _) fun _ => ?_
  exact quiet_bind sched_quiet fun _ => panic_quiet

theorem killed_quiet (p : Slot) : Quiet (killed p) := by
  refine quiet_bind (acquire_quiet _) fun _ => quiet_bind (load_quiet p) fun _ => ?_
  exact quiet_bind (release_quiet _) fun _ => quiet_pure _

theorem waitScan_quiet (me : Slot) (addr : UInt64) (ps : List Slot) (havekids : Bool) :
    Quiet (waitScan me addr ps havekids) := by
  induction ps generalizing havekids with
  | nil => exact quiet_pure _
  | cons p ps ih =>
    refine quiet_bind (load_quiet p) fun _ => quiet_ite ?_ (ih _)
    refine quiet_bind (acquire_quiet _) fun _ => quiet_bind (load_quiet p) fun _ => quiet_ite ?_ ?_
    · refine quiet_bind (quiet_ite (ask_quiet _) (quiet_pure _)) fun _ => quiet_ite ?_ ?_
      · refine quiet_bind (note_quiet _) fun _ => quiet_bind (store_quiet p (by simp)) fun _ => ?_
        refine quiet_bind (release_quiet _) fun _ => quiet_bind (release_quiet _) fun _ => ?_
        exact quiet_pure _
      · refine quiet_bind (release_quiet _) fun _ => quiet_bind (release_quiet _) fun _ => ?_
        exact quiet_pure _
    · exact quiet_bind (release_quiet _) fun _ => ih _

theorem waitFrom_quiet (me : Slot) (addr : UInt64) (rounds : Nat) : Quiet (waitFrom me addr rounds) := by
  induction rounds with
  | zero => trivial
  | succ rounds ih =>
    refine quiet_bind (waitScan_quiet me addr _ _) ?_
    intro r
    match r with
    | .inl result => exact quiet_pure _
    | .inr false =>
      refine quiet_bind (note_quiet _) fun _ => quiet_bind (release_quiet _) fun _ => ?_
      exact quiet_pure _
    | .inr true =>
      refine quiet_bind (killed_quiet me) fun _ => quiet_ite ?_ ?_
      · exact quiet_bind (release_quiet _) fun _ => quiet_pure _
      · exact quiet_bind (sleep_quiet me _ _) fun _ => ih

theorem exitIfKilled_quiet (me : Slot) (result : Int32) : Quiet (exitIfKilled me result) :=
  quiet_bind (killed_quiet me) fun _ => quiet_ite (exit_quiet me _) (quiet_pure _)

theorem yield_quiet (me : Slot) : Quiet (yield me) := by
  refine quiet_bind (acquire_quiet _) fun _ => quiet_bind (store_quiet me (by simp)) fun _ => ?_
  exact quiet_bind sched_quiet fun _ => release_quiet _

theorem usertrap_quiet (me : Slot) {trap : Trap} (hkill : ∀ pid, trap ≠ .syscall (.kill pid))
    (hfault : trap ≠ .fault) : Quiet (usertrap me trap) := by
  cases trap with
  | fault => exact absurd rfl hfault
  | timer =>
    refine quiet_bind (exitIfKilled_quiet me _) fun _ => quiet_bind (yield_quiet me) fun _ => ?_
    exact quiet_pure _
  | syscall call =>
    have hcall : Quiet (call.code me) := by
      cases call with
      | fork => exact fork_quiet me
      | exit status => exact exit_quiet me status
      | wait addr rounds => exact quiet_bind (acquire_quiet _) fun _ => waitFrom_quiet me addr rounds
      | kill pid => exact absurd rfl (hkill pid)
    refine quiet_bind (killed_quiet me) fun _ => quiet_ite (exit_quiet me _) ?_
    exact quiet_bind hcall fun result => exitIfKilled_quiet me result

end Xv6Ringbuf.Procs
