import Xv6Ringbuf.Interleave

namespace Xv6Ringbuf.Procs

open Interleave

abbrev NPROC : Nat := 64

abbrev Slot := Fin NPROC

inductive Procstate where
  | UNUSED
  | USED
  | SLEEPING
  | RUNNABLE
  | RUNNING
  | ZOMBIE
deriving DecidableEq

-- What a process sleeps on: a process, or anything else that has an address.
inductive Chan where
  | proc (p : Slot)
  | addr (a : UInt64)
deriving DecidableEq

inductive Lock where
  | pid_lock
  | wait_lock
  | proc (p : Slot)
  | spin (a : UInt64)
deriving DecidableEq

structure Proc where
  state : Procstate
  chan : Option Chan
  killed : Bool
  xstate : Int32
  pid : Int32
  parent : Option Slot
deriving DecidableEq

-- What the code writes to an entry of the table while it holds a lock.
inductive Store where
  | embryo (pid : Int32)
  | free
  | parent (p : Slot)
  | runnable
  | sleep (chan : Chan)
  | awake
  | zombie (status : Int32)
  | killed
deriving DecidableEq

def Store.apply (proc : Proc) : Store → Proc
  | .embryo pid => { proc with pid := pid, state := .USED }
  | .free => ⟨.UNUSED, none, false, 0, 0, none⟩
  | .parent p => { proc with parent := some p }
  | .runnable => { proc with state := .RUNNABLE }
  | .sleep chan => { proc with chan := some chan, state := .SLEEPING }
  | .awake => { proc with chan := none }
  | .zombie status => { proc with xstate := status, state := .ZOMBIE }
  | .killed => { proc with killed := true }

-- What the code asks of the rest of the kernel and may be refused.
inductive Request where
  | trapframe
  | proc_pagetable
  | uvmcopy
  | copyout (addr : UInt64) (xstate : Int32)
deriving DecidableEq

-- The moments in the code that the histories of runs speak about.
inductive Note where
  | sleep (chan : Chan) (lk : Lock)
  | wakeup (chan : Option Chan)
  | woken (chan : Option Chan)
  | exit (status : Int32)
  | reaped (p : Slot) (pid xstate : Int32)
  | childless
deriving DecidableEq

inductive Act where
  | acquire (l : Lock)
  | release (l : Lock)
  | load (p : Slot)
  | store (p : Slot) (w : Store)
  | nextpid
  | setNextpid (pid : Int32)
  | forkret (p : Slot)
  | sched
  | ask (request : Request)
  | note (event : Note)
  | panic
deriving DecidableEq

def Act.Answer : Act → Type
  | .load _ => Proc
  | .nextpid => Int32
  | .ask _ => Bool
  | .panic => Empty
  | _ => Unit

abbrev Code := Prog Act Act.Answer

variable {α : Type}

def acquire (l : Lock) : Code Unit := Prog.perform (R := Act.Answer) (.acquire l)

def release (l : Lock) : Code Unit := Prog.perform (R := Act.Answer) (.release l)

def load (p : Slot) : Code Proc := Prog.perform (R := Act.Answer) (.load p)

def store (p : Slot) (w : Store) : Code Unit := Prog.perform (R := Act.Answer) (.store p w)

def ask (request : Request) : Code Bool := Prog.perform (R := Act.Answer) (.ask request)

def note (event : Note) : Code Unit := Prog.perform (R := Act.Answer) (.note event)

def nextpid : Code Int32 := Prog.perform (R := Act.Answer) .nextpid

def setNextpid (pid : Int32) : Code Unit := Prog.perform (R := Act.Answer) (.setNextpid pid)

-- `allocproc` makes a process that has not run yet start with `forkret`.
def setContext (p : Slot) : Code Unit := Prog.perform (R := Act.Answer) (.forkret p)

def sched : Code Unit := Prog.perform (R := Act.Answer) .sched

def panic : Code α := .act .panic Empty.elim

-- The process that `userinit` makes. It gets the first place in the table.
def initproc : Slot := 0

def allocpid : Code Int32 := do
  acquire .pid_lock
  let pid ← nextpid
  setNextpid (pid + 1)
  release .pid_lock
  return pid

def freeproc (p : Slot) : Code Unit := store p .free

-- An entry whose fields do not all come together is given back.
def refuse (p : Slot) : Code (Option Slot) := do
  freeproc p
  release (.proc p)
  return none

def allocprocFound (p : Slot) : Code (Option Slot) := do
  let pid ← allocpid
  store p (.embryo pid)
  if ← ask .trapframe then
    if ← ask .proc_pagetable then
      setContext p
      return some p
    else refuse p
  else refuse p

def allocprocFrom : List Slot → Code (Option Slot)
  | [] => return none
  | p :: ps => do
      acquire (.proc p)
      let proc ← load p
      if proc.state = .UNUSED then allocprocFound p
      else
        release (.proc p)
        allocprocFrom ps

def allocproc : Code (Option Slot) := allocprocFrom (List.finRange NPROC)

-- What `fork` does to the process table. The memory, the registers and the open
-- files of the child are not in it.
def fork (me : Slot) : Code Int32 := do
  match ← allocproc with
  | none => return -1
  | some np =>
    if ← ask .uvmcopy then
      let child ← load np
      release (.proc np)
      acquire .wait_lock
      store np (.parent me)
      release .wait_lock
      acquire (.proc np)
      store np .runnable
      release (.proc np)
      return child.pid
    else
      freeproc np
      release (.proc np)
      return -1

def wakeIf (p : Slot) (sleeping : Bool) : Code Unit :=
  if sleeping then store p .runnable else return ()

def wakeupFrom (me : Slot) (chan : Option Chan) : List Slot → Code Unit
  | [] => return ()
  | p :: ps =>
    if p ≠ me then do
      acquire (.proc p)
      let proc ← load p
      wakeIf p (proc.state = .SLEEPING ∧ proc.chan = chan)
      release (.proc p)
      wakeupFrom me chan ps
    else wakeupFrom me chan ps

def wakeup (me : Slot) (chan : Option Chan) : Code Unit := do
  note (.wakeup chan)
  wakeupFrom me chan (List.finRange NPROC)
  note (.woken chan)

def sleep (me : Slot) (chan : Chan) (lk : Lock) : Code Unit := do
  note (.sleep chan lk)
  acquire (.proc me)
  release lk
  store me (.sleep chan)
  sched
  store me .awake
  release (.proc me)
  acquire lk

def reparentFrom (me : Slot) : List Slot → Code Unit
  | [] => return ()
  | pp :: ps => do
      let proc ← load pp
      if proc.parent = some me then
        store pp (.parent initproc)
        wakeup me (some (.proc initproc))
        reparentFrom me ps
      else reparentFrom me ps

def reparent (me : Slot) : Code Unit := reparentFrom me (List.finRange NPROC)

-- `exit` from where the files have been closed.
def exit (me : Slot) (status : Int32) : Code α :=
  if me = initproc then panic
  else do
    note (.exit status)
    acquire .wait_lock
    reparent me
    let proc ← load me
    wakeup me (proc.parent.map .proc)
    acquire (.proc me)
    store me (.zombie status)
    release .wait_lock
    sched
    panic

def killed (p : Slot) : Code Bool := do
  acquire (.proc p)
  let proc ← load p
  release (.proc p)
  return proc.killed

def setkilled (p : Slot) : Code Unit := do
  acquire (.proc p)
  store p .killed
  release (.proc p)

-- The exit status goes to the caller, if it wants it.
def copyStatus (addr : UInt64) (xstate : Int32) : Code Bool :=
  if addr ≠ 0 then ask (.copyout addr xstate) else return true

-- The result of a scan is the result of `wait`, or whether there are children.
def waitScan (me : Slot) (addr : UInt64) : List Slot → Bool → Code (Int32 ⊕ Bool)
  | [], havekids => return .inr havekids
  | pp :: ps, havekids => do
      let proc ← load pp
      if proc.parent = some me then
        acquire (.proc pp)
        let proc ← load pp
        if proc.state = .ZOMBIE then
          if ← copyStatus addr proc.xstate then
            note (.reaped pp proc.pid proc.xstate)
            freeproc pp
            release (.proc pp)
            release .wait_lock
            return .inl proc.pid
          else
            release (.proc pp)
            release .wait_lock
            return .inl (-1)
        else
          release (.proc pp)
          waitScan me addr ps true
      else waitScan me addr ps havekids

-- The loop of `wait` for as many rounds as one likes.
def waitFrom (me : Slot) (addr : UInt64) : Nat → Code Int32
  | 0 => .halt
  | rounds + 1 => do
      match ← waitScan me addr (List.finRange NPROC) false with
      | .inl result => return result
      | .inr false =>
        note .childless
        release .wait_lock
        return -1
      | .inr true =>
        if ← killed me then
          release .wait_lock
          return -1
        else
          sleep me (.proc me) .wait_lock
          waitFrom me addr rounds

def wait (me : Slot) (addr : UInt64) (rounds : Nat) : Code Int32 := do
  acquire .wait_lock
  waitFrom me addr rounds

def killFrom (pid : Int32) : List Slot → Code Int32
  | [] => return -1
  | p :: ps => do
      acquire (.proc p)
      let proc ← load p
      if proc.pid = pid then
        store p .killed
        wakeIf p (proc.state = .SLEEPING)
        release (.proc p)
        return 0
      else
        release (.proc p)
        killFrom pid ps

def kill (pid : Int32) : Code Int32 := killFrom pid (List.finRange NPROC)

def yield (me : Slot) : Code Unit := do
  acquire (.proc me)
  store me .runnable
  sched
  release (.proc me)

inductive Syscall where
  | fork
  | exit (status : Int32)
  | wait (addr : UInt64) (rounds : Nat)
  | kill (pid : Int32)

def Syscall.code (me : Slot) : Syscall → Code Int32
  | .fork => Procs.fork me
  | .exit status => Procs.exit me status
  | .wait addr rounds => Procs.wait me addr rounds
  | .kill pid => Procs.kill pid

inductive Trap where
  | syscall (call : Syscall)
  | fault
  | timer

def exitIfKilled (me : Slot) (result : Int32) : Code Int32 := do
  if ← killed me then exit me (-1)
  else return result

def usertrap (me : Slot) : Trap → Code Int32
  | .syscall call => do
      if ← killed me then exit me (-1)
      else
        let result ← call.code me
        exitIfKilled me result
  | .fault => do
      setkilled me
      exitIfKilled me 0
  | .timer => do
      let result ← exitIfKilled me 0
      yield me
      return result

end Xv6Ringbuf.Procs
