import Xv6Ringbuf.Fs.File
import Xv6Ringbuf.Handler

namespace Xv6Ringbuf.Fs

open Interleave Machine Handler Function

-- Why a process does not take its next step: a panic, or a wait for a lock or a
-- buffer. A process that waits for what it holds itself waits forever.
inductive Stop where
  | panic (p : FsPanic)
  | hang
  deriving DecidableEq

-- What the kernel keeps in memory besides the buffers and the log. A process that
-- does not exist has no entry in `procs`.
structure Mem (P : Type) where
  table : Table
  locked : Ip → Bool
  ftable : Fp → File
  procs : P → Option Proc

-- The kernel as the processes share it. `disk` is the logical disk behind the
-- cache and the log: what was last logged for a block.
-- `unlogged` are blocks that were changed in the cache and released without
-- `log_write`. A held buffer is marked when it was changed since it was logged.
structure Kern (P : Type) extends Mem P where
  disk : Blockno → Block
  unlogged : Blockno → Option Block
  held : Blockno → Option (Block × Bool)

namespace Mem

variable {P : Type} [DecidableEq P]

def setEntry (m : Mem P) (i : Ip) (entry : Inode) : Mem P :=
  { m with table := update m.table i entry }

def setDin (m : Mem P) (i : Ip) (din : Dinode) : Mem P :=
  m.setEntry i { m.table i with din := din }

def setValid (m : Mem P) (i : Ip) (valid : Bool) : Mem P :=
  m.setEntry i { m.table i with valid := valid }

def setLock (m : Mem P) (i : Ip) (locked : Bool) : Mem P :=
  { m with locked := update m.locked i locked }

def setFile (m : Mem P) (f : Fp) (file : File) : Mem P :=
  { m with ftable := update m.ftable f file }

def setProc (m : Mem P) (p : P) (proc : Option Proc) : Mem P :=
  { m with procs := update m.procs p proc }

def iget (m : Mem P) (dev inum : UInt32) : Except Stop (Ip × Mem P) :=
  match m.table.iget dev inum with
  | some (i, table) => .ok (i, { m with table := table })
  | none => .error (.panic .igetNoInodes)

def acquiresleep (m : Mem P) (i : Ip) : Except Stop (Unit × Mem P) :=
  if m.locked i then .error .hang else .ok ((), m.setLock i true)

def releasesleep (m : Mem P) (i : Ip) : Except Stop (Unit × Mem P) :=
  if m.locked i then .ok ((), m.setLock i false) else .error (.panic .iunlock)

-- The start of `iput`. For an inode to be freed it also takes the lock.
def lastRef (m : Mem P) (i : Ip) : Except Stop (Bool × Mem P) :=
  if (m.table i).Unlinked then
    if m.locked i then .error .hang else .ok (true, m.setLock i true)
  else .ok (false, m)

def proc (m : Mem P) (p : P) : Except Stop (Proc × Mem P) :=
  match m.procs p with
  | some proc => .ok (proc, m)
  | none => .error .hang

def filealloc (m : Mem P) : Option Fp × Mem P :=
  match (List.finRange NFILE).find? fun f => (m.ftable f).ref = 0 with
  | some f => (some f, m.setFile f { m.ftable f with ref := 1 })
  | none => (none, m)

def filedup (m : Mem P) (f : Fp) : Except Stop (Unit × Mem P) :=
  if (m.ftable f).ref < 1 then .error (.panic .filedup)
  else .ok ((), m.setFile f { m.ftable f with ref := (m.ftable f).ref + 1 })

def fileclose (m : Mem P) (f : Fp) : Except Stop (Option File × Mem P) :=
  if (m.ftable f).ref < 1 then .error (.panic .fileclose)
  else if 1 < (m.ftable f).ref then
    .ok (none, m.setFile f { m.ftable f with ref := (m.ftable f).ref - 1 })
  else .ok (some (m.ftable f), m.setFile f { m.ftable f with ref := 0, type := .FD_NONE })

-- A step of process `p` that is not one of the buffers or the log.
def handle (p : P) (m : Mem P) : (a : Sys) → Except Stop (a.Answer × Mem P)
  | .bio _ => .error .hang
  | .logWrite _ => .error .hang
  | .beginOp => .error .hang
  | .endOp => .error .hang
  | .committed _ => .error .hang
  | .iget dev inum => m.iget dev inum
  | .idup i => .ok ((), { m with table := m.table.idup i })
  | .inode i => .ok (m.table i, m)
  | .setDin i din => .ok ((), m.setDin i din)
  | .setValid i valid => .ok ((), m.setValid i valid)
  | .acquiresleep i => m.acquiresleep i
  | .releasesleep i => m.releasesleep i
  | .lastRef i => m.lastRef i
  | .drop i => .ok ((), { m with table := m.table.drop i })
  | .proc => m.proc p
  | .setCwd i => .ok ((), m.setProc p ((m.procs p).map fun proc => { proc with cwd := i }))
  | .setOfile fd f => .ok ((), m.setProc p ((m.procs p).map fun proc =>
    { proc with ofile := update proc.ofile fd f }))
  | .filealloc => .ok m.filealloc
  | .file f => .ok (m.ftable f, m)
  | .setFile f file => .ok ((), m.setFile f file)
  | .filedup f => m.filedup f
  | .fileclose f => m.fileclose f
  | .panic q => .error (.panic q)

-- The memory after `userinit`: the process `init` runs in the root directory.
def boot (init : P) : Mem P where
  table := update Table.empty 0 ⟨ROOTDEV, ROOTINO, 1, false, .zero⟩
  locked _ := false
  ftable _ := ⟨.FD_NONE, 0, false, false, 0, 0, 0⟩
  procs := update (fun _ => none) init (some ⟨0, fun _ => none⟩)

end Mem

namespace Kern

variable {P : Type} [DecidableEq P]

def visible (s : Kern P) (b : Blockno) : Block := (s.unlogged b).getD (s.disk b)

def hold (s : Kern P) (b : Blockno) (buf : Option (Block × Bool)) : Kern P :=
  { s with held := update s.held b buf }

def put (s : Kern P) (b : Blockno) (data : Block) : Kern P :=
  { s with
    disk := update s.disk b data
    unlogged := update s.unlogged b none }

-- The calls of bio.c. A commit is not visible on the logical disk, so its calls
-- do not occur.
def bio (s : Kern P) : (a : Act) → Except Stop (Answer a × Kern P)
  | .bread b =>
    match s.held b with
    | some _ => .error .hang
    | none => .ok (s.visible b, s.hold b (some (s.visible b, false)))
  | .memmove b data =>
    match s.held b with
    | some _ => .ok ((), s.hold b (some (data, true)))
    | none => .error .hang
  | .brelse b =>
    match s.held b with
    | some (data, changed) =>
      .ok ((), if changed then
        { s.hold b none with unlogged := update s.unlogged b (some data) }
      else s.hold b none)
    | none => .error .hang
  | .bwrite _ => .error .hang
  | .bpin _ => .error .hang
  | .bunpin _ => .error .hang

def logWrite (s : Kern P) (b : Blockno) : Except Stop (Unit × Kern P) :=
  match s.held b with
  | some (data, _) => .ok ((), (s.put b data).hold b (some (data, false)))
  | none => .error .hang

def setMem (s : Kern P) (m : Mem P) : Kern P := { s with toMem := m }

def memory (s : Kern P) {α : Type} (result : Except Stop (α × Mem P)) : Except Stop (α × Kern P) :=
  match result with
  | .ok (answer, m) => .ok (answer, s.setMem m)
  | .error stop => .error stop

-- A step of process `p`.
def handle (p : P) (s : Kern P) : (a : Sys) → Except Stop (a.Answer × Kern P)
  | .bio a => s.bio a
  | .logWrite b => s.logWrite b
  | .beginOp => .ok ((), s)
  | .endOp => .ok (none, s)
  | .committed _ => .ok ((), s)
  | a => s.memory (s.toMem.handle p a)

def run {α : Type} (p : P) (call : Fsys α) : M Stop (Kern P) α :=
  interp (fun a s => s.handle p a) .hang call

def boot (init : P) (disk : Blockno → Block) : Kern P where
  toMem := .boot init
  disk := disk
  unlogged _ := none
  held _ := none

end Kern

-- A system call of a process.
inductive Step (P : Type) where
  | call (p : P) (call : Syscall)
  | fork (p child : P)
  | exit (p : P)

-- What becomes of the processes when a system call returns.
inductive Outcome (P : Type) where
  | returned
  | forked (child : P) (proc : Proc)
  | exited

-- A process is outside of the kernel, is being made by `fork`, or has still to
-- run the rest of a system call.
inductive Task (P : Type) where
  | idle
  | embryo
  | running (rest : Fsys (Outcome P))

-- A process enters the kernel, takes its next step there, or a buffer whose
-- change was not logged is recycled.
inductive Sched.Event (P : Type) where
  | start (e : Step P)
  | act (p : P)
  | evict (b : Blockno)

-- The kernel with every process where it is in its system call.
structure Sched (P : Type) extends Kern P where
  task : P → Task P

def Task.isIdle {P : Type} : Task P → Bool
  | .idle => true
  | _ => false

def Task.isRunning {P : Type} : Task P → Bool
  | .running _ => true
  | _ => false

-- The child of `fork` starts with the files and the directory of its parent.
def Step.code {P : Type} (sb : Superblock) : Step P → Fsys (Outcome P)
  | .call _ syscall => do
      let _ ← syscall.code sb
      return .returned
  | .fork _ child => do
      let parent ← Fsys.fork
      return .forked child parent
  | .exit _ => do
      Fsys.exit sb
      return .exited

def Step.pid {P : Type} : Step P → P
  | .call p _ => p
  | .fork p _ => p
  | .exit p => p

namespace Sched

variable {P : Type} [DecidableEq P]

def setTask (s : Sched P) (p : P) (task : Task P) : Sched P :=
  { s with task := update s.task p task }

def setProc (s : Sched P) (p : P) (proc : Option Proc) : Sched P :=
  { s with toMem := s.toMem.setProc p proc }

def idle (s : Sched P) (p : P) : Bool := (s.procs p).isSome && (s.task p).isIdle

-- A process that is not there or is in a call already enters none. Without room
-- for a child `fork` changes nothing.
def start (sb : Superblock) (s : Sched P) : Step P → Sched P
  | .fork p child =>
    if s.idle p ∧ (s.procs child).isNone ∧ (s.task child).isIdle then
      (s.setTask child .embryo).setTask p (.running ((Step.fork p child).code sb))
    else s
  | e => if s.idle e.pid then s.setTask e.pid (.running (e.code sb)) else s

def finish (s : Sched P) (p : P) : Outcome P → Sched P
  | .returned => s.setTask p .idle
  | .forked child proc => ((s.setProc child (some proc)).setTask child .idle).setTask p .idle
  | .exited => (s.setProc p none).setTask p .idle

-- The next step of a process in a system call, up to its next access to shared
-- state. A process that has to wait tries again.
def act (s : Sched P) (p : P) : Except FsPanic (Sched P) :=
  match s.task p with
  | .running (.act a next) =>
    match s.toKern.handle p a with
    | .ok (answer, k) => .ok { toKern := k, task := update s.task p (.running (next answer)) }
    | .error .hang => .ok s
    | .error (.panic q) => .error q
  | .running (.ret outcome) => .ok (s.finish p outcome)
  | _ => .ok s

def evict (s : Sched P) (b : Blockno) : Sched P :=
  if (s.held b).isNone then { s with unlogged := update s.unlogged b none } else s

def step (sb : Superblock) (s : Sched P) : Event P → Except FsPanic (Sched P)
  | .start e => .ok (s.start sb e)
  | .act p => s.act p
  | .evict b => .ok (s.evict b)

def boot (init : P) (disk : Blockno → Block) : Sched P where
  toKern := .boot init disk
  task _ := .idle

end Sched

end Xv6Ringbuf.Fs
