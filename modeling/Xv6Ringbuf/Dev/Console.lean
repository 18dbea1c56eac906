import Xv6Ringbuf.Circular
import Xv6Ringbuf.Trace

namespace Xv6Ringbuf.Dev

open Circular Function

abbrev Pid := Nat

abbrev INPUT_BUF_SIZE : Nat := 128

instance : NeZero INPUT_BUF_SIZE := ⟨by decide⟩

def BACKSPACE : Nat := 0x100

def NEWLINE : UInt8 := 10

def RETURN : UInt8 := 13

def DELETE : UInt8 := 0x7f

-- Control-x
def C (x : Char) : UInt8 := UInt8.ofNat (x.toNat - 0x40)

-- `uart` is what has been sent to the screen.
structure Cons where
  buf : Fin INPUT_BUF_SIZE → UInt8
  r : BitVec 32
  w : BitVec 32
  e : BitVec 32
  uart : List UInt8

def consputc (c : Nat) (cons : Cons) : Cons :=
  if c = BACKSPACE then { cons with uart := cons.uart ++ [8, 32, 8] }
  else { cons with uart := cons.uart ++ [UInt8.ofNat c] }

def erase (cons : Cons) : Cons := consputc BACKSPACE { cons with e := cons.e - 1 }

-- The loop of kill-line. Each round takes one off the distance of `e` from `w`,
-- so that distance is fuel enough.
def killLine : Nat → Cons → Cons
  | 0, cons => cons
  | fuel + 1, cons =>
    if cons.e ≠ cons.w ∧ cell cons.buf (cons.e - 1).toNat ≠ NEWLINE then
      killLine fuel (erase cons)
    else cons

def store (c : UInt8) (cons : Cons) : Cons :=
  { cons with buf := put cons.buf cons.e.toNat c, e := cons.e + 1 }

def enter (c : UInt8) (cons : Cons) : Cons :=
  let stored := store c (consputc c.toNat cons)
  if c = NEWLINE ∨ c = C 'D' ∨ (stored.e - stored.r).toNat = INPUT_BUF_SIZE then
    { stored with w := stored.e }
  else stored

-- The processes that `wakeup` makes runnable run when the schedule says so.
def consoleintr (c : UInt8) (cons : Cons) : Cons :=
  if c = C 'P' then cons
  else if c = C 'U' then killLine (cons.e - cons.w).toNat cons
  else if c = C 'H' ∨ c = DELETE then
    if cons.e ≠ cons.w then erase cons else cons
  else if c ≠ 0 ∧ (cons.e - cons.r).toNat < INPUT_BUF_SIZE then
    enter (if c = RETURN then NEWLINE else c) cons
  else cons

inductive Fate where
  | asleep
  | killed
  | returned
deriving DecidableEq

-- A call of `consoleread` in progress. The first `room` bytes of its buffer can
-- be written, `got` is what has been written so far and `n` what is left to do.
structure Read where
  target : Nat
  room : Nat
  n : Nat
  got : List UInt8
deriving DecidableEq

structure Paused where
  fate : Fate
  read : Read
  cons : Cons

-- `consoleread` from the moment it holds the lock until it sleeps or returns.
def readLoop (killed : Bool) (target room : Nat) : Nat → List UInt8 → Cons → Paused
  | 0, got, cons => ⟨.returned, ⟨target, room, 0, got⟩, cons⟩
  | n + 1, got, cons =>
    if cons.r = cons.w then
      ⟨if killed then .killed else .asleep, ⟨target, room, n + 1, got⟩, cons⟩
    else
      let c := cell cons.buf cons.r.toNat
      let next : Cons := { cons with r := cons.r + 1 }
      if c = C 'D' then
        ⟨.returned, ⟨target, room, n + 1, got⟩,
          if n + 1 < target then { next with r := next.r - 1 } else next⟩
      -- `either_copyout` has failed: the byte is lost
      else if room ≤ got.length then ⟨.returned, ⟨target, room, n + 1, got⟩, next⟩
      else if c = NEWLINE then ⟨.returned, ⟨target, room, n, got ++ [c]⟩, next⟩
      else readLoop killed target room n (got ++ [c]) next

def consoleread (killed : Bool) (read : Read) (cons : Cons) : Paused :=
  readLoop killed read.target read.room read.n read.got cons

-- What a call of `consoleread` has returned.
structure Return where
  pid : Pid
  read : Read
  value : Int
deriving DecidableEq

structure System where
  cons : Cons
  reads : Pid → Option Read
  returns : List Return

inductive Event where
  | intr (c : UInt8)
  | call (p : Pid) (n room : Nat)
  | run (p : Pid) (killed : Bool)

def begin (n room : Nat) : Read := ⟨n, room, n, []⟩

-- What is left of a call that has slept or returned.
def onward (p : Pid) (fate : Fate) (read : Read) : Option Read × List Return :=
  match fate with
  | .asleep => (some read, [])
  | .killed => (none, [⟨p, read, -1⟩])
  | .returned => (none, [⟨p, read, read.target - read.n⟩])

def System.settle (s : System) (p : Pid) (paused : Paused) : System where
  cons := paused.cons
  reads := update s.reads p (onward p paused.fate paused.read).1
  returns := s.returns ++ (onward p paused.fate paused.read).2

-- The lock is held for a whole interrupt and for a call of `consoleread` from
-- one sleep to the next, in any order.
def System.step (s : System) : Event → Option System
  | .intr c => some { s with cons := consoleintr c s.cons }
  | .call p n room =>
    match s.reads p with
    | none => some { s with reads := update s.reads p (some (begin n room)) }
    | some _ => none
  | .run p killed =>
    match s.reads p with
    | none => none
    | some read => some (s.settle p (consoleread killed read s.cons))

def System.initial : System := ⟨⟨fun _ => 0, 0, 0, 0, []⟩, fun _ => none, []⟩

-- What the console is for: a line that is being edited, the input committed so
-- far, and who has taken which part of it. `ends` says of every finished read how
-- much of the input had been taken when it returned.
structure Tty where
  committed : List UInt8
  line : List UInt8
  taken : List (Pid × UInt8)
  reads : Pid → Option Read
  ends : List (Return × Nat)

def Tty.unread (t : Tty) : List UInt8 := t.committed.drop t.taken.length

def Tty.held (t : Tty) : Nat := t.unread.length + t.line.length

def Tty.commit (t : Tty) : Tty := { t with committed := t.committed ++ t.line, line := [] }

def Tty.add (t : Tty) (c : UInt8) : Tty :=
  let t' : Tty := { t with line := t.line ++ [c] }
  if c = NEWLINE ∨ c = C 'D' ∨ t'.held = INPUT_BUF_SIZE then t'.commit else t'

def Tty.type (t : Tty) (c : UInt8) : Tty :=
  if c = 0 ∨ c = C 'P' then t
  else if c = C 'U' then { t with line := [] }
  else if c = C 'H' ∨ c = DELETE then { t with line := t.line.dropLast }
  else if t.held < INPUT_BUF_SIZE then t.add (if c = RETURN then NEWLINE else c)
  else t

-- Why a reader stops taking input.
inductive Stop where
  | full
  | newline
  | mark
  | dry
deriving DecidableEq

-- What a reader that wants `n` bytes takes of the input.
def chunk : Nat → List UInt8 → List UInt8 × Stop
  | 0, _ => ([], .full)
  | _ + 1, [] => ([], .dry)
  | n + 1, c :: input =>
    if c = C 'D' then ([], .mark)
    else if c = NEWLINE then ([c], .newline)
    else (c :: (chunk n input).1, (chunk n input).2)

def Stop.fate (killed : Bool) : Stop → Fate
  | .dry => if killed then .killed else .asleep
  | .full | .newline | .mark => .returned

def Read.gain (read : Read) (bytes : List UInt8) : Read :=
  { read with n := read.n - bytes.length, got := read.got ++ bytes }

-- The end-of-file mark that a read takes: one that has got nothing takes it, one
-- that has got something leaves it for the next.
def Read.mark (read : Read) : Stop → List UInt8
  | .mark => if read.got = [] then [C 'D'] else []
  | .full | .newline | .dry => []

def Tty.serve (t : Tty) (p : Pid) (killed : Bool) (read : Read) : Tty :=
  let part := chunk read.n t.unread
  let after := read.gain part.1
  let taken := t.taken ++ (part.1 ++ after.mark part.2).map fun c => (p, c)
  let next := onward p (part.2.fate killed) after
  { t with
    taken := taken
    reads := update t.reads p next.1
    ends := t.ends ++ next.2.map fun ret => (ret, taken.length) }

def Tty.step (t : Tty) : Event → Option Tty
  | .intr c => some (t.type c)
  | .call p n room =>
    match t.reads p with
    | none => some { t with reads := update t.reads p (some (begin n room)) }
    | some _ => none
  | .run p killed =>
    match t.reads p with
    | none => none
    | some read => some (t.serve p killed read)

def Tty.initial : Tty := ⟨[], [], [], fun _ => none, []⟩

def Plain (bytes : List UInt8) : Prop := ∀ c ∈ bytes, c ≠ NEWLINE ∧ c ≠ C 'D'

-- How a read that has returned `got` may have ended, when `stop` characters of
-- the input had been taken.
inductive Ending (committed : List UInt8) (target stop : Nat) : List UInt8 → Prop where
  | length (got : List UInt8) (hplain : Plain got) (hlen : got.length = target) :
      Ending committed target stop got
  | newline (body : List UInt8) (hplain : Plain body) (hlen : body.length < target) :
      Ending committed target stop (body ++ [NEWLINE])
  | beforeMark (got : List UInt8) (hplain : Plain got) (hsome : got ≠ []) (hlen : got.length < target)
      (hmark : committed[stop]? = some (C 'D')) : Ending committed target stop got
  | mark (hstop : 0 < stop) (hmark : committed[stop - 1]? = some (C 'D')) :
      Ending committed target stop []

-- The end-of-file marks that have been taken: by whom, and where the input went on.
def Tty.marks (t : Tty) : List (Pid × Nat) :=
  ((t.taken.zipIdx 1).filter fun entry => entry.1.2 = C 'D').map fun entry => (entry.1.1, entry.2)

def Tty.emptyReads (t : Tty) : List (Pid × Nat) :=
  (t.ends.filter fun last => last.1.value = 0).map fun last => (last.1.pid, last.2)

-- The bytes that went to `p`, as they were taken and as its reads have got them.
def Tty.deliveredTo (t : Tty) (p : Pid) : List UInt8 :=
  (t.taken.filter fun entry => entry.1 = p ∧ entry.2 ≠ C 'D').map Prod.snd

def Tty.gotBy (t : Tty) (p : Pid) : List UInt8 :=
  ((t.ends.filter fun last => last.1.pid = p).map fun last => last.1.read.got).flatten ++
    ((t.reads p).map Read.got).getD []

-- A read in progress.
structure Read.Going (read : Read) : Prop where
  length : read.got.length + read.n = read.target
  left : 0 < read.n
  plain : Plain read.got

structure Tty.Orderly (t : Tty) : Prop where
  inOrder : t.taken.map Prod.snd <+: t.committed
  delivered : ∀ p, t.deliveredTo p = t.gotBy p
  marks : t.marks = t.emptyReads
  going : ∀ p read, t.reads p = some read → read.Going
  ends : ∀ last ∈ t.ends, last.1.value ≠ -1 →
    last.1.value = last.1.read.got.length ∧
      Ending t.committed last.1.read.target last.2 last.1.read.got

end Xv6Ringbuf.Dev
