import Xv6Ringbuf.Machine

namespace Xv6Ringbuf.Shell

open Machine

abbrev Text := List UInt8

def MAXARGS : Nat := 10

def O_RDONLY : Nat := 0x000

def O_WRONLY : Nat := 0x001

def O_CREATE : Nat := 0x200

def O_TRUNC : Nat := 0x400

-- `panic` prints its message and exits. A parser out of fuel hangs.
inductive Stop where
  | panic (message : String)
  | hang
deriving DecidableEq

inductive Sym where
  | bar
  | lparen
  | rparen
  | semi
  | amp
  | less
  | greater
deriving DecidableEq

def Sym.byte : Sym → UInt8
  | .bar => 0x7c
  | .lparen => 0x28
  | .rparen => 0x29
  | .semi => 0x3b
  | .amp => 0x26
  | .less => 0x3c
  | .greater => 0x3e

-- A token with its place or its text, if it is a word.
inductive Token (α : Type) where
  | sym (s : Sym)
  | append
  | word (a : α)
deriving DecidableEq

structure Redir (α : Type) where
  file : α
  mode : Nat
  fd : Nat
deriving DecidableEq

inductive Cmd (α : Type) where
  | exec (argv : List α)
  | redir (cmd : Cmd α) (r : Redir α)
  | pipe (left right : Cmd α)
  | list (left right : Cmd α)
  | back (cmd : Cmd α)
deriving DecidableEq

-- Each redirection is put around the command so far.
def wrap {α : Type} (cmd : Cmd α) (rs : List (Redir α)) : Cmd α := rs.foldl .redir cmd

-- What the parser needs of `peek` and `gettoken`.
structure Lexer (σ α : Type) where
  peek : List Sym → σ → Bool × σ
  gettoken : σ → Option (Token α) × σ

section Parser

variable {σ α : Type} (lx : Lexer σ α)

def look (toks : List Sym) : M Stop σ Bool := do
  let s ← get
  modify fun s => (lx.peek toks s).2
  pure (lx.peek toks s).1

def next : M Stop σ (Option (Token α)) := do
  let s ← get
  modify fun s => (lx.gettoken s).2
  pure (lx.gettoken s).1

-- The `switch` of `parseredirs`.
def redircmd (tok : Option (Token α)) (file : α) : List (Redir α) :=
  match tok with
  | some (.sym .less) => [⟨file, O_RDONLY, 0⟩]
  | some (.sym .greater) => [⟨file, O_WRONLY ||| O_CREATE ||| O_TRUNC, 1⟩]
  | some .append => [⟨file, O_WRONLY ||| O_CREATE, 1⟩]
  | _ => []

def wordOf : Option (Token α) → M Stop σ α
  | some (.word a) => pure a
  | _ => throw (.panic "missing file for redirection")

def parseredirs : Nat → M Stop σ (List (Redir α))
  | 0 => throw .hang
  | fuel + 1 => do
      let found ← look lx [.less, .greater]
      if found then do
        let tok ← next lx
        let file ← next lx
        let a ← wordOf file
        let rs ← parseredirs fuel
        pure (redircmd tok a ++ rs)
      else pure []

-- The loop of `parseexec`: the words, and the redirections between and behind them.
def parseargs : Nat → Nat → M Stop σ (List α × List (Redir α))
  | 0, _ => throw .hang
  | fuel + 1, argc => do
      let done ← look lx [.bar, .rparen, .amp, .semi]
      if done then pure ([], [])
      else do
        let tok ← next lx
        match tok with
        | none => pure ([], [])
        | some (.word a) =>
          if argc + 1 ≥ MAXARGS then throw (.panic "too many args")
          else do
            let rs ← parseredirs lx fuel
            let rest ← parseargs fuel (argc + 1)
            pure (a :: rest.1, rs ++ rest.2)
        | some _ => throw (.panic "syntax")

def parsebacks : Nat → Cmd α → M Stop σ (Cmd α)
  | 0, _ => throw .hang
  | fuel + 1, cmd => do
      let found ← look lx [.amp]
      if found then do
        let _ ← next lx
        parsebacks fuel (.back cmd)
      else pure cmd

mutual

def parseline : Nat → M Stop σ (Cmd α)
  | 0 => throw .hang
  | fuel + 1 => do
      let cmd ← parsepipe fuel
      let cmd ← parsebacks lx fuel cmd
      let found ← look lx [.semi]
      if found then do
        let _ ← next lx
        let rest ← parseline fuel
        pure (.list cmd rest)
      else pure cmd

def parsepipe : Nat → M Stop σ (Cmd α)
  | 0 => throw .hang
  | fuel + 1 => do
      let cmd ← parseexec fuel
      let found ← look lx [.bar]
      if found then do
        let _ ← next lx
        let rest ← parsepipe fuel
        pure (.pipe cmd rest)
      else pure cmd

def parseblock : Nat → M Stop σ (Cmd α)
  | 0 => throw .hang
  | fuel + 1 => do
      let found ← look lx [.lparen]
      if found then do
        let _ ← next lx
        let cmd ← parseline fuel
        let found ← look lx [.rparen]
        if found then do
          let _ ← next lx
          let rs ← parseredirs lx fuel
          pure (wrap cmd rs)
        else throw (.panic "syntax - missing )")
      else throw (.panic "parseblock")

def parseexec : Nat → M Stop σ (Cmd α)
  | 0 => throw .hang
  | fuel + 1 => do
      let found ← look lx [.lparen]
      if found then parseblock fuel
      else do
        let rs ← parseredirs lx fuel
        let rest ← parseargs lx fuel 0
        pure (wrap (.exec rest.1) (rs ++ rest.2))

end

end Parser

section Cursor

def whitespace : Text := [0x20, 0x09, 0x0d, 0x0a, 0x0b]

def symbols : Text := [0x3c, 0x7c, 0x3e, 0x26, 0x3b, 0x28, 0x29]

def symOf (c : UInt8) : Option Sym :=
  [Sym.bar, .lparen, .rparen, .semi, .amp, .less, .greater].find? fun s => s.byte = c

-- Behind the line stands a NUL.
def charAt (line : Text) (s : Nat) : UInt8 := line.getD s 0

-- A loop that moves the cursor, at most to the end of the line.
def scan (p : UInt8 → Bool) (line : Text) : Nat → Nat → Nat
  | 0, s => s
  | fuel + 1, s => if s < line.length ∧ p (charAt line s) then scan p line fuel (s + 1) else s

def skipWhite (line : Text) (s : Nat) : Nat :=
  scan (fun c => whitespace.contains c) line (line.length - s) s

def skipWord (line : Text) (s : Nat) : Nat :=
  scan (fun c => !whitespace.contains c && !symbols.contains c) line (line.length - s) s

-- The `switch` of `gettoken`: the token at `q`, and where it ends.
def lexeme (line : Text) (q : Nat) : Option (Token (Nat × Nat)) × Nat :=
  if charAt line q = 0 then (none, q)
  else match symOf (charAt line q) with
    | some .greater =>
      if charAt line (q + 1) = Sym.greater.byte then (some .append, q + 2)
      else (some (.sym .greater), q + 1)
    | some s => (some (.sym s), q + 1)
    | none => (some (.word (q, skipWord line q)), skipWord line q)

def gettoken (line : Text) (s : Nat) : Option (Token (Nat × Nat)) × Nat :=
  let found := lexeme line (skipWhite line s)
  (found.1, skipWhite line found.2)

def peek (line : Text) (toks : List Sym) (s : Nat) : Bool × Nat :=
  let c := charAt line (skipWhite line s)
  (c != 0 && (toks.map Sym.byte).contains c, skipWhite line s)

def cursor (line : Text) : Lexer Nat (Nat × Nat) := ⟨peek line, gettoken line⟩

-- The line is a buffer with a NUL behind it, and each end of a word gets one.
def nulterminate : Cmd (Nat × Nat) → Text → Text
  | .exec argv, buf => argv.foldl (fun buf arg => buf.set arg.2 0) buf
  | .redir cmd r, buf => (nulterminate cmd buf).set r.file.2 0
  | .pipe left right, buf => nulterminate right (nulterminate left buf)
  | .list left right, buf => nulterminate right (nulterminate left buf)
  | .back cmd, buf => nulterminate cmd buf

def parsecmd (fuel : Nat) (line : Text) : Except Stop (Cmd (Nat × Nat) × Text) := do
  let (cmd, s) ← (parseline (cursor line) fuel).run 0
  if (peek line [] s).2 ≠ line.length then throw (.panic "syntax")
  else pure (cmd, nulterminate cmd (line ++ [0]))

end Cursor

end Xv6Ringbuf.Shell
