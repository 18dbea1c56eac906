import Xv6Ringbuf.Shell.Parse

namespace Xv6Ringbuf.Shell

open Machine

section Tokens

def flush (word : Text) : List (Token Text) := if word = [] then [] else [.word word]

-- The tokens of a line. `word` is the part of a word that has been read.
def lex : Text → Text → List (Token Text)
  | word, [] => flush word
  | word, c :: line =>
    if whitespace.contains c then flush word ++ lex [] line
    else match symOf c with
      | some .greater =>
        match line with
        | [] => flush word ++ [.sym .greater]
        | d :: rest =>
          if d = Sym.greater.byte then flush word ++ .append :: lex [] rest
          else flush word ++ .sym .greater :: lex [] (d :: rest)
      | some s => flush word ++ .sym s :: lex [] line
      | none => lex (word ++ [c]) line

def tokens (line : Text) : List (Token Text) := lex [] line

end Tokens

section Grammar

inductive Operator : Token Text → Nat → Nat → Prop where
  | input : Operator (.sym .less) O_RDONLY 0
  | output : Operator (.sym .greater) (O_WRONLY ||| O_CREATE ||| O_TRUNC) 1
  | append : Operator .append (O_WRONLY ||| O_CREATE) 1

-- redir*, with redir ::= ('<' | '>' | '>>') word
inductive Redirs : List (Token Text) → List (Redir Text) → Prop where
  | nil : Redirs [] []
  | cons {op : Token Text} {mode fd : Nat} {word : Text} {ts : List (Token Text)}
      {rs : List (Redir Text)} (hop : Operator op mode fd) (hrest : Redirs ts rs) :
      Redirs (op :: .word word :: ts) (⟨word, mode, fd⟩ :: rs)

-- (word redir*)*
inductive Args : List (Token Text) → List Text → List (Redir Text) → Prop where
  | nil : Args [] [] []
  | cons {word : Text} {ts ts' : List (Token Text)} {words : List Text} {rs rs' : List (Redir Text)}
      (hredirs : Redirs ts rs) (hrest : Args ts' words rs') :
      Args (.word word :: (ts ++ ts')) (word :: words) (rs ++ rs')

inductive Part where
  | line
  | pipe
  | exec

def backs (k : Nat) (cmd : Cmd Text) : Cmd Text := Cmd.back^[k] cmd

def amps (k : Nat) : List (Token Text) := List.replicate k (.sym .amp)

-- line ::= pipe '&'* [';' line]
-- pipe ::= exec ['|' pipe]
-- exec ::= '(' line ')' redir* | redir* (word redir*)*
inductive Derives : Part → List (Token Text) → Cmd Text → Prop where
  | block {ts ts' : List (Token Text)} {cmd : Cmd Text} {rs : List (Redir Text)}
      (hline : Derives .line ts cmd) (hredirs : Redirs ts' rs) :
      Derives .exec (.sym .lparen :: (ts ++ .sym .rparen :: ts')) (wrap cmd rs)
  | simple {ts ts' : List (Token Text)} {words : List Text} {rs rs' : List (Redir Text)}
      (hredirs : Redirs ts rs) (hargs : Args ts' words rs') (hwords : words.length ≤ MAXARGS - 1) :
      Derives .exec (ts ++ ts') (wrap (.exec words) (rs ++ rs'))
  | last {ts : List (Token Text)} {cmd : Cmd Text} (hexec : Derives .exec ts cmd) :
      Derives .pipe ts cmd
  | pipe {ts ts' : List (Token Text)} {cmd cmd' : Cmd Text} (hexec : Derives .exec ts cmd)
      (hpipe : Derives .pipe ts' cmd') :
      Derives .pipe (ts ++ .sym .bar :: ts') (.pipe cmd cmd')
  | single {ts : List (Token Text)} {cmd : Cmd Text} (k : Nat) (hpipe : Derives .pipe ts cmd) :
      Derives .line (ts ++ amps k) (backs k cmd)
  | list {ts ts' : List (Token Text)} {cmd cmd' : Cmd Text} (k : Nat)
      (hpipe : Derives .pipe ts cmd) (hline : Derives .line ts' cmd') :
      Derives .line (ts ++ (amps k ++ .sym .semi :: ts')) (.list (backs k cmd) cmd')

end Grammar

-- The parser on a list of tokens.
section Stream

variable {α : Type}

def starts : Token α → Sym → Bool
  | .sym s, s' => s = s'
  | .append, s' => s' = .greater
  | .word _, _ => false

def stream : Lexer (List (Token α)) α where
  peek toks ts := (ts.head?.any fun t => toks.any (starts t), ts)
  gettoken ts := (ts.head?, ts.tail)

variable {ts : List (Token α)} {E : Stop → Prop} {β : Type} {Q : β → List (Token α) → Prop}

theorem look_wp {toks : List Sym} {x y : M Stop (List (Token α)) β}
    (hx : ∀ t rest, ts = t :: rest → toks.any (starts t) = true → wp x ts Q E)
    (hy : (∀ t rest, ts = t :: rest → toks.any (starts t) = false) → wp y ts Q E) :
    wp (look stream toks >>= fun found => if found then x else y) ts Q E := by
  apply wp_bind
  show wp (if (ts.head?.any fun t => toks.any (starts t)) = true then x else y) ts Q E
  cases ts with
  | nil =>
    apply hy
    intro t rest h
    cases h
  | cons t ts =>
    rw [List.head?_cons, Option.any_some]
    by_cases hfound : toks.any (starts t) = true
    · rw [if_pos hfound]
      exact hx t ts rfl hfound
    · rw [if_neg hfound]
      apply hy
      intro t' rest h
      rw [← (List.cons.inj h).1]
      exact Bool.eq_false_iff.mpr hfound

theorem next_wp {f : Option (Token α) → M Stop (List (Token α)) β}
    (h : wp (f ts.head?) ts.tail Q E) : wp (next stream >>= f) ts Q E := wp_bind h

theorem sym_of_peek {s : Sym} (hs : s ≠ .greater) {t : Token α} (h : [s].any (starts t) = true) :
    t = .sym s := by
  rw [List.any_cons, List.any_nil, Bool.or_false] at h
  cases t with
  | sym s' =>
    rw [of_decide_eq_true h]
  | append => exact absurd (of_decide_eq_true h) hs
  | word a => cases h

end Stream

end Xv6Ringbuf.Shell
