import Xv6Ringbuf.Machine
import Xv6Ringbuf.Shell.Grammar

namespace Xv6Ringbuf.Shell

open Machine

section Relations

variable {α β : Type} (S : α → β → Prop)

inductive Token.Rel : Token α → Token β → Prop where
  | sym (s : Sym) : Token.Rel (.sym s) (.sym s)
  | append : Token.Rel .append .append
  | word {a : α} {b : β} (h : S a b) : Token.Rel (.word a) (.word b)

inductive Redir.Rel : Redir α → Redir β → Prop where
  | mk {a : α} {b : β} (h : S a b) (mode fd : Nat) : Redir.Rel ⟨a, mode, fd⟩ ⟨b, mode, fd⟩

inductive Cmd.Rel : Cmd α → Cmd β → Prop where
  | exec {argv : List α} {argv' : List β} (h : List.Forall₂ S argv argv') :
      Cmd.Rel (.exec argv) (.exec argv')
  | redir {cmd : Cmd α} {cmd' : Cmd β} {r : Redir α} {r' : Redir β} (h : Cmd.Rel cmd cmd')
      (hr : Redir.Rel S r r') : Cmd.Rel (.redir cmd r) (.redir cmd' r')
  | pipe {left right : Cmd α} {left' right' : Cmd β} (h : Cmd.Rel left left')
      (h' : Cmd.Rel right right') : Cmd.Rel (.pipe left right) (.pipe left' right')
  | list {left right : Cmd α} {left' right' : Cmd β} (h : Cmd.Rel left left')
      (h' : Cmd.Rel right right') : Cmd.Rel (.list left right) (.list left' right')
  | back {cmd : Cmd α} {cmd' : Cmd β} (h : Cmd.Rel cmd cmd') : Cmd.Rel (.back cmd) (.back cmd')

variable {S}

theorem wrap_rel {cmd : Cmd α} {cmd' : Cmd β} {rs : List (Redir α)} {rs' : List (Redir β)}
    (h : Cmd.Rel S cmd cmd') (hrs : List.Forall₂ (Redir.Rel S) rs rs') :
    Cmd.Rel S (wrap cmd rs) (wrap cmd' rs') := by
  induction hrs generalizing cmd cmd' with
  | nil => exact h
  | cons hr _ ih => exact ih (.redir h hr)

theorem redircmd_rel {tok : Option (Token α)} {tok' : Option (Token β)} {a : α} {b : β}
    (htok : Option.Rel (Token.Rel S) tok tok') (h : S a b) :
    List.Forall₂ (Redir.Rel S) (redircmd tok a) (redircmd tok' b) := by
  cases htok with
  | none => exact .nil
  | some htok =>
    cases htok with
    | append => exact .cons (.mk h _ _) .nil
    | word _ => exact .nil
    | sym s =>
      cases s with
      | less => exact .cons (.mk h _ _) .nil
      | greater => exact .cons (.mk h _ _) .nil
      | bar | lparen | rparen | semi | amp => exact .nil

end Relations

structure Lexer.Rel {σ τ α β : Type} (lx : Lexer σ α) (ly : Lexer τ β) (R : σ → τ → Prop)
    (S : α → β → Prop) : Prop where
  peek : ∀ toks s t, R s t →
    (lx.peek toks s).1 = (ly.peek toks t).1 ∧ R (lx.peek toks s).2 (ly.peek toks t).2
  gettoken : ∀ s t, R s t →
    Option.Rel (Token.Rel S) (lx.gettoken s).1 (ly.gettoken t).1 ∧
      R (lx.gettoken s).2 (ly.gettoken t).2

section Parser

variable {σ τ α β γ δ : Type} {lx : Lexer σ α} {ly : Lexer τ β} {R : σ → τ → Prop}
  {S : α → β → Prop} (h : Lexer.Rel lx ly R S)

include h

theorem look_matched (toks : List Sym) : Matched R Eq (look lx toks) (look ly toks) := by
  intro s t hstate
  obtain ⟨hpeek, hnext⟩ := h.peek toks s t hstate
  exact .ok hpeek hnext

theorem next_matched : Matched R (Option.Rel (Token.Rel S)) (next lx) (next ly) := by
  intro s t hstate
  obtain ⟨htoken, hnext⟩ := h.gettoken s t hstate
  exact .ok htoken hnext

theorem look_if_matched {S' : γ → δ → Prop} (toks : List Sym) {x y : M Stop σ γ} {x' y' : M Stop τ δ}
    (hx : Matched R S' x x') (hy : Matched R S' y y') :
    Matched R S' (look lx toks >>= fun found => if found then x else y)
      (look ly toks >>= fun found => if found then x' else y') := by
  apply (look_matched h toks).bind
  rintro found _ rfl
  exact hx.ite hy

theorem parseredirs_matched (fuel : Nat) :
    Matched R (List.Forall₂ (Redir.Rel S)) (parseredirs lx fuel) (parseredirs ly fuel) := by
  induction fuel with
  | zero => exact .throw _
  | succ fuel ih =>
    rw [parseredirs, parseredirs]
    apply look_if_matched h
    · apply (next_matched h).bind
      intro tok tok' htok
      apply (next_matched h).bind
      intro file file' hfile
      have hword : Matched R S (wordOf file) (wordOf file') := by
        cases hfile with
        | none => exact .throw _
        | some hfile =>
          cases hfile with
          | sym s => exact .throw _
          | append => exact .throw _
          | word hab => exact .pure hab
      apply hword.bind
      intro a b hab
      apply ih.bind
      intro rs rs' hrs
      exact .pure (List.rel_append (redircmd_rel htok hab) hrs)
    · exact .pure .nil

def PartsRel (S : α → β → Prop) (parts : List α × List (Redir α)) (parts' : List β × List (Redir β)) :
    Prop := List.Forall₂ S parts.1 parts'.1 ∧ List.Forall₂ (Redir.Rel S) parts.2 parts'.2

theorem parseargs_matched (fuel argc : Nat) :
    Matched R (PartsRel S) (parseargs lx fuel argc) (parseargs ly fuel argc) := by
  induction fuel generalizing argc with
  | zero => exact .throw _
  | succ fuel ih =>
    rw [parseargs, parseargs]
    apply look_if_matched h
    · exact .pure ⟨.nil, .nil⟩
    · apply (next_matched h).bind
      intro tok tok' htok
      cases htok with
      | none => exact .pure ⟨.nil, .nil⟩
      | some htok =>
        cases htok with
        | sym s => exact .throw _
        | append => exact .throw _
        | word hab =>
          by_cases hmany : argc + 1 ≥ MAXARGS
          · simp only [if_pos hmany]
            exact .throw _
          · simp only [if_neg hmany]
            apply (parseredirs_matched h fuel).bind
            intro rs rs' hrs
            apply (ih (argc + 1)).bind
            intro rest rest' hrest
            exact .pure ⟨.cons hab hrest.1, List.rel_append hrs hrest.2⟩

theorem parsebacks_matched (fuel : Nat) {cmd : Cmd α} {cmd' : Cmd β} (hcmd : Cmd.Rel S cmd cmd') :
    Matched R (Cmd.Rel S) (parsebacks lx fuel cmd) (parsebacks ly fuel cmd') := by
  induction fuel generalizing cmd cmd' with
  | zero => exact .throw _
  | succ fuel ih =>
    rw [parsebacks, parsebacks]
    apply look_if_matched h
    · apply (next_matched h).bind
      intro _ _ _
      exact ih (.back hcmd)
    · exact .pure hcmd

theorem parse_matched (fuel : Nat) :
    Matched R (Cmd.Rel S) (parseline lx fuel) (parseline ly fuel) ∧
      Matched R (Cmd.Rel S) (parsepipe lx fuel) (parsepipe ly fuel) ∧
      Matched R (Cmd.Rel S) (parseblock lx fuel) (parseblock ly fuel) ∧
      Matched R (Cmd.Rel S) (parseexec lx fuel) (parseexec ly fuel) := by
  induction fuel with
  | zero => exact ⟨.throw _, .throw _, .throw _, .throw _⟩
  | succ fuel ih =>
    obtain ⟨hline, hpipe, hblock, hexec⟩ := ih
    refine ⟨?_, ?_, ?_, ?_⟩
    · rw [parseline, parseline]
      apply hpipe.bind
      intro cmd cmd' hcmd
      apply (parsebacks_matched h fuel hcmd).bind
      intro cmd cmd' hcmd
      apply look_if_matched h
      · apply (next_matched h).bind
        intro _ _ _
        apply hline.bind
        intro rest rest' hrest
        exact .pure (.list hcmd hrest)
      · exact .pure hcmd
    · rw [parsepipe, parsepipe]
      apply hexec.bind
      intro cmd cmd' hcmd
      apply look_if_matched h
      · apply (next_matched h).bind
        intro _ _ _
        apply hpipe.bind
        intro rest rest' hrest
        exact .pure (.pipe hcmd hrest)
      · exact .pure hcmd
    · rw [parseblock, parseblock]
      apply look_if_matched h
      · apply (next_matched h).bind
        intro _ _ _
        apply hline.bind
        intro cmd cmd' hcmd
        apply look_if_matched h
        · apply (next_matched h).bind
          intro _ _ _
          apply (parseredirs_matched h fuel).bind
          intro rs rs' hrs
          exact .pure (wrap_rel hcmd hrs)
        · exact .throw _
      · exact .throw _
    · rw [parseexec, parseexec]
      apply look_if_matched h
      · exact hblock
      · apply (parseredirs_matched h fuel).bind
        intro rs rs' hrs
        apply (parseargs_matched h fuel 0).bind
        intro parts parts' hparts
        exact .pure (wrap_rel (.exec hparts.1) (List.rel_append hrs hparts.2))

end Parser

end Xv6Ringbuf.Shell
