import Xv6Ringbuf.Interleave

namespace Xv6Ringbuf.Crash

open Interleave

variable {A : Type} {R : A → Type} {σ τ : Type}

section Runs

variable (exec : (a : A) → σ → R a → σ → Prop)

-- A run ends with the program's value, or with a crash at any earlier point.
inductive Run {α : Type} : Prog A R α → σ → Option α → σ → Prop where
  | ret {value s} : Run (.ret value) s (some value) s
  | crash {p s} : Run p s none s
  | act {a next s answer s' result s''} (hexec : exec a s answer s')
      (hrun : Run (next answer) s' result s'') : Run (.act a next) s result s''

-- Wherever the program can be cut off `inv` holds, it is never stuck, and it
-- ends with `post`.
def Safe {α : Type} (inv : σ → Prop) (post : α → σ → Prop) : Prog A R α → σ → Prop
  | .ret value, s => inv s ∧ post value s
  | .halt, _ => False
  | .act a next, s => inv s ∧ (∃ answer s', exec a s answer s') ∧
      ∀ answer s', exec a s answer s' → Safe inv post (next answer) s'

variable {exec} {α β : Type} {inv : σ → Prop} {post : α → σ → Prop} {p : Prog A R α} {s : σ}

theorem Safe.holds (h : Safe exec inv post p s) : inv s := by
  cases p with
  | ret value => exact h.1
  | halt => exact h.elim
  | act a next => exact h.1

theorem Safe.mono {inv' : σ → Prop} {post' : α → σ → Prop} (h : Safe exec inv post p s)
    (hinv : ∀ s, inv s → inv' s)
    (hpost : ∀ value s, inv s → post value s → post' value s) :
    Safe exec inv' post' p s := by
  induction p generalizing s with
  | ret value => exact ⟨hinv s h.1, hpost value s h.1 h.2⟩
  | halt => exact h.elim
  | act a next ih =>
    obtain ⟨hs, henabled, hnext⟩ := h
    exact ⟨hinv s hs, henabled, fun answer s' hexec => ih answer (hnext answer s' hexec)⟩

theorem Safe.bind {post : β → σ → Prop} {f : α → Prog A R β}
    (h : Safe exec inv (fun value s => Safe exec inv post (f value) s) p s) :
    Safe exec inv post (p >>= f) s := by
  induction p generalizing s with
  | ret value => exact h.2
  | halt => exact h.elim
  | act a next ih =>
    obtain ⟨hs, henabled, hnext⟩ := h
    exact ⟨hs, henabled, fun answer s' hexec => ih answer (hnext answer s' hexec)⟩

theorem Safe.run (h : Safe exec inv post p s) {result : Option α} {s' : σ}
    (hrun : Run exec p s result s') : inv s' ∧ ∀ value, result = some value → post value s' := by
  induction hrun with
  | ret => exact ⟨h.1, fun value hvalue => Option.some.inj hvalue ▸ h.2⟩
  | crash => exact ⟨h.holds, fun value hvalue => by cases hvalue⟩
  | act hexec _ ih => exact ih (h.2.2 _ _ hexec)

theorem Safe.exists_run (h : Safe exec inv post p s) :
    ∃ value s', Run exec p s (some value) s' := by
  induction p generalizing s with
  | ret value => exact ⟨value, s, .ret⟩
  | halt => exact h.elim
  | act a next ih =>
    obtain ⟨_, ⟨answer, s', hexec⟩, hnext⟩ := h
    obtain ⟨value, s'', hrun⟩ := ih answer (hnext answer s' hexec)
    exact ⟨value, s'', .act hexec hrun⟩

-- The state after the first actions of a program, where nothing is left to
-- choice.
def evalFor {α : Type} (act : (a : A) → σ → Option (R a × σ)) : Nat → Prog A R α → σ → Option σ
  | count + 1, .act a next, s =>
    match act a s with
    | none => none
    | some (answer, s') => evalFor act count (next answer) s'
  | _, _, s => some s

theorem Run.of_evalFor {act : (a : A) → σ → Option (R a × σ)}
    (hexec : ∀ a s answer s', act a s = some (answer, s') → exec a s answer s') {s' : σ}
    (count : Nat) (h : evalFor act count p s = some s') : Run exec p s none s' := by
  induction count generalizing p s with
  | zero =>
    simp only [evalFor, Option.some.injEq] at h
    exact h ▸ .crash
  | succ count ih =>
    cases p with
    | ret value =>
      simp only [evalFor, Option.some.injEq] at h
      exact h ▸ .crash
    | halt =>
      simp only [evalFor, Option.some.injEq] at h
      exact h ▸ .crash
    | act a next =>
      simp only [evalFor] at h
      split at h
      · cases h
      · rename_i answer s'' hact
        exact .act (hexec a s answer s'' hact) (ih h)

end Runs

-- Where the abstract system `exec` can take an action, the concrete `exec'` can
-- take it too, and whatever it does there the abstract one does as well.
def Simulates (exec : (a : A) → τ → R a → τ → Prop) (exec' : (a : A) → σ → R a → σ → Prop)
    (rel : τ → σ → Prop) : Prop :=
  ∀ a t s, rel t s → (∃ answer t', exec a t answer t') →
    (∃ answer s', exec' a s answer s') ∧
      ∀ answer s', exec' a s answer s' → ∃ t', exec a t answer t' ∧ rel t' s'

variable {rel : τ → σ → Prop} {α : Type} {inv : τ → Prop} {post : α → τ → Prop} {p : Prog A R α}
  {t : τ} {s : σ}

theorem Safe.of_simulates {exec : (a : A) → τ → R a → τ → Prop} {exec' : (a : A) → σ → R a → σ → Prop}
    (hsim : Simulates exec exec' rel) (h : Safe exec inv post p t) (hrel : rel t s) :
    Safe exec' (fun s => ∃ t, rel t s ∧ inv t) (fun value s => ∃ t, rel t s ∧ post value t) p s := by
  induction p generalizing t s with
  | ret value => exact ⟨⟨t, hrel, h.1⟩, ⟨t, hrel, h.2⟩⟩
  | halt => exact h.elim
  | act a next ih =>
    obtain ⟨hinv, henabled, hnext⟩ := h
    obtain ⟨henabled', hstep⟩ := hsim a t s hrel henabled
    refine ⟨⟨t, hrel, hinv⟩, henabled', ?_⟩
    intro answer s' hexec
    obtain ⟨t', hexec', hrel'⟩ := hstep answer s' hexec
    exact ih answer (hnext answer t' hexec') hrel'

theorem Safe.step {step : (a : A) → τ → Option (R a × τ)} {a : A} {next : R a → Prog A R α} {t' : τ}
    {answer : R a} (hinv : inv t) (hstep : step a t = some (answer, t'))
    (hnext : Safe (fun a t answer t' => step a t = some (answer, t')) inv post (next answer) t') :
    Safe (fun a t answer t' => step a t = some (answer, t')) inv post (.act a next) t := by
  refine ⟨hinv, ⟨answer, t', hstep⟩, ?_⟩
  intro answer' t'' hstep'
  obtain ⟨rfl, rfl⟩ := Prod.mk.inj (Option.some.inj (hstep.symm.trans hstep'))
  exact hnext

theorem Safe.prod {exec : (a : A) → τ → R a → τ → Prop} {exec' : A → σ → σ → Prop} {inv' : σ → Prop}
    {post' : α → σ → Prop} (h : Safe exec inv post p t)
    (h' : Safe (fun a s _ s' => exec' a s s') inv' post' p s) :
    Safe (fun a (x : τ × σ) answer y => exec a x.1 answer y.1 ∧ exec' a x.2 y.2)
      (fun x => inv x.1 ∧ inv' x.2) (fun value x => post value x.1 ∧ post' value x.2) p (t, s) := by
  induction p generalizing t s with
  | ret value => exact ⟨⟨h.1, h'.1⟩, h.2, h'.2⟩
  | halt => exact h.elim
  | act a next ih =>
    obtain ⟨hinv, ⟨answer, t', hexec⟩, hnext⟩ := h
    obtain ⟨hinv', ⟨-, s', hexec'⟩, hnext'⟩ := h'
    refine ⟨⟨hinv, hinv'⟩, ⟨answer, (t', s'), hexec, hexec'⟩, ?_⟩
    rintro answer' ⟨t'', s''⟩ ⟨hexec, hexec'⟩
    exact ih answer' (hnext answer' t'' hexec) (hnext' answer' s'' hexec')

-- The concrete system may be stuck where the abstract one is not, but what it
-- does the abstract one does as well.
def Tracks (exec : (a : A) → τ → R a → τ → Prop) (act : (a : A) → σ → Option (R a × σ))
    (rel : τ → σ → Prop) : Prop :=
  ∀ a t s, rel t s → (∃ answer t', exec a t answer t') →
    ∀ answer s', act a s = some (answer, s') → ∃ t', exec a t answer t' ∧ rel t' s'

theorem Safe.of_tracks {exec : (a : A) → τ → R a → τ → Prop} {act : (a : A) → σ → Option (R a × σ)}
    (htracks : Tracks exec act rel) {s' : σ} {value : α} (h : Safe exec inv post p t) (hrel : rel t s)
    (heval : p.eval act s = some (value, s')) :
    ∃ t', rel t' s' ∧ post value t' := by
  induction p generalizing t s with
  | ret value' =>
    obtain ⟨rfl, rfl⟩ := Prod.mk.inj (Option.some.inj heval)
    exact ⟨t, hrel, h.2⟩
  | halt => exact h.elim
  | act a next ih =>
    obtain ⟨-, henabled, hnext⟩ := h
    simp only [Prog.eval] at heval
    split at heval
    · rename_i answer s'' hact
      obtain ⟨t', hexec, hrel'⟩ := htracks a t s hrel henabled answer s'' hact
      exact ih answer (hnext answer t' hexec) hrel' heval
    · cases heval

theorem Safe.eval {act : (a : A) → σ → Option (R a × σ)} {inv : σ → Prop} {post : α → σ → Prop}
    (h : Safe (fun a s answer s' => act a s = some (answer, s')) inv post p s) :
    ∃ value s', p.eval act s = some (value, s') := by
  induction p generalizing s with
  | ret value => exact ⟨value, s, rfl⟩
  | halt => exact h.elim
  | act a next ih =>
    obtain ⟨-, ⟨answer, s', hact⟩, hnext⟩ := h
    obtain ⟨value, s'', heval⟩ := ih answer (hnext answer s' hact)
    exact ⟨value, s'', by simp only [Prog.eval, hact, heval]⟩

end Xv6Ringbuf.Crash
