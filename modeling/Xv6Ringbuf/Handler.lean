import Xv6Ringbuf.Interleave
import Xv6Ringbuf.Machine

namespace Xv6Ringbuf.Handler

open Interleave Machine

variable {A : Type} {R : A → Type} {ε σ α β : Type}

-- A program run on a machine that handles its actions. A program that halts
-- stops the machine with `stuck`.
def interp (handle : (a : A) → M ε σ (R a)) (stuck : ε) : Prog A R α → M ε σ α
  | .ret value => pure value
  | .halt => throw stuck
  | .act a next => handle a >>= fun answer => interp handle stuck (next answer)

variable {handle : (a : A) → M ε σ (R a)} {stuck : ε} {s : σ} {Q : α → σ → Prop} {E : ε → Prop}

theorem wp_interp_act {a : A} {next : R a → Prog A R α}
    (h : wp (handle a) s (fun answer s' => wp (interp handle stuck (next answer)) s' Q E) E) :
    wp (interp handle stuck (.act a next)) s Q E :=
  wp_bind h

variable {p : Prog A R β} {f : β → Prog A R α}

theorem wp_interp_bind_iff :
    wp (interp handle stuck (p >>= f)) s Q E ↔
      wp (interp handle stuck p) s (fun value s' => wp (interp handle stuck (f value)) s' Q E) E := by
  induction p generalizing s with
  | ret value => rfl
  | halt => rfl
  | act a next ih =>
    change wp (handle a >>= fun answer => interp handle stuck ((next answer).bind f)) s Q E ↔
      wp (handle a >>= fun answer => interp handle stuck (next answer)) s _ E
    rw [wp_bind_iff, wp_bind_iff]
    unfold wp
    cases (handle a).run s with
    | error e => rfl
    | ok result => exact ih result.1

theorem wp_interp_bind
    (h : wp (interp handle stuck p) s (fun value s' => wp (interp handle stuck (f value)) s' Q E) E) :
    wp (interp handle stuck (p >>= f)) s Q E :=
  wp_interp_bind_iff.mpr h

variable {ω : Type}

-- The machine writes down what the actions give to note.
def noting (handle : (a : A) → M ε σ (R a)) (note : A → List ω) (a : A) : M ε (σ × List ω) (R a) :=
  fun s =>
    match handle a s.1 with
    | .ok (answer, s') => .ok (answer, (s', s.2 ++ note a))
    | .error e => .error e

-- Run from `s`, the program ends in `Q`, which also knows the notes of this run.
def Notes (handle : (a : A) → M ε σ (R a)) (note : A → List ω) (stuck : ε) (p : Prog A R α) (s : σ)
    (Q : α → σ → List ω → Prop) (E : ε → Prop) : Prop :=
  wp (interp (noting handle note) stuck p) (s, []) (fun value s' => Q value s'.1 s'.2) E

variable {note : A → List ω} {s' : σ} {Q : α → σ → List ω → Prop} {a : A} {l : List ω}
  {p : Prog A R α} {next : R a → Prog A R α}

theorem wp_noting {Q : R a → σ × List ω → Prop} :
    wp (noting handle note a) (s, l) Q E ↔
      wp (handle a) s (fun answer s' => Q answer (s', l ++ note a)) E := by
  have hrun : StateT.run (noting handle note a) (s, l) = match (handle a).run s with
      | .ok (answer, s') => .ok (answer, (s', l ++ note a))
      | .error e => .error e := rfl
  unfold wp
  rw [hrun]
  cases (handle a).run s with
  | ok result => rfl
  | error e => rfl

theorem wp_interp_noting {Q : α → σ × List ω → Prop} :
    wp (interp (noting handle note) stuck p) (s, l) Q E ↔
      Notes handle note stuck p s (fun value s' l' => Q value (s', l ++ l')) E := by
  unfold Notes
  suffices h : ∀ l₁ l₂ : List ω, wp (interp (noting handle note) stuck p) (s, l₁ ++ l₂) Q E ↔
      wp (interp (noting handle note) stuck p) (s, l₂) (fun value s' => Q value (s'.1, l₁ ++ s'.2)) E by
    simpa using h l []
  intro l₁ l₂
  induction p generalizing s l₂ with
  | ret value => rfl
  | halt => rfl
  | act a next ih =>
    simp only [interp, wp_bind_iff, wp_noting, List.append_assoc]
    unfold wp
    cases (handle a).run s with
    | error e => rfl
    | ok result => exact ih result.1 (l₂ ++ note a)

theorem notes_act {answer : R a} (hstep : handle a s = .ok (answer, s'))
    (h : Notes handle note stuck (next answer) s' (fun value s'' l => Q value s'' (note a ++ l)) E) :
    Notes handle note stuck (.act a next) s Q E := by
  apply wp_interp_act
  rw [wp_noting]
  unfold wp
  rw [show (handle a).run s = .ok (answer, s') from hstep]
  rw [List.nil_append]
  exact wp_interp_noting.mpr h

theorem Notes.bind {p : Prog A R β} {f : β → Prog A R α} {Q' : β → σ → List ω → Prop}
    (h : Notes handle note stuck p s Q' E)
    (hnext : ∀ value s' l, Q' value s' l →
      Notes handle note stuck (f value) s' (fun value' s'' l' => Q value' s'' (l ++ l')) E) :
    Notes handle note stuck (p >>= f) s Q E :=
  wp_interp_bind (wp.mono h (fun value s' h' => wp_interp_noting.mpr (hnext value s'.1 s'.2 h'))
    fun _ h' => h')

theorem Notes.mono {Q' : α → σ → List ω → Prop} {E' : ε → Prop} (h : Notes handle note stuck p s Q E)
    (hQ : ∀ value s' l, Q value s' l → Q' value s' l) (hE : ∀ e, E e → E' e) :
    Notes handle note stuck p s Q' E' :=
  wp.mono h (fun value s' h' => hQ value s'.1 s'.2 h') hE

theorem notes_iff_wp {Q : α → σ → Prop} :
    Notes handle note stuck p s (fun value s' _ => Q value s') E ↔ wp (interp handle stuck p) s Q E := by
  induction p generalizing s with
  | ret value => rfl
  | halt => rfl
  | act a next ih =>
    unfold Notes
    simp only [interp, wp_bind_iff, wp_noting, List.nil_append]
    unfold wp
    cases (handle a).run s with
    | error e => rfl
    | ok result => exact wp_interp_noting.trans (ih result.1)

end Xv6Ringbuf.Handler
