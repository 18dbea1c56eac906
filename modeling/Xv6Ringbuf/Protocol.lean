import Xv6Ringbuf.Handler

namespace Xv6Ringbuf.Protocol

open Interleave Machine Handler

variable {A : Type} {R : A → Type} {γ : Type}

-- An observer that sees the actions of a program and their answers. `ok` says
-- which actions it lets pass.
structure Rules (A : Type) (R : A → Type) (γ : Type) where
  ok : γ → A → Prop
  move : γ → (a : A) → R a → γ

variable (rules : Rules A R γ) {α β : Type}

-- Whatever the answers are, the program keeps to the rules and ends with `post`.
def Obeys (post : α → γ → Prop) : Prog A R α → γ → Prop
  | .ret value, g => post value g
  | .halt, _ => True
  | .act a next, g => rules.ok g a ∧ ∀ answer, Obeys post (next answer) (rules.move g a answer)

-- The observer is where it was when the program ends.
def Keeps (p : Prog A R α) (g : γ) : Prop := Obeys rules (fun _ g' => g' = g) p g

variable {rules} {post : α → γ → Prop} {p : Prog A R α} {g : γ}

theorem Obeys.mono {post' : α → γ → Prop} (h : Obeys rules post p g)
    (hpost : ∀ value g, post value g → post' value g) : Obeys rules post' p g := by
  induction p generalizing g with
  | ret value => exact hpost value g h
  | halt => trivial
  | act a next ih => exact ⟨h.1, fun answer => ih answer (h.2 answer)⟩

variable {f : α → Prog A R β}

theorem obeys_bind {post : β → γ → Prop}
    (h : Obeys rules (fun value g => Obeys rules post (f value) g) p g) :
    Obeys rules post (p >>= f) g := by
  induction p generalizing g with
  | ret value => exact h
  | halt => trivial
  | act a next ih => exact ⟨h.1, fun answer => ih answer (h.2 answer)⟩

theorem Obeys.bind {post' : β → γ → Prop} (h : Obeys rules post p g)
    (hnext : ∀ value g, post value g → Obeys rules post' (f value) g) :
    Obeys rules post' (p >>= f) g :=
  obeys_bind (h.mono hnext)

theorem Keeps.bind {post : β → γ → Prop} (h : Keeps rules p g)
    (hnext : ∀ value, Obeys rules post (f value) g) : Obeys rules post (p >>= f) g := by
  refine Obeys.bind h ?_
  rintro value g' rfl
  exact hnext value

theorem obeys_ite {c : Prop} [Decidable c] {x y : Prog A R α} (hx : c → Obeys rules post x g)
    (hy : ¬c → Obeys rules post y g) : Obeys rules post (if c then x else y) g := by
  by_cases h : c
  · rw [if_pos h]
    exact hx h
  · rw [if_neg h]
    exact hy h

theorem obeys_act {a : A} {next : R a → Prog A R α} (hok : rules.ok g a)
    (hnext : ∀ answer, Obeys rules post (next answer) (rules.move g a answer)) :
    Obeys rules post (.act a next) g :=
  ⟨hok, hnext⟩

end Xv6Ringbuf.Protocol
