import Mathlib

namespace Xv6Ringbuf.Machine

-- Stateful code that either returns or stops the machine with a panic.
abbrev M (ε σ : Type) := StateT σ (Except ε)

variable {ε σ α β : Type}

-- Run from `s`, the code ends in `Q` if it returns and in `E` if it panics.
def wp (x : M ε σ α) (s : σ) (Q : α → σ → Prop) (E : ε → Prop) : Prop :=
  match x.run s with
  | .ok (value, s') => Q value s'
  | .error e => E e

variable {value : α} {s : σ} {Q Q' : α → σ → Prop} {E E' : ε → Prop} {e : ε} {x : M ε σ α}
  {f : α → M ε σ β}

theorem wp_pure (h : Q value s) :
    wp (pure value : M ε σ α) s Q E := h

theorem wp_throw (h : E e) :
    wp (throw e : M ε σ α) s Q E := h

theorem wp_get {Q : σ → σ → Prop} (h : Q s s) :
    wp (get : M ε σ σ) s Q E := h

theorem wp_modify {f : σ → σ} {Q : PUnit → σ → Prop} (h : Q ⟨⟩ (f s)) :
    wp (modify f : M ε σ PUnit) s Q E := h

theorem wp_bind_iff {Q : β → σ → Prop} :
    wp (x >>= f) s Q E ↔ wp x s (fun value s' => wp (f value) s' Q E) E := by
  unfold wp
  rw [StateT.run_bind]
  cases x.run s with
  | error e => rfl
  | ok result => rfl

theorem wp_bind {Q : β → σ → Prop} (h : wp x s (fun value s' => wp (f value) s' Q E) E) :
    wp (x >>= f) s Q E :=
  wp_bind_iff.mpr h

theorem wp_get_bind {f : σ → M ε σ β} {Q : β → σ → Prop} (h : wp (f s) s Q E) :
    wp (get >>= f) s Q E :=
  wp_bind (wp_get h)

theorem wp_modify_bind {g : σ → σ} {f : PUnit → M ε σ β} {Q : β → σ → Prop}
    (h : wp (f ⟨⟩) (g s) Q E) : wp (modify g >>= f) s Q E :=
  wp_bind (wp_modify h)

theorem wp.mono (h : wp x s Q E) (hQ : ∀ value s', Q value s' → Q' value s') (hE : ∀ e, E e → E' e) :
    wp x s Q' E' := by
  unfold wp at h ⊢
  cases hx : x.run s with
  | error e =>
    rw [hx] at h
    exact hE e h
  | ok result =>
    rw [hx] at h
    exact hQ _ _ h

theorem wp_call {R : β → σ → Prop} (h : wp x s Q E)
    (hnext : ∀ value s', Q value s' → wp (f value) s' R E) : wp (x >>= f) s R E :=
  wp_bind (h.mono hnext fun _ h => h)

theorem wp.and (h : wp x s Q E) (h' : wp x s Q' E') :
    wp x s (fun value s' => Q value s' ∧ Q' value s') (fun e => E e ∧ E' e) := by
  unfold wp at h h' ⊢
  cases hx : x.run s with
  | error e =>
    rw [hx] at h h'
    exact ⟨h, h'⟩
  | ok result =>
    rw [hx] at h h'
    exact ⟨h, h'⟩

theorem wp.ok {s' : σ} (h : wp x s Q E) (hrun : x.run s = .ok (value, s')) : Q value s' := by
  unfold wp at h
  rwa [hrun] at h

theorem wp.run (h : wp x s Q E) :
    wp x s (fun value s' => x.run s = .ok (value, s') ∧ Q value s') E := by
  unfold wp at h ⊢
  cases hx : x.run s with
  | error e =>
    rw [hx] at h
    exact h
  | ok result =>
    rw [hx] at h
    exact ⟨rfl, h⟩

theorem wp.error (h : wp x s Q E) (hrun : x.run s = .error e) : E e := by
  unfold wp at h
  rwa [hrun] at h

theorem wp.returns (h : wp x s Q fun _ => False) :
    ∃ value s', x.run s = .ok (value, s') ∧ Q value s' := by
  unfold wp at h
  cases hx : x.run s with
  | error e =>
    rw [hx] at h
    exact h.elim
  | ok result =>
    rw [hx] at h
    exact ⟨result.1, result.2, rfl, h⟩

-- Code that keeps an invariant of the state, whenever it returns.
def Keeps (I : σ → Prop) (x : M ε σ α) : Prop :=
  ∀ s, I s → wp x s (fun _ s' => I s') fun _ => True

section Keeps

variable {I : σ → Prop}

theorem Keeps.pure (value : α) : Keeps I (Pure.pure value : M ε σ α) := fun _ h => h

theorem Keeps.throw (e : ε) : Keeps I (throw e : M ε σ α) := fun _ _ => trivial

theorem Keeps.get : Keeps I (get : M ε σ σ) := fun _ h => h

theorem Keeps.modify {f : σ → σ} (h : ∀ s, I s → I (f s)) : Keeps I (modify f : M ε σ PUnit) := h

theorem Keeps.bind {x : M ε σ α} {f : α → M ε σ β} (hx : Keeps I x) (hf : ∀ value, Keeps I (f value)) :
    Keeps I (x >>= f) :=
  fun s h => wp_bind ((hx s h).mono (fun value s' h' => hf value s' h') fun _ h' => h')

theorem Keeps.ite {c : Prop} [Decidable c] {x y : M ε σ α} (hx : c → Keeps I x) (hy : ¬c → Keeps I y) :
    Keeps I (if c then x else y) := by
  by_cases h : c
  · rw [if_pos h]
    exact hx h
  · rw [if_neg h]
    exact hy h

end Keeps

section Pairs

variable {ε σ τ α β γ δ : Type} {R : σ → τ → Prop} {S : α → β → Prop} {S' : γ → δ → Prop}

-- Two runs that end alike: with the same panic, or with values and states that
-- stand in the given relations.
inductive Agree (R : σ → τ → Prop) (S : α → β → Prop) :
    Except ε (α × σ) → Except ε (β × τ) → Prop where
  | ok {a : α} {b : β} {s : σ} {t : τ} (hvalue : S a b) (hstate : R s t) :
      Agree R S (.ok (a, s)) (.ok (b, t))
  | error (e : ε) : Agree R S (.error e) (.error e)

-- Code over one state that does what other code does over another.
def Matched (R : σ → τ → Prop) (S : α → β → Prop) (x : M ε σ α) (y : M ε τ β) : Prop :=
  ∀ s t, R s t → Agree R S (x.run s) (y.run t)

theorem Matched.pure {a : α} {b : β} (h : S a b) :
    Matched R S (Pure.pure a : M ε σ α) (Pure.pure b : M ε τ β) :=
  fun _ _ hstate => .ok h hstate

theorem Matched.throw (e : ε) : Matched R S (throw e : M ε σ α) (throw e : M ε τ β) :=
  fun _ _ _ => .error e

theorem Agree.bind {x : M ε σ α} {y : M ε τ β} {f : α → M ε σ γ} {g : β → M ε τ δ} {s : σ} {t : τ}
    (h : Agree R S (x.run s) (y.run t))
    (hnext : ∀ a b s' t', S a b → R s' t' → y.run t = .ok (b, t') →
      Agree R S' ((f a).run s') ((g b).run t')) :
    Agree R S' ((x >>= f).run s) ((y >>= g).run t) := by
  rw [StateT.run_bind, StateT.run_bind]
  generalize x.run s = r at h
  generalize y.run t = r' at h hnext
  cases h with
  | ok hvalue hstate => exact hnext _ _ _ _ hvalue hstate rfl
  | error e => exact .error e

theorem Matched.bind {x : M ε σ α} {y : M ε τ β} {f : α → M ε σ γ} {g : β → M ε τ δ}
    (h : Matched R S x y) (hnext : ∀ a b, S a b → Matched R S' (f a) (g b)) :
    Matched R S' (x >>= f) (y >>= g) :=
  fun s t hstate => (h s t hstate).bind fun a b s' t' hvalue hstate' _ => hnext a b hvalue s' t' hstate'

theorem Matched.ite {c : Bool} {x y : M ε σ α} {x' y' : M ε τ β} (hx : Matched R S x x')
    (hy : Matched R S y y') : Matched R S (if c then x else y) (if c then x' else y') := by
  cases c with
  | true => exact hx
  | false => exact hy

end Pairs

end Xv6Ringbuf.Machine
