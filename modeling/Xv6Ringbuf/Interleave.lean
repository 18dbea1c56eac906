import Mathlib

namespace Xv6Ringbuf.Interleave

-- A sequential program over atomic actions. The answer of an action decides
-- how the program goes on, and `halt` ends the process early.
inductive Prog (A : Type) (R : A → Type) (α : Type) where
  | ret (value : α)
  | halt
  | act (action : A) (next : R action → Prog A R α)

namespace Prog

variable {A : Type} {R : A → Type} {α β : Type}

def bind : Prog A R α → (α → Prog A R β) → Prog A R β
  | .ret value, f => f value
  | .halt, _ => .halt
  | .act action next, f => .act action fun answer => bind (next answer) f

instance : Monad (Prog A R) where
  pure := .ret
  bind := bind

def perform (action : A) : Prog A R (R action) := .act action .ret

-- The same program, returning its actions and their answers with its value.
def traced : Prog A R α → Prog A R (α × List (Σ action, R action))
  | .ret value => .ret (value, [])
  | .halt => .halt
  | .act action next => .act action fun answer =>
    (traced (next answer)).bind fun result => .ret (result.1, ⟨action, answer⟩ :: result.2)

end Prog

-- A looping process is either between two programs or inside one. Inside it
-- still carries the local state from which the program was started.
inductive Thread (A : Type) (R : A → Type) (Λ : Type) where
  | head (local_ : Λ)
  | run (start : Λ) (rest : Prog A R Λ)

section Semantics

variable {A : Type} {R : A → Type} {σ : Type} (exec : (a : A) → σ → Option (R a × σ))

-- A process that may take an action at a shared state only where `ok` says so.
structure Party (A : Type) (R : A → Type) (σ Λ : Type) where
  body : Λ → Prog A R Λ → Prop
  ok : Λ → A → σ → Prop

-- An action that faults has no step: the process never moves again.
inductive Thread.Step {Λ : Type} (party : Party A R σ Λ) :
    σ → Thread A R Λ → σ → Thread A R Λ → Prop where
  | start {s l p} (hbody : party.body l p) : Step party s (.head l) s (.run l p)
  | act {s s' l a next answer} (hok : party.ok l a s) (hexec : exec a s = some (answer, s')) :
      Step party s (.run l (.act a next)) s' (.run l (next answer))
  | done {s l l'} : Step party s (.run l (.ret l')) s (.head l')

structure Pair (A : Type) (R : A → Type) (σ Λ₁ Λ₂ : Type) where
  shared : σ
  left : Thread A R Λ₁
  right : Thread A R Λ₂

inductive Pair.Step {Λ₁ Λ₂ : Type} (party₁ : Party A R σ Λ₁) (party₂ : Party A R σ Λ₂) :
    Pair A R σ Λ₁ Λ₂ → Pair A R σ Λ₁ Λ₂ → Prop where
  | left {s s' t t' u} (h : Thread.Step exec party₁ s t s' t') :
      Step party₁ party₂ ⟨s, t, u⟩ ⟨s', t', u⟩
  | right {s s' t u u'} (h : Thread.Step exec party₂ s u s' u') :
      Step party₁ party₂ ⟨s, t, u⟩ ⟨s', t, u'⟩

def Reach {Λ₁ Λ₂ : Type} (party₁ : Party A R σ Λ₁) (party₂ : Party A R σ Λ₂) :
    Pair A R σ Λ₁ Λ₂ → Pair A R σ Λ₁ Λ₂ → Prop :=
  Relation.ReflTransGen (Pair.Step exec party₁ party₂)

def Prog.eval {α : Type} : Prog A R α → σ → Option (α × σ)
  | .ret value, s => some (value, s)
  | .halt, _ => none
  | .act a next, s =>
    match exec a s with
    | some (answer, s') => Prog.eval (next answer) s'
    | none => none

-- Every action of the uninterrupted program is permitted where it happens.
def Prog.Permits (ok : A → σ → Prop) {α : Type} : Prog A R α → σ → Prop
  | .ret _, _ => True
  | .halt, _ => True
  | .act a next, s => ok a s ∧
      match exec a s with
      | some (answer, s') => Prog.Permits ok (next answer) s'
      | none => True

variable {exec} {Λ Λ₁ Λ₂ : Type}

theorem Prog.permits_of_forall {ok : A → σ → Prop} {α : Type} (hok : ∀ a s, ok a s)
    (p : Prog A R α) (s : σ) : p.Permits exec ok s := by
  induction p generalizing s with
  | ret value => trivial
  | halt => trivial
  | act a next ih =>
    rw [Prog.Permits]
    refine ⟨hok a s, ?_⟩
    split
    · exact ih _ _
    · trivial

theorem Prog.eval_bind {α β : Type} (p : Prog A R α) (f : α → Prog A R β) (s : σ) :
    (p >>= f).eval exec s = (p.eval exec s).bind fun r => (f r.1).eval exec r.2 := by
  change (p.bind f).eval exec s = _
  induction p generalizing s with
  | ret value => rfl
  | halt => rfl
  | act a next ih =>
    simp only [Prog.bind, Prog.eval]
    cases exec a s with
    | none => rfl
    | some r => exact ih r.1 r.2

theorem Prog.eval_perform (a : A) (s : σ) :
    (Prog.perform a : Prog A R (R a)).eval exec s = exec a s := by
  simp only [Prog.perform, Prog.eval]
  cases exec a s <;> rfl

variable {s s' : σ} {party₁ : Party A R σ Λ₁} {party₂ : Party A R σ Λ₂}

theorem Thread.steps_of_eval {party : Party A R σ Λ} {l l' : Λ} {p : Prog A R Λ}
    (hok : p.Permits exec (party.ok l) s) (heval : p.eval exec s = some (l', s'))
    (r : σ → Thread A R Λ → σ → Thread A R Λ → Prop)
    (hstep : ∀ s t s' t', Thread.Step exec party s t s' t' → r s t s' t')
    (htrans : ∀ s t s' t' s'' t'', r s t s' t' → r s' t' s'' t'' → r s t s'' t'') :
    r s (.run l p) s' (.head l') := by
  induction p generalizing s with
  | ret value =>
    obtain ⟨rfl, rfl⟩ := Prod.mk.inj (Option.some.inj heval)
    exact hstep _ _ _ _ .done
  | halt => cases heval
  | act a next ih =>
    simp only [Prog.Permits] at hok
    simp only [Prog.eval] at heval
    split at heval
    · rename_i answer s₁ hexec
      simp only [hexec] at hok
      exact htrans _ _ _ _ _ _ (hstep _ _ _ _ (.act hok.1 hexec)) (ih answer hok.2 heval)
    · cases heval

theorem reach_left {l l' : Λ₁} {p : Prog A R Λ₁} {u : Thread A R Λ₂} (hbody : party₁.body l p)
    (hok : p.Permits exec (party₁.ok l) s) (heval : p.eval exec s = some (l', s')) :
    Reach exec party₁ party₂ ⟨s, .head l, u⟩ ⟨s', .head l', u⟩ :=
  .head (.left (.start hbody)) (Thread.steps_of_eval hok heval
    (fun s t s' t' => Reach exec party₁ party₂ ⟨s, t, u⟩ ⟨s', t', u⟩)
    (fun _ _ _ _ h => .single (.left h)) (fun _ _ _ _ _ _ h h' => h.trans h'))

theorem reach_right {l l' : Λ₂} {p : Prog A R Λ₂} {t : Thread A R Λ₁} (hbody : party₂.body l p)
    (hok : p.Permits exec (party₂.ok l) s) (heval : p.eval exec s = some (l', s')) :
    Reach exec party₁ party₂ ⟨s, t, .head l⟩ ⟨s', t, .head l'⟩ :=
  .head (.right (.start hbody)) (Thread.steps_of_eval hok heval
    (fun s u s' u' => Reach exec party₁ party₂ ⟨s, t, u⟩ ⟨s', t, u'⟩)
    (fun _ _ _ _ h => .single (.right h)) (fun _ _ _ _ _ _ h h' => h.trans h'))

end Semantics

section RelyGuarantee

variable {A : Type} {R : A → Type} {σ γ Λ : Type}

-- An invariant of the shared state together with what a process assumes of the
-- other one and promises to it. The second component of a state is auxiliary
-- and only the proof sees it.
structure Contract (σ γ : Type) where
  inv : σ × γ → Prop
  rely : σ × γ → σ × γ → Prop
  guar : σ × γ → σ × γ → Prop
  rely_refl : ∀ x, rely x x
  rely_trans : ∀ x y z, rely x y → rely y z → rely x z
  guar_refl : ∀ x, guar x x
  guar_trans : ∀ x y z, guar x y → guar y z → guar x z

def Contract.flip (c : Contract σ γ) : Contract σ γ where
  inv := c.inv
  rely := c.guar
  guar := c.rely
  rely_refl := c.guar_refl
  rely_trans := c.guar_trans
  guar_refl := c.rely_refl
  guar_trans := c.rely_trans

-- The program keeps the contract from this state on, whatever the other
-- process does between two actions. No permitted action may fault.
def Sat (exec : (a : A) → σ → Option (R a × σ)) (c : Contract σ γ) (ok : A → σ → Prop)
    (stop : σ × γ → Prop) {α : Type} (post : α → σ × γ → Prop) : Prog A R α → σ × γ → Prop
  | .ret value, x => post value x
  | .halt, x => stop x
  | .act a next, x => ∀ s g, c.rely x (s, g) → c.inv (s, g) → ok a s →
      ∃ answer s' g', exec a s = some (answer, s') ∧ c.guar (s, g) (s', g') ∧ c.inv (s', g') ∧
        Sat exec c ok stop post (next answer) (s', g')

-- A looping process keeps the contract: its loop assertion survives the other
-- process, and each of its programs takes the assertion back to itself.
structure Keeps (exec : (a : A) → σ → Option (R a × σ)) (c : Contract σ γ)
    (party : Party A R σ Λ) (loop : Λ → σ × γ → Prop) (stop : σ × γ → Prop) : Prop where
  loop_stable : ∀ l x y, loop l x → c.rely x y → c.inv y → loop l y
  stop_stable : ∀ x y, stop x → c.rely x y → c.inv y → stop y
  body : ∀ l p x, loop l x → c.inv x → party.body l p →
    Sat exec c (party.ok l) stop loop p x

def Thread.Sat (exec : (a : A) → σ → Option (R a × σ)) (c : Contract σ γ)
    (party : Party A R σ Λ) (loop : Λ → σ × γ → Prop) (stop : σ × γ → Prop) :
    Thread A R Λ → σ × γ → Prop
  | .head l, x => loop l x
  | .run l p, x => Interleave.Sat exec c (party.ok l) stop loop p x

variable {exec : (a : A) → σ → Option (R a × σ)} {c : Contract σ γ} {ok : A → σ → Prop}
  {stop : σ × γ → Prop}

variable {α : Type} {post : α → σ × γ → Prop} {p : Prog A R α} {x : σ × γ}

theorem Sat.mono {post' : α → σ × γ → Prop} (h : Sat exec c ok stop post p x)
    (hpost : ∀ v y, post v y → post' v y) :
    Sat exec c ok stop post' p x := by
  induction p generalizing x with
  | ret value => exact hpost value x h
  | halt => exact h
  | act a next ih =>
    intro s g hrely hinv hok
    obtain ⟨answer, s', g', hexec, hguar, hinv', hnext⟩ := h s g hrely hinv hok
    exact ⟨answer, s', g', hexec, hguar, hinv', ih answer hnext⟩

theorem Sat.bind {β : Type} {post : β → σ × γ → Prop} {f : α → Prog A R β}
    (h : Sat exec c ok stop (fun v y => Sat exec c ok stop post (f v) y) p x) :
    Sat exec c ok stop post (p >>= f) x := by
  change Sat exec c ok stop post (p.bind f) x
  induction p generalizing x with
  | ret value => exact h
  | halt => exact h
  | act a next ih =>
    intro s g hrely hinv hok
    obtain ⟨answer, s', g', hexec, hguar, hinv', hnext⟩ := h s g hrely hinv hok
    exact ⟨answer, s', g', hexec, hguar, hinv', ih answer hnext⟩

theorem Sat.stable {y : σ × γ} (hpost : ∀ v x y, post v x → c.rely x y → c.inv y → post v y)
    (hstop : ∀ x y, stop x → c.rely x y → c.inv y → stop y) (h : Sat exec c ok stop post p x)
    (hxy : c.rely x y) (hy : c.inv y) :
    Sat exec c ok stop post p y := by
  cases p with
  | ret value => exact hpost value x y h hxy hy
  | halt => exact hstop x y h hxy hy
  | act a next =>
    intro s g hrely hinv hok
    exact h s g (c.rely_trans x y (s, g) hxy hrely) hinv hok

variable {party : Party A R σ Λ} {loop : Λ → σ × γ → Prop}

variable {t : Thread A R Λ} {s : σ} {g : γ}

theorem Thread.Sat.stable (hk : Keeps exec c party loop stop) {x y : σ × γ}
    (h : Thread.Sat exec c party loop stop t x) (hxy : c.rely x y) (hy : c.inv y) :
    Thread.Sat exec c party loop stop t y := by
  cases t with
  | head l => exact hk.loop_stable l x y h hxy hy
  | run l p => exact Interleave.Sat.stable hk.loop_stable hk.stop_stable h hxy hy

theorem Thread.Sat.step (hk : Keeps exec c party loop stop) {t' : Thread A R Λ} {s' : σ}
    (h : Thread.Sat exec c party loop stop t (s, g)) (hinv : c.inv (s, g))
    (hstep : Thread.Step exec party s t s' t') :
    ∃ g', c.guar (s, g) (s', g') ∧ c.inv (s', g') ∧
      Thread.Sat exec c party loop stop t' (s', g') := by
  cases hstep with
  | start hbody => exact ⟨g, c.guar_refl _, hinv, hk.body _ _ _ h hinv hbody⟩
  | done => exact ⟨g, c.guar_refl _, hinv, h⟩
  | act hok hexec =>
    obtain ⟨answer, s₁, g', hexec', hguar, hinv', hnext⟩ :=
      h s g (c.rely_refl _) hinv hok
    obtain ⟨rfl, rfl⟩ := Prod.mk.inj (Option.some.inj (hexec.symm.trans hexec'))
    exact ⟨g', hguar, hinv', hnext⟩

theorem Thread.Sat.not_stuck {l : Λ} {p : Prog A R Λ} (h : Thread.Sat exec c party loop stop t (s, g))
    (hinv : c.inv (s, g)) (ht : t = .run l p) :
    (p = .halt → stop (s, g)) ∧
      ∀ a next, p = .act a next → party.ok l a s → (exec a s).isSome := by
  subst ht
  constructor
  · rintro rfl
    exact h
  · rintro a next rfl hok
    obtain ⟨answer, s', g', hexec, _⟩ := h s g (c.rely_refl _) hinv hok
    simp [hexec]

theorem reach_sat {Λ₁ Λ₂ : Type} {party₁ : Party A R σ Λ₁} {party₂ : Party A R σ Λ₂}
    {loop₁ : Λ₁ → σ × γ → Prop} {loop₂ : Λ₂ → σ × γ → Prop} {stop₁ stop₂ : σ × γ → Prop}
    (h₁ : Keeps exec c party₁ loop₁ stop₁) (h₂ : Keeps exec c.flip party₂ loop₂ stop₂) {l₁ : Λ₁}
    {l₂ : Λ₂} (g : γ) (hinv : c.inv (s, g)) (hl₁ : loop₁ l₁ (s, g)) (hl₂ : loop₂ l₂ (s, g))
    {st : Pair A R σ Λ₁ Λ₂} (hreach : Reach exec party₁ party₂ ⟨s, .head l₁, .head l₂⟩ st) :
    ∃ g', c.inv (st.shared, g') ∧
      Thread.Sat exec c party₁ loop₁ stop₁ st.left (st.shared, g') ∧
      Thread.Sat exec c.flip party₂ loop₂ stop₂ st.right (st.shared, g') := by
  induction hreach with
  | refl => exact ⟨g, hinv, hl₁, hl₂⟩
  | tail _ hstep ih =>
    obtain ⟨g, hinv, hleft, hright⟩ := ih
    cases hstep with
    | left h =>
      obtain ⟨g', hguar, hinv', hleft'⟩ := hleft.step h₁ hinv h
      exact ⟨g', hinv', hleft', hright.stable h₂ hguar hinv'⟩
    | right h =>
      obtain ⟨g', hguar, hinv', hright'⟩ := hright.step h₂ hinv h
      exact ⟨g', hinv', hleft.stable h₁ hguar hinv', hright'⟩

end RelyGuarantee

section Alone

variable {A : Type} {R : A → Type} {σ α β : Type}

-- A program that runs alone, in a state that answers every action. A program that
-- halts has no value, but the state in which it halted.
def Prog.play (perform : (a : A) → σ → R a × σ) : Prog A R α → σ → Option α × σ
  | .ret value, s => (some value, s)
  | .halt, s => (none, s)
  | .act a next, s => (next (perform a s).1).play perform (perform a s).2

variable {perform : (a : A) → σ → R a × σ}

theorem Prog.play_bind (p : Prog A R α) (f : α → Prog A R β) (s : σ) :
    (p >>= f).play perform s =
      match p.play perform s with
      | (none, s') => (none, s')
      | (some value, s') => (f value).play perform s' := by
  induction p generalizing s with
  | ret value => rfl
  | halt => rfl
  | act a next ih => exact ih _ _

end Alone

end Xv6Ringbuf.Interleave
