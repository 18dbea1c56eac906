import Mathlib

namespace Xv6Ringbuf.Trace

variable {σ ε : Type} {step : σ → ε → Option σ}

-- A run of a machine over a list of events. An event that is not enabled has no
-- next state.
def run (step : σ → ε → Option σ) : σ → List ε → Option σ
  | s, [] => some s
  | s, e :: events => (step s e).bind fun s' => run step s' events

variable {s s' : σ} {events : List ε} {I : σ → Prop}

theorem run_cons_eq_some {e : ε} :
    run step s (e :: events) = some s' ↔ ∃ t, step s e = some t ∧ run step t events = some s' := by
  rw [run, Option.bind_eq_some_iff]

theorem run_append_eq_some {events' : List ε} :
    run step s (events ++ events') = some s' ↔
      ∃ t, run step s events = some t ∧ run step t events' = some s' := by
  induction events generalizing s with
  | nil => simp [run]
  | cons e events ih =>
    rw [List.cons_append, run_cons_eq_some]
    constructor
    · rintro ⟨u, he, hu⟩
      obtain ⟨t, ht, ht'⟩ := ih.mp hu
      exact ⟨t, run_cons_eq_some.mpr ⟨u, he, ht⟩, ht'⟩
    · rintro ⟨t, ht, ht'⟩
      obtain ⟨u, he, hu⟩ := run_cons_eq_some.mp ht
      exact ⟨u, he, ih.mpr ⟨t, hu, ht'⟩⟩

theorem run_keeps {C : ε → Prop} (hstep : ∀ s e s', I s → C e → step s e = some s' → I s') (hs : I s)
    (hevents : ∀ e ∈ events, C e) (hrun : run step s events = some s') : I s' := by
  induction events generalizing s with
  | nil =>
    rw [← Option.some.inj hrun]
    exact hs
  | cons e events ih =>
    obtain ⟨t, he, ht⟩ := run_cons_eq_some.mp hrun
    have hkept : I t := hstep s e t hs (hevents e List.mem_cons_self) he
    exact ih hkept (fun e' he' => hevents e' (List.mem_cons_of_mem e he')) ht

theorem run_invariant (hstep : ∀ s e s', I s → step s e = some s' → I s') (hs : I s)
    (hrun : run step s events = some s') : I s' :=
  run_keeps (C := fun _ => True) (fun s e s' h _ => hstep s e s' h) hs (fun _ _ => trivial) hrun

section Failing

variable {φ : Type} {step : σ → ε → Except φ σ} {C : σ → ε → Prop}

def tryRun (step : σ → ε → Except φ σ) : σ → List ε → Except φ σ
  | s, [] => .ok s
  | s, e :: events => (step s e).bind fun s' => tryRun step s' events

def failure : Except φ σ → Option φ
  | .ok _ => none
  | .error f => some f

theorem failure_eq_some {result : Except φ σ} {f : φ} (h : failure result = some f) :
    result = .error f := by
  cases result with
  | ok s => cases h
  | error f' => rw [Option.some.inj h]

-- Every event of the run happens in a state where it satisfies `C`.
def Meets (step : σ → ε → Except φ σ) (C : σ → ε → Prop) : σ → List ε → Prop
  | _, [] => True
  | s, e :: events => C s e ∧ ∀ s', step s e = .ok s' → Meets step C s' events

instance decidableMeets [∀ s e, Decidable (C s e)] :
    (s : σ) → (events : List ε) → Decidable (Meets step C s events)
  | _, [] => inferInstanceAs (Decidable True)
  | s, e :: events =>
    match h : step s e with
    | .ok t =>
      have := decidableMeets t events
      decidable_of_iff (C s e ∧ Meets step C t events) (by simp [Meets, h])
    | .error _ => decidable_of_iff (C s e) (by simp [Meets, h])

theorem tryRun_keeps {I : σ → Prop} {E : φ → Prop}
    (hok : ∀ s e s', I s → C s e → step s e = .ok s' → I s')
    (herror : ∀ s e f, I s → C s e → step s e = .error f → E f) {s : σ} {events : List ε}
    (hs : I s) (hmeets : Meets step C s events) :
    (∀ s', tryRun step s events = .ok s' → I s') ∧
      ∀ f, tryRun step s events = .error f → E f := by
  induction events generalizing s with
  | nil =>
    constructor
    · intro s' h
      obtain rfl := Except.ok.inj h
      exact hs
    · intro f h
      cases h
  | cons e events ih =>
    obtain ⟨hC, hnext⟩ := hmeets
    cases he : step s e with
    | ok t =>
      have hrun : tryRun step s (e :: events) = tryRun step t events := by
        simp only [tryRun, he, Except.bind]
      rw [hrun]
      exact ih (hok s e t hs hC he) (hnext t he)
    | error f =>
      have hrun : tryRun step s (e :: events) = .error f := by
        simp only [tryRun, he, Except.bind]
      rw [hrun]
      constructor
      · intro s' h
        cases h
      · intro f' h
        obtain rfl := Except.error.inj h
        exact herror s e _ hs hC he

end Failing

end Xv6Ringbuf.Trace
