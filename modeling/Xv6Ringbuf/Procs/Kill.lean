import Xv6Ringbuf.Procs.Sequential

namespace Xv6Ringbuf.Procs

open Interleave Protocol Function

-- A free entry has no process id and no mark.
def Clean (s : Seq) : Prop :=
  ∀ p, (s.procs p).state = .UNUSED → (s.procs p).pid = 0 ∧ (s.procs p).killed = false

-- Nobody has been marked on the way from `s` to `s'`.
def Unmarked (s s' : Seq) : Prop :=
  ∀ p, (s'.procs p).killed = true → (s.procs p).killed = true

def QuietContexts (s : Seq) : Prop := ∀ p code, s.context p = some code → Quiet code

variable {s₁ s₂ s s' : Seq} {α : Type} {Q : Seq → Prop} {w : Store} {pid : Int32} {p : Slot}
  {code : Code Int32} {e : Step}

theorem Unmarked.trans {s₃ : Seq} (h : Unmarked s₁ s₂) (h' : Unmarked s₂ s₃) : Unmarked s₁ s₃ :=
  fun p hp => h p (h' p hp)

-- What the code of a call leaves behind, whether it returns or sleeps.
def Outcome.Ends {α : Type} (Q : Seq → Prop) : Outcome α → Prop
  | .returned _ s => Q s
  | .blocked code s => Quiet code ∧ Q s
  | .stopped => True

theorem Outcome.Ends.mono {Q' : Seq → Prop} {o : Outcome α} (h : o.Ends Q) (hQ : ∀ s, Q s → Q' s) :
    o.Ends Q' := by
  cases o with
  | returned result s => exact hQ s h
  | blocked code s => exact ⟨h.1, hQ s h.2⟩
  | stopped => trivial

theorem Clean.write (h : Clean s) (p : Slot) (hw : w ≠ .killed) :
    Clean (s.write p w) := by
  intro q hq
  by_cases hqp : q = p
  · subst hqp
    simp only [Seq.write, update_self] at hq ⊢
    cases w with
    | free => exact ⟨rfl, rfl⟩
    | parent r => exact h q hq
    | awake => exact h q hq
    | killed => exact absurd rfl hw
    | embryo pid | runnable | sleep chan | zombie status => cases hq
  · simp only [Seq.write, update_of_ne hqp] at hq ⊢
    exact h q hq

theorem unmarked_write (s : Seq) (p : Slot) (hw : w ≠ .killed) :
    Unmarked s (s.write p w) := by
  intro q hq
  by_cases hqp : q = p
  · subst hqp
    simp only [Seq.write, update_self] at hq
    cases w with
    | free => cases hq
    | killed => exact absurd rfl hw
    | parent r | awake | embryo pid | runnable | sleep chan | zombie status => exact hq
  · simp only [Seq.write, update_of_ne hqp] at hq
    exact hq

structure Calm (s s' : Seq) : Prop where
  clean : Clean s'
  contexts : QuietContexts s'
  unmarked : Unmarked s s'

theorem Calm.refl (h : Clean s) (hcontexts : QuietContexts s) : Calm s s :=
  ⟨h, hcontexts, fun _ h => h⟩

theorem handle_calm {a : Act} {answer : a.Answer} (h : Clean s) (hcontexts : QuietContexts s)
    (hquiet : ∀ p, a ≠ .store p .killed) (hhandle : s.handle a = some (answer, s')) : Calm s s' := by
  cases a with
  | store p w =>
    have hw : w ≠ .killed := by
      rintro rfl
      exact hquiet p rfl
    cases hhandle
    exact ⟨h.write p hw, hcontexts, unmarked_write s p hw⟩
  | forkret p =>
    cases hhandle
    refine ⟨h, ?_, fun _ h => h⟩
    intro q code hq
    by_cases hqp : q = p
    · subst hqp
      simp only [update_self] at hq
      cases hq
    · simp only [update_of_ne hqp] at hq
      exact hcontexts q code hq
  | panic => cases hhandle
  | acquire l | release l | load p | nextpid | setNextpid pid | sched | ask request | note event =>
    cases hhandle
    exact ⟨h, hcontexts, fun _ h => h⟩

theorem exec_calm {code : Code α} (hcode : Quiet code) (h : Clean s) (hcontexts : QuietContexts s) :
    (Seq.exec code s).Ends (Calm s) := by
  induction code generalizing s with
  | ret result => exact Calm.refl h hcontexts
  | halt => trivial
  | act a next ih =>
    by_cases hsched : a = .sched
    · subst hsched
      exact ⟨hcode.2 (), Calm.refl h hcontexts⟩
    · rw [Seq.exec_act next s hsched]
      cases hhandle : s.handle a with
      | none => trivial
      | some result =>
        obtain ⟨answer, s'⟩ := result
        have hcalm := handle_calm h hcontexts hcode.1 hhandle
        refine (ih answer (hcode.2 answer) hcalm.clean hcalm.contexts).mono ?_
        intro s'' hcalm'
        exact ⟨hcalm'.clean, hcalm'.contexts, hcalm.unmarked.trans hcalm'.unmarked⟩

def Proc.mark (proc : Proc) : Proc :=
  { proc with killed := true, state := if proc.state = .SLEEPING then .RUNNABLE else proc.state }

def Seq.mark (s : Seq) (p : Slot) : Seq :=
  { s with procs := Function.update s.procs p (s.procs p).mark }

def Seq.target (s : Seq) (pid : Int32) : Option Slot :=
  (List.finRange NPROC).find? fun p => (s.procs p).pid = pid

theorem exec_killFrom (pid : Int32) (ps : List Slot) (s : Seq) :
    Seq.exec (killFrom pid ps) s =
      match ps.find? fun p => (s.procs p).pid = pid with
      | none => .returned (-1) s
      | some p => .returned 0 (s.mark p) := by
  induction ps with
  | nil => rfl
  | cons p ps ih =>
    have hloaded : Seq.exec (killFrom pid (p :: ps)) s =
        Seq.exec (if (s.procs p).pid = pid then do
            store p .killed
            wakeIf p ((s.procs p).state = .SLEEPING)
            release (.proc p)
            return 0
          else do
            release (.proc p)
            killFrom pid ps) s := rfl
    rw [hloaded, List.find?_cons]
    by_cases hpid : (s.procs p).pid = pid
    · simp only [hpid, if_true, decide_true]
      by_cases hsleeping : (s.procs p).state = .SLEEPING
      · have hwoken : Seq.exec (do
            store p .killed
            wakeIf p true
            release (.proc p)
            return (0 : Int32)) s = .returned 0 ((s.write p .killed).write p .runnable) := rfl
        simp only [hsleeping, decide_true]
        rw [hwoken]
        simp only [Seq.mark, Proc.mark, Seq.write, Store.apply, update_self, update_idem,
          hsleeping, if_true]
      · have hmarked : Seq.exec (do
            store p .killed
            wakeIf p false
            release (.proc p)
            return (0 : Int32)) s = .returned 0 (s.write p .killed) := rfl
        simp only [hsleeping, decide_false]
        rw [hmarked]
        simp only [Seq.mark, Proc.mark, Seq.write, Store.apply, hsleeping, if_false]
    · simp only [hpid, if_false, decide_false]
      exact ih

theorem exec_kill (pid : Int32) (s : Seq) :
    Seq.exec (kill pid) s =
      match s.target pid with
      | none => .returned (-1) s
      | some p => .returned 0 (s.mark p) :=
  exec_killFrom pid _ s

theorem target_eq_none (h : s.target pid = none) (p : Slot) :
    (s.procs p).pid ≠ pid := by
  simpa using List.find?_eq_none.mp h p (List.mem_finRange p)

theorem target_eq_some (h : s.target pid = some p) :
    (s.procs p).pid = pid := by
  simpa using List.find?_some h

def Seq.Aimed (s : Seq) (pid : Int32) : Prop := pid ≠ 0 ∨ ∀ p, (s.procs p).state ≠ .UNUSED

def Step.victim : Step → Option Int32
  | .trap _ (.syscall (.kill pid)) _ => some pid
  | _ => none

def Seq.AimedStep (s : Seq) (e : Step) : Prop := ∀ pid ∈ e.victim, s.Aimed pid

instance (s : Seq) (pid : Int32) : Decidable (s.Aimed pid) := inferInstanceAs (Decidable (_ ∨ _))

instance (s : Seq) (e : Step) : Decidable (s.AimedStep e) :=
  match h : e.victim with
  | none => isTrue (by simp [Seq.AimedStep, h])
  | some pid => decidable_of_iff (s.Aimed pid) (by simp [Seq.AimedStep, h])

theorem target_live (h : Clean s) (haimed : s.Aimed pid) (htarget : s.target pid = some p) :
    (s.procs p).state ≠ .UNUSED := by
  cases haimed with
  | inl hpid =>
    intro hunused
    exact hpid ((target_eq_some htarget).symm.trans (h p hunused).1)
  | inr hlive => exact hlive p

theorem mark_procs_of_ne (s : Seq) {q : Slot} (h : q ≠ p) : (s.mark p).procs q = s.procs q :=
  update_of_ne h _ _

theorem mark_procs_self (s : Seq) (p : Slot) : (s.mark p).procs p = (s.procs p).mark :=
  update_self _ _ _

theorem Proc.mark_state {proc : Proc} (h : proc.state ≠ .UNUSED) : proc.mark.state ≠ .UNUSED := by
  unfold Proc.mark
  by_cases hsleeping : proc.state = .SLEEPING
  · simp [hsleeping]
  · simpa [hsleeping] using h

theorem Clean.mark (h : Clean s) (hp : (s.procs p).state ≠ .UNUSED) :
    Clean (s.mark p) := by
  intro q hq
  by_cases hqp : q = p
  · subst hqp
    rw [mark_procs_self] at hq
    exact absurd hq (Proc.mark_state hp)
  · rw [mark_procs_of_ne s hqp] at hq ⊢
    exact h q hq

-- What a step may do to the marks: a process that is new has none, and another
-- one gets it from a fault or from a `kill` with its process id.
structure Fair (s : Seq) (e : Step) (s' : Seq) : Prop where
  clean : Clean s'
  contexts : QuietContexts s'
  fresh : ∀ p, (s.procs p).state = .UNUSED → (s'.procs p).killed = false
  blame : ∀ p, (s.procs p).killed = false → (s'.procs p).killed = true →
    (∃ answers, e = .trap p .fault answers) ∨
      ∃ q answers, e = .trap q (.syscall (.kill (s.procs p).pid)) answers

theorem Calm.fair (h : Calm s s') (hclean : Clean s) (e : Step) : Fair s e s' := by
  refine ⟨h.clean, h.contexts, ?_, ?_⟩
  · intro p hp
    by_contra hmarked
    have hbefore := h.unmarked p (by simpa using hmarked)
    rw [(hclean p hp).2] at hbefore
    cases hbefore
  · intro p hfalse htrue
    rw [h.unmarked p htrue] at hfalse
    cases hfalse

theorem settle_of_ends {o : Outcome Int32} (h : o.Ends Q) (hsettle : Seq.settle p o = some s')
    (hcontext : ∀ s code, Q s → Quiet code → Q { s with context := update s.context p (some code) }) :
    Q s' := by
  cases o with
  | returned result s =>
    obtain rfl := Option.some.inj hsettle
    exact h
  | blocked code s =>
    obtain rfl := Option.some.inj hsettle
    exact hcontext s code h.2 h.1
  | stopped => cases hsettle

theorem QuietContexts.block (h : QuietContexts s) (p : Slot) (hcode : Quiet code) :
    QuietContexts { s with context := update s.context p (some code) } := by
  intro q code' hq
  by_cases hqp : q = p
  · subst hqp
    simp only [update_self] at hq
    rwa [← Option.some.inj hq]
  · simp only [update_of_ne hqp] at hq
    exact h q code' hq

theorem Fair.block (h : Fair s e s') (p : Slot) (hcode : Quiet code) :
    Fair s e { s' with context := update s'.context p (some code) } :=
  ⟨h.clean, h.contexts.block p hcode, h.fresh, h.blame⟩

theorem Fair.calm (h : Fair s e s₁) (hcalm : Calm s₁ s₂) : Fair s e s₂ := by
  refine ⟨hcalm.clean, hcalm.contexts, ?_, ?_⟩
  · intro p hp
    by_contra hmarked
    have hbefore := hcalm.unmarked p (by simpa using hmarked)
    rw [h.fresh p hp] at hbefore
    cases hbefore
  · intro p hfalse htrue
    exact h.blame p hfalse (hcalm.unmarked p htrue)

theorem exec_exitIfKilled_fair (h : Fair s e s₁) (me : Slot) (result : Int32) :
    (Seq.exec (exitIfKilled me result) s₁).Ends (Fair s e) :=
  (exec_calm (exitIfKilled_quiet me result) h.clean h.contexts).mono fun _ hcalm => h.calm hcalm

theorem Fair.refl (hclean : Clean s) (hcontexts : QuietContexts s) (e : Step) : Fair s e s :=
  (Calm.refl hclean hcontexts).fair hclean e

theorem mark_fair (hclean : Clean s) (hcontexts : QuietContexts s)
    (hlive : (s.procs p).state ≠ .UNUSED) (he : (∃ answers, e = .trap p .fault answers) ∨
      ∃ q answers, e = .trap q (.syscall (.kill (s.procs p).pid)) answers) : Fair s e (s.mark p) := by
  refine ⟨hclean.mark hlive, hcontexts, ?_, ?_⟩
  · intro q hq
    have hqp : q ≠ p := by
      rintro rfl
      exact hlive hq
    rw [mark_procs_of_ne s hqp]
    exact (hclean q hq).2
  · intro q hfalse htrue
    by_cases hqp : q = p
    · rwa [hqp]
    · rw [mark_procs_of_ne s hqp, hfalse] at htrue
      cases htrue

theorem exec_trap_fair (hclean : Clean s) (hcontexts : QuietContexts s)
    (hrunning : (s.procs p).state = .RUNNING) (trap : Trap) (answers : List Bool)
    (haimed : s.AimedStep (.trap p trap answers)) :
    (Seq.exec (usertrap p trap) s).Ends (Fair s (.trap p trap answers)) := by
  by_cases hfault : trap = .fault
  · subst hfault
    have hmark : s.write p .killed = s.mark p := by
      simp [Seq.write, Seq.mark, Proc.mark, Store.apply, hrunning]
    change (Seq.exec (exitIfKilled p 0) (s.write p .killed)).Ends _
    rw [hmark]
    exact exec_exitIfKilled_fair (mark_fair hclean hcontexts (by simp [hrunning]) (.inl ⟨_, rfl⟩)) p 0
  · by_cases hkill : ∃ pid, trap = .syscall (.kill pid)
    · obtain ⟨pid, rfl⟩ := hkill
      change (Seq.exec (if (s.procs p).killed = true then exit p (-1) else do
        let result ← kill pid
        exitIfKilled p result) s).Ends _
      have hrefl := Fair.refl hclean hcontexts (.trap p (.syscall (.kill pid)) answers)
      by_cases hkilled : (s.procs p).killed = true
      · rw [if_pos hkilled]
        refine (exec_calm (exit_quiet p _) hclean hcontexts).mono ?_
        exact fun _ hcalm => hrefl.calm hcalm
      · rw [if_neg hkilled, Seq.exec_bind, exec_kill]
        cases htarget : s.target pid with
        | none => exact exec_exitIfKilled_fair hrefl p _
        | some q =>
          have hlive := target_live hclean (haimed pid rfl) htarget
          refine exec_exitIfKilled_fair (mark_fair hclean hcontexts hlive (.inr ⟨p, answers, ?_⟩)) p _
          rw [target_eq_some htarget]
    · have hquiet := usertrap_quiet p (fun pid h => hkill ⟨pid, h⟩) hfault
      exact (exec_calm hquiet hclean hcontexts).mono fun _ hcalm => hcalm.fair hclean _

theorem resume_calm (hclean : Clean s) (hcontexts : QuietContexts s) (p : Slot) (answers : List Bool) :
    Calm s (s.resume p answers) := by
  refine ⟨?_, ?_, ?_⟩
  · intro q hq
    by_cases hqp : q = p
    · subst hqp
      simp only [Seq.resume, update_self] at hq
      cases hq
    · simp only [Seq.resume, update_of_ne hqp] at hq ⊢
      exact hclean q hq
  · intro q code hq
    by_cases hqp : q = p
    · subst hqp
      simp only [Seq.resume, update_self] at hq
      cases hq
    · simp only [Seq.resume, update_of_ne hqp] at hq
      exact hcontexts q code hq
  · intro q hq
    by_cases hqp : q = p
    · subst hqp
      simp only [Seq.resume, update_self] at hq
      exact hq
    · simp only [Seq.resume, update_of_ne hqp] at hq
      exact hq

theorem step_fair (hclean : Clean s) (hcontexts : QuietContexts s) (haimed : s.AimedStep e)
    (hstep : s.step e = some s') : Fair s e s' := by
  cases e with
  | trap p trap answers =>
    rw [Seq.step] at hstep
    split at hstep
    · rename_i hrunning
      have hends : (Seq.exec (usertrap p trap) { s with answers := answers }).Ends
          (Fair { s with answers := answers } (.trap p trap answers)) :=
        exec_trap_fair (s := { s with answers := answers }) hclean hcontexts hrunning.1 trap answers haimed
      have hfair := settle_of_ends hends hstep fun _ _ h hcode => h.block p hcode
      exact ⟨hfair.clean, hfair.contexts, hfair.fresh, hfair.blame⟩
    · cases hstep
  | dispatch p answers =>
    have hresume := resume_calm hclean hcontexts p answers
    rw [Seq.step] at hstep
    split at hstep
    · cases hcontext : s.context p with
      | none =>
        rw [hcontext] at hstep
        obtain rfl := Option.some.inj hstep
        exact hresume.fair hclean _
      | some code =>
        rw [hcontext] at hstep
        have hends := exec_calm (hcontexts p code hcontext) hresume.clean hresume.contexts
        have hfair := hends.mono fun _ hcalm => (hresume.fair hclean (.dispatch p answers)).calm hcalm
        exact settle_of_ends hfair hstep fun _ _ h hcode => h.block p hcode
    · cases hstep

-- A run in which no `kill` is aimed at a free entry.
def Seq.aimedStep (s : Seq) (e : Step) : Option Seq :=
  if s.AimedStep e then s.step e else none

theorem boot_clean : Clean Seq.boot := by
  intro p hp
  by_cases hinit : p = initproc
  · simp only [Seq.boot, if_pos hinit] at hp
    cases hp
  · simp [Seq.boot, hinit]

theorem aimedRun_clean {events : List Step} (hrun : Trace.run Seq.aimedStep Seq.boot events = some s) :
    Clean s ∧ QuietContexts s := by
  refine Trace.run_invariant (I := fun s => Clean s ∧ QuietContexts s) ?_ ⟨boot_clean, ?_⟩ hrun
  · rintro s e s' ⟨hclean, hcontexts⟩ hstep
    rw [Seq.aimedStep] at hstep
    split at hstep
    · rename_i haimed
      have hfair := step_fair hclean hcontexts haimed hstep
      exact ⟨hfair.clean, hfair.contexts⟩
    · cases hstep
  · intro p code hcode
    cases hcode

-- As long as no `kill` is aimed at a free entry, `kill` marks the process that it
-- names and no other one, and a process is marked by nothing but a `kill` with
-- its process id or a fault of its own.
theorem kill_hits_only_its_target {events : List Step} {s : Seq}
    (hrun : Trace.run Seq.aimedStep Seq.boot events = some s) :
    (∀ pid, s.Aimed pid → ∃ r s', Seq.exec (kill pid) s = .returned r s' ∧
      (r = 0 ↔ ∃ p, (s.procs p).state ≠ .UNUSED ∧ (s.procs p).pid = pid) ∧
      (r = 0 → ∃ p, (s.procs p).state ≠ .UNUSED ∧ (s.procs p).pid = pid ∧
        (s'.procs p).killed = true ∧ ∀ q, q ≠ p → s'.procs q = s.procs q) ∧
      (r ≠ 0 → r = -1 ∧ s' = s)) ∧
    ∀ e s', s.AimedStep e → s.step e = some s' →
      (∀ p, (s.procs p).state = .UNUSED → (s'.procs p).killed = false) ∧
      ∀ p, (s.procs p).killed = false → (s'.procs p).killed = true →
        (∃ answers, e = .trap p .fault answers) ∨
          ∃ q answers, e = .trap q (.syscall (.kill (s.procs p).pid)) answers := by
  obtain ⟨hclean, hcontexts⟩ := aimedRun_clean hrun
  refine ⟨?_, ?_⟩
  · intro pid haimed
    rw [exec_kill]
    cases htarget : s.target pid with
    | none =>
      refine ⟨-1, s, rfl, ?_, by simp, fun _ => ⟨rfl, rfl⟩⟩
      simpa using fun p _ => target_eq_none htarget p
    | some p =>
      have hlive := target_live hclean haimed htarget
      have hpid := target_eq_some htarget
      refine ⟨0, s.mark p, rfl, ⟨fun _ => ⟨p, hlive, hpid⟩, fun _ => rfl⟩, fun _ => ?_, by simp⟩
      refine ⟨p, hlive, hpid, ?_, fun q hq => mark_procs_of_ne s hq⟩
      rw [mark_procs_self]
      rfl
  · intro e s' haimed hstep
    have hfair := step_fair hclean hcontexts haimed hstep
    exact ⟨hfair.fresh, hfair.blame⟩

theorem kill_hits_only_its_target_fork :
    ∃ s, Trace.run Seq.aimedStep Seq.boot
        [.dispatch 0 [], .trap 0 (.syscall .fork) [true, true, true]] = some s ∧
      ∃ s', Seq.exec (kill 2) s = .returned 0 s' := by
  have hfork : (Trace.run Seq.aimedStep Seq.boot
      [.dispatch 0 [], .trap 0 (.syscall .fork) [true, true, true]]).map
        (fun s => ((s.procs 1).state, (s.procs 1).pid)) = some (.RUNNABLE, 2) := by decide +kernel
  obtain ⟨s, hrun, hchild⟩ := Option.map_eq_some_iff.mp hfork
  obtain ⟨hstate, hpid⟩ := Prod.mk.inj hchild
  obtain ⟨r, s', hexec, hfound, _⟩ := (kill_hits_only_its_target hrun).1 2 (.inl (by decide))
  obtain rfl : r = 0 := hfound.mpr ⟨1, by simp [hstate], hpid⟩
  exact ⟨s, hrun, s', hexec⟩

-- No process has the id 0, but `kill` finds a free entry with it. The mark stays,
-- and the next process that gets the entry starts with it.
theorem kill_zero_marks_next_child :
    (Trace.run Seq.step Seq.boot [.dispatch 0 []]).map (fun s =>
      ((List.finRange NPROC).all fun p => (s.procs p).state = .UNUSED ∨ (s.procs p).pid ≠ 0,
        match Seq.exec (kill 0) s with
        | .returned r s' => some (r, (s'.procs 1).killed)
        | _ => none)) = some (true, some (0, true)) ∧
    (Trace.run Seq.step Seq.boot [.dispatch 0 [], .trap 0 (.syscall (.kill 0)) [],
      .trap 0 (.syscall .fork) [true, true, true]]).map
        (fun s => ((s.procs 1).state, (s.procs 1).pid, (s.procs 1).killed)) = some (.RUNNABLE, 2, true) := by
  decide +kernel

end Xv6Ringbuf.Procs
