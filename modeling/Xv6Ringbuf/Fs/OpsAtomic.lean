import Xv6Ringbuf.Fs.OpsSound

namespace Xv6Ringbuf.Fs.Ops

open Trace

variable {P : Type} [DecidableEq P]

variable {s s' : Ops P} {events : List (Event P)} {ops : List P} {p q : P} {e : Event P}
  {tail : Nat} {writes before : List (P × Write)} {B : Blockno → Prop}

theorem sound_of_run {s₀ : Ops P} {ops₀ : List P} (h : Sound s₀ ops₀)
    (hrun : run step s₀ events = some s) : ∃ ops, Sound s ops :=
  run_invariant (I := fun s => ∃ ops, Sound s ops) (fun _ _ _ ⟨_, h⟩ hstep => h.step hstep)
    ⟨ops₀, h⟩ hrun

theorem Sound.bracket_step (h : Sound s ops) (hp : s.pc p = .inside) (he : e ≠ .endOp p)
    (hstep : s.step e = some s') :
    s'.pc p = .inside ∧ s'.written = s.written ∧
      (∀ c, s.log.lh.Listed c → s'.log.lh.Listed c) ∧
      ∀ b, e = .logWrite p b → s'.panic = none → s'.log.lh.Listed b := by
  have hidle := h.idle_of_inside hp
  obtain ⟨hpanic, hstepped⟩ := stepped_of_step hstep
  have hother : ∀ q pc, s.pc q ≠ .inside → (s.set q pc).pc p = .inside := by
    intro q pc hq
    have hpq : p ≠ q := fun heq => hq (heq ▸ hp)
    rw [set_pc_of_ne s hpq, hp]
  cases hstepped with
  | @slept q hpc =>
    refine ⟨hother q _ (by rcases hpc with hpc | hpc <;> simp [hpc]), rfl, fun _ h => h, ?_⟩
    intro b hb
    cases hb
  | @began q hpc hidle hroom =>
    refine ⟨hother q _ (by rcases hpc with hpc | hpc <;> simp [hpc]), rfl, fun _ h => h, ?_⟩
    intro b hb
    cases hb
  | refused hpc henter =>
    refine ⟨hp, rfl, fun _ h => h, ?_⟩
    intro b _ hnone
    cases hnone
  | logged hpc henter =>
    have hentered := Log.enter_ok h.count henter
    refine ⟨hp, rfl, hentered.kept, ?_⟩
    intro b hb _
    cases hb
    exact hentered.listed
  | torn hpc hcommit =>
    rw [hidle] at hcommit
    cases hcommit
  | @last q hpc hidle hzero =>
    exfalso
    obtain ⟨hout, hlen⟩ := h.length_erase hpc
    rw [hzero, show (0 : Int32).toInt = 0 from rfl] at hout
    have hnone : ops.erase q = [] := List.length_eq_zero_iff.mp (by omega)
    have hmem := (h.mem_erase q p).mpr ⟨fun heq => he (by rw [heq]), hp⟩
    rw [hnone] at hmem
    cases hmem
  | @ended q hpc hidle hmore =>
    refine ⟨?_, rfl, fun _ h => h, ?_⟩
    · have hpq : p ≠ q := fun heq => he (by rw [heq])
      rw [wakeup_inside, set_pc_of_ne _ hpq]
      exact hp
    · intro b hb
      cases hb
  | committed hpc hcommit =>
    rw [h.busy _ _ hpc] at hidle
    cases hidle
  | finished hpc =>
    rw [h.busy _ _ hpc] at hidle
    cases hidle

theorem bracket_run (h : Sound s ops) (hp : s.pc p = .inside) (hevents : ∀ e ∈ events, e ≠ .endOp p)
    (hrun : run step s events = some s') (hpanic : s'.panic = none) :
    s'.pc p = .inside ∧ s'.written = s.written ∧
      (∀ c, s.log.lh.Listed c → s'.log.lh.Listed c) ∧
      ∀ b, .logWrite p b ∈ events → s'.log.lh.Listed b := by
  induction events generalizing s ops with
  | nil =>
    rw [← Option.some.inj hrun]
    exact ⟨hp, rfl, fun _ h => h, fun b hb => by cases hb⟩
  | cons e events ih =>
    obtain ⟨t, hstep, ht⟩ := run_cons_eq_some.mp hrun
    obtain ⟨hpt, hwritten, hkept, hlisted⟩ :=
      h.bracket_step hp (hevents e List.mem_cons_self) hstep
    obtain ⟨opst, hsound⟩ := h.step hstep
    obtain ⟨hp', hwritten', hkept', hlisted'⟩ :=
      ih hsound hpt (fun e' he' => hevents e' (List.mem_cons_of_mem e he')) ht
    refine ⟨hp', hwritten'.trans hwritten, fun c hc => hkept' c (hkept c hc), ?_⟩
    intro b hb
    rcases List.mem_cons.mp hb with heq | hb
    · have hnone : t.panic = none := by
        cases events with
        | nil =>
          rw [Option.some.inj ht]
          exact hpanic
        | cons e' events =>
          obtain ⟨u, hstep', -⟩ := run_cons_eq_some.mp ht
          exact (stepped_of_step hstep').1
      exact hkept' b (hlisted b heq.symm hnone)
    · exact hlisted' b hb

-- How far the commit of process `q` has come with the blocks `B`: what it has
-- written so far is `writes`.
def Progress (lh : Logheader) (B : Blockno → Prop) (q : P) (writes : List (P × Write)) :
    Stage → Prop
  | .begun => ∀ b, B b → lh.Listed b
  | .writeLog tail => (∀ b, B b → lh.Listed b) ∧
      ∀ i : Fin LOGSIZE, (i : Nat) < tail → (q, .logged (lh.block i)) ∈ writes
  | .writeHead => ∀ b, B b → lh.Listed b ∧ (q, .logged b) ∈ writes
  | .installTrans tail => (∀ b, B b → lh.Listed b ∧ (q, .logged b) ∈ writes) ∧
      ∀ i : Fin LOGSIZE, (i : Nat) < tail → (q, .home (lh.block i)) ∈ writes
  | _ => ∀ b, B b → (q, .logged b) ∈ writes ∧ (q, .home b) ∈ writes

theorem lt_of_listed {n : Int} {i : Nat} (hi : (i : Int) < n) (hdone : ¬(tail : Int) < n) :
    i < tail := by
  omega

omit [DecidableEq P] in
theorem mem_append_entry {w : Blockno → Write} {lh : Logheader} (htail : tail < LOGSIZE)
    (hwrites : ∀ i : Fin LOGSIZE, (i : Nat) < tail → (q, w (lh.block i)) ∈ writes) (i : Fin LOGSIZE)
    (hi : (i : Nat) < tail + 1) :
    (q, w (lh.block i)) ∈ writes ++ [(q, w (lh.block ⟨tail, htail⟩))] := by
  by_cases heq : (i : Nat) = tail
  · rw [show i = ⟨tail, htail⟩ from Fin.ext heq]
    exact List.mem_append_right _ List.mem_cons_self
  · exact List.mem_append_left _ (hwrites i (by omega))

-- Between the end of an operation and the end of the next commit: nothing is
-- written yet, or one process is writing.
inductive Phase (before : List (P × Write)) (B : Blockno → Prop) (s : Ops P) : Prop where
  | waiting (hidle : s.committing = false) (hwritten : s.written = before)
      (hlisted : ∀ b, B b → s.log.lh.Listed b)
  | writing (q : P) (stage : Stage) (writes : List (P × Write)) (hpc : s.pc q = .committing stage)
      (hwritten : s.written = before ++ writes) (hown : ∀ w ∈ writes, w.1 = q)
      (hprogress : Progress s.log.lh B q writes stage)

theorem phase_commit {stage : Stage} (hn : 0 ≤ s.log.lh.n.toInt)
    (hwritten : s.written = before ++ writes) (hown : ∀ w ∈ writes, w.1 = q)
    (hprogress : Progress s.log.lh B q writes stage) (hcommit : s.commit q stage = some s') :
    Phase before B s' := by
  have hadd : ∀ w : Write, (s.write q w).written = before ++ (writes ++ [(q, w)]) := by
    intro w
    simp only [write, hwritten, List.append_assoc]
  have hown' : ∀ w : Write, ∀ x ∈ writes ++ [(q, w)], x.1 = q := by
    intro w x hx
    rcases List.mem_append.mp hx with hx | hx
    · exact hown x hx
    · rw [List.mem_singleton.mp hx]
  cases stage with
  | begun =>
    rw [← Option.some.inj hcommit]
    refine .writing q _ writes (set_pc_self ..) hwritten hown ?_
    split
    · exact ⟨hprogress, fun i hi => by omega⟩
    · rename_i hempty
      intro b hb
      obtain ⟨i, hi, -⟩ := hprogress b hb
      refine absurd ?_ hempty
      rw [Int32.lt_iff_toInt_lt, show (0 : Int32).toInt = 0 from rfl]
      omega
  | writeLog tail =>
    obtain ⟨hlisted, hwrites⟩ := hprogress
    simp only [commit, forEntry] at hcommit
    split at hcommit
    · split at hcommit
      · rename_i htail
        rw [← Option.some.inj hcommit]
        exact .writing q _ _ (set_pc_self ..) (hadd _) (hown' _)
          ⟨hlisted, mem_append_entry htail hwrites⟩
      · cases hcommit
    · rename_i hdone
      rw [← Option.some.inj hcommit]
      refine .writing q _ writes (set_pc_self ..) hwritten hown ?_
      intro b hb
      obtain ⟨i, hi, rfl⟩ := hlisted b hb
      exact ⟨⟨i, hi, rfl⟩, hwrites i (lt_of_listed hi hdone)⟩
  | writeHead =>
    rw [← Option.some.inj hcommit]
    refine .writing q _ _ (set_pc_self ..) (hadd _) (hown' _) ⟨?_, fun i hi => by omega⟩
    intro b hb
    exact ⟨(hprogress b hb).1, List.mem_append_left _ (hprogress b hb).2⟩
  | installTrans tail =>
    obtain ⟨hlisted, hwrites⟩ := hprogress
    simp only [commit, forEntry] at hcommit
    split at hcommit
    · split at hcommit
      · rename_i htail
        rw [← Option.some.inj hcommit]
        refine .writing q _ _ (set_pc_self ..) (hadd _) (hown' _)
          ⟨?_, mem_append_entry htail hwrites⟩
        intro b hb
        exact ⟨(hlisted b hb).1, List.mem_append_left _ (hlisted b hb).2⟩
      · cases hcommit
    · rename_i hdone
      rw [← Option.some.inj hcommit]
      refine .writing q _ writes (set_pc_self ..) hwritten hown ?_
      intro b hb
      obtain ⟨⟨i, hi, rfl⟩, hlogged⟩ := hlisted b hb
      exact ⟨hlogged, hwrites i (lt_of_listed hi hdone)⟩
  | clear =>
    rw [← Option.some.inj hcommit]
    exact .writing q _ writes (set_pc_self ..) hwritten hown hprogress
  | eraseHead =>
    rw [← Option.some.inj hcommit]
    refine .writing q _ _ (set_pc_self ..) (hadd _) (hown' _) ?_
    intro b hb
    exact ⟨List.mem_append_left _ (hprogress b hb).1, List.mem_append_left _ (hprogress b hb).2⟩
  | returned => cases hcommit

theorem Sound.phase_step (h : Sound s ops) (hphase : Phase before B s) (he : ∀ q, e ≠ .finish q)
    (hstep : s.step e = some s') : Phase before B s' := by
  obtain ⟨-, hstepped⟩ := stepped_of_step hstep
  cases hphase with
  | waiting hidle hwritten hlisted =>
    cases hstepped with
    | slept hpc => exact .waiting hidle hwritten hlisted
    | began hpc _ hroom => exact .waiting hidle hwritten hlisted
    | refused hpc henter => exact .waiting hidle hwritten hlisted
    | logged hpc henter =>
      have hentered := Log.enter_ok h.count henter
      exact .waiting hidle hwritten fun b hb => hentered.kept b (hlisted b hb)
    | torn hpc hcommit =>
      rw [hidle] at hcommit
      cases hcommit
    | @last p hpc _ hzero =>
      exact .writing p .begun [] (set_pc_self ..) (by simpa [set] using hwritten)
        (fun w hw => by cases hw) hlisted
    | ended hpc _ hmore => exact .waiting hidle hwritten hlisted
    | committed hpc hcommit =>
      rw [h.busy _ _ hpc] at hidle
      cases hidle
    | finished hpc => exact absurd rfl (he _)
  | writing q stage writes hpc hwritten hown hprogress =>
    have hbusy := h.busy q stage hpc
    have hnone : ∀ p, s.pc p ≠ .inside := by
      intro p hp
      rw [h.idle_of_inside hp] at hbusy
      cases hbusy
    cases hstepped with
    | @slept p hpc' =>
      refine .writing q stage writes ?_ hwritten hown hprogress
      rw [set_pc_iff s (by rcases hpc' with hpc' | hpc' <;> simp [hpc']) (by simp)]
      exact hpc
    | began hpc' hidle hroom =>
      rw [hbusy] at hidle
      cases hidle
    | refused hpc' henter => exact .writing q stage writes hpc hwritten hown hprogress
    | logged hpc' henter =>
      have hinside := (Log.enter_ok h.count henter).inside
      rw [h.outstanding_eq_zero hbusy] at hinside
      cases hinside
    | torn hpc' hcommit => exact absurd hpc' (hnone _)
    | last hpc' hidle hzero => exact absurd hpc' (hnone _)
    | ended hpc' hidle hmore => exact absurd hpc' (hnone _)
    | @committed p stage' _ hpc' hcommit =>
      obtain rfl := h.only p q stage' stage hpc' hpc
      rw [hpc] at hpc'
      cases hpc'
      exact phase_commit h.count hwritten hown hprogress hcommit
    | finished hpc' => exact absurd rfl (he _)

theorem phase_run (h : Sound s ops) (hphase : Phase before B s)
    (hevents : ∀ e ∈ events, ∀ q, e ≠ .finish q) (hrun : run step s events = some s') :
    Phase before B s' := by
  have hkept : (∃ ops, Sound s' ops) ∧ Phase before B s' :=
    run_keeps (I := fun s => (∃ ops, Sound s ops) ∧ Phase before B s)
      (fun s e s' hs he hstep => by
        obtain ⟨⟨ops, hsound⟩, hphase⟩ := hs
        exact ⟨hsound.step hstep, hsound.phase_step hphase he hstep⟩)
      ⟨⟨ops, h⟩, hphase⟩ hevents hrun
  exact hkept.2

theorem Sound.phase_end (h : Sound s ops) (hlisted : ∀ b, B b → s.log.lh.Listed b)
    (hstep : s.step (.endOp p) = some s') : Phase s.written B s' := by
  obtain ⟨-, hstepped⟩ := stepped_of_step hstep
  cases hstepped with
  | torn hpc hcommit =>
    rw [h.idle_of_inside hpc] at hcommit
    cases hcommit
  | last hpc hidle hzero =>
    exact .writing p .begun [] (set_pc_self ..) (by simp [set]) (fun w hw => by cases hw) hlisted
  | ended hpc hidle hmore => exact .waiting hidle rfl hlisted

end Xv6Ringbuf.Fs.Ops
