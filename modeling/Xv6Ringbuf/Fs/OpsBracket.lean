import Xv6Ringbuf.Fs.OpsAtomic

namespace Xv6Ringbuf.Fs.Ops

open Trace

variable {P : Type} [DecidableEq P]

-- Events that do not end a commit lead from `s` to a state with `Q`.
def CanReach (s : Ops P) (Q : Ops P → Prop) : Prop :=
  ∃ events s', (∀ e ∈ events, ∀ q, e ≠ .finish q) ∧ run step s events = some s' ∧ Q s'

variable {s s' : Ops P} {Q : Ops P → Prop} {q : P} {stage : Stage} {tail : Nat} {ops : List P}

theorem CanReach.here (h : Q s) : CanReach s Q :=
  ⟨[], s, fun _ he => (List.not_mem_nil he).elim, rfl, h⟩

theorem CanReach.trans {Q' : Ops P → Prop} (h : CanReach s Q) (hnext : ∀ s', Q s' → CanReach s' Q') :
    CanReach s Q' := by
  obtain ⟨events, t, hevents, hrun, ht⟩ := h
  obtain ⟨events', s', hevents', hrun', hs'⟩ := hnext t ht
  refine ⟨events ++ events', s', ?_, run_append_eq_some.mpr ⟨t, hrun, hrun'⟩, hs'⟩
  intro e he
  rcases List.mem_append.mp he with he | he
  · exact hevents e he
  · exact hevents' e he

theorem CanReach.step {e : Event P} (hstep : s.step e = some s') (he : ∀ q, e ≠ .finish q)
    (h : CanReach s' Q) : CanReach s Q := by
  refine CanReach.trans (Q := (· = s')) ⟨[e], s', ?_, ?_, rfl⟩ fun _ ht => ht ▸ h
  · intro e' he'
    rw [List.mem_singleton.mp he']
    exact he
  · exact run_cons_eq_some.mpr ⟨s', hstep, rfl⟩

structure At (q : P) (stage : Stage) (s : Ops P) : Prop where
  pc : s.pc q = .committing stage
  panic : s.panic = none
  bound : s.log.lh.n.toInt ≤ LOGSIZE

theorem At.step (h : At q stage s) (hcommit : s.commit q stage = some s') (hnext : CanReach s' Q) :
    CanReach s Q := by
  apply CanReach.step (e := .commit q) _ (fun r => by simp) hnext
  simp only [Ops.step, h.panic, h.pc, hcommit]
  rfl

theorem At.loop (stageAt : Nat → Stage) (after : Stage) (w : Blockno → Write)
    (hloop : ∀ (s : Ops P) tail,
      s.commit q (stageAt tail) = s.forEntry q w tail (stageAt (tail + 1)) after) (rounds : Nat)
    (h : At q (stageAt tail) s) (hrounds : s.log.lh.n.toInt ≤ tail + rounds) :
    CanReach s (At q after) := by
  have hbound := h.bound
  induction rounds generalizing tail s with
  | zero =>
    have hcommit : s.commit q (stageAt tail) = some (s.set q (.committing after)) := by
      rw [hloop, forEntry, if_neg (by omega)]
    exact h.step hcommit (.here ⟨set_pc_self .., h.panic, hbound⟩)
  | succ rounds ih =>
    by_cases htail : (tail : Int) < s.log.lh.n.toInt
    · let s' := (s.write q (w (s.log.lh.block ⟨tail, by omega⟩))).set q
        (.committing (stageAt (tail + 1)))
      have hcommit : s.commit q (stageAt tail) = some s' := by
        rw [hloop, forEntry, if_pos htail, dif_pos (by omega)]
      have hat : At q (stageAt (tail + 1)) s' := ⟨set_pc_self .., h.panic, hbound⟩
      refine h.step hcommit (ih hat ?_ hbound)
      simp only [s', set, write]
      omega
    · have hcommit : s.commit q (stageAt tail) = some (s.set q (.committing after)) := by
        rw [hloop, forEntry, if_neg htail]
      exact h.step hcommit (.here ⟨set_pc_self .., h.panic, hbound⟩)

theorem At.eraseHead (h : At q .eraseHead s) : CanReach s (At q .returned) :=
  h.step rfl (.here ⟨set_pc_self .., h.panic, h.bound⟩)

theorem At.clear (h : At q .clear s) : CanReach s (At q .returned) :=
  h.step rfl (At.eraseHead ⟨set_pc_self .., h.panic, Int.natCast_nonneg LOGSIZE⟩)

theorem At.installTrans (h : At q (.installTrans tail) s) :
    CanReach s (At q .returned) := by
  have hbound := h.bound
  refine CanReach.trans (At.loop .installTrans .clear .home (fun _ _ => rfl) LOGSIZE h ?_) fun _ h => h.clear
  omega

theorem At.writeHead (h : At q .writeHead s) : CanReach s (At q .returned) :=
  h.step rfl (At.installTrans ⟨set_pc_self .., h.panic, h.bound⟩)

theorem At.writeLog (h : At q (.writeLog tail) s) :
    CanReach s (At q .returned) := by
  have hbound := h.bound
  refine CanReach.trans (At.loop .writeLog .writeHead .logged (fun _ _ => rfl) LOGSIZE h ?_) fun _ h => h.writeHead
  omega

theorem At.returns (h : At q stage s) :
    CanReach s (At q .returned) := by
  cases stage with
  | begun =>
    refine h.step rfl ?_
    split
    · have hat : At q (.writeLog 0) (s.set q (.committing (.writeLog 0))) :=
        ⟨set_pc_self .., h.panic, h.bound⟩
      exact hat.writeLog
    · exact .here ⟨set_pc_self .., h.panic, h.bound⟩
  | writeLog tail => exact h.writeLog
  | writeHead => exact h.writeHead
  | installTrans tail => exact h.installTrans
  | clear => exact h.clear
  | eraseHead => exact h.eraseHead
  | returned => exact .here h

theorem Sound.commits (h : Sound s ops) (hpanic : s.panic = none) (hops : ops ≠ []) :
    CanReach s fun s' => ∃ q, At q .returned s' := by
  induction hlen : ops.length generalizing s ops with
  | zero => exact absurd (List.length_eq_zero_iff.mp hlen) hops
  | succ len ih =>
    obtain ⟨p, hmem⟩ := List.exists_mem_of_ne_nil ops hops
    have hpc := (h.inside p).mp hmem
    have hidle := h.idle_of_inside hpc
    obtain ⟨hout, hlength⟩ := h.length_erase hpc
    have hstep : s.step (.endOp p) = some (s.endOp p) := by
      simp [Ops.step, hpanic, hpc]
    by_cases hzero : s.log.outstanding - 1 = 0
    · have hlast := h.last hpc hidle hzero
      refine CanReach.step hstep (fun q => by simp) ?_
      have hat : At p .begun (s.endOp p) := by
        simp only [endOp, hidle, hzero, if_true, Bool.false_eq_true, if_false]
        exact ⟨set_pc_self .., hpanic, h.bound⟩
      exact hat.returns.trans fun s' hs' => .here ⟨p, hs'⟩
    · have hended := h.ended hpc hidle
      have hend : s.endOp p = ({ s with
          log := { s.log with outstanding := s.log.outstanding - 1 } }.set p .outside).wakeup := by
        simp only [endOp, hidle, hzero, Bool.false_eq_true, if_false]
      rw [hend] at hstep
      have hmore : ops.erase p ≠ [] := by
        intro hnil
        rw [hnil] at hout
        exact hzero (Int32.toInt_inj.mp hout)
      exact CanReach.step hstep (fun q => by simp) (ih hended hpanic hmore (by omega))

theorem Sound.commits_after_end (h : Sound s ops) {p : P} (hstep : s.step (.endOp p) = some s') :
    CanReach s' fun s' => ∃ q, At q .returned s' := by
  obtain ⟨hpanic, hstepped⟩ := stepped_of_step hstep
  cases hstepped with
  | torn hpc hcommit =>
    rw [h.idle_of_inside hpc] at hcommit
    cases hcommit
  | last hpc hidle hzero =>
    have hat : At p .begun ({ s with
        log := { s.log with outstanding := s.log.outstanding - 1 }
        committing := true }.set p (.committing .begun)) := ⟨set_pc_self .., hpanic, h.bound⟩
    exact hat.returns.trans fun s' hs' => .here ⟨p, hs'⟩
  | ended hpc hidle hmore =>
    apply (h.ended hpc hidle).commits hpanic
    intro hnil
    obtain ⟨hout, -⟩ := h.length_erase hpc
    rw [hnil] at hout
    exact hmore (Int32.toInt_inj.mp hout)

-- Processes come and go in any order. A commit runs only when no operation is
-- outstanding, and until `committing` is cleared `begin_op` only sleeps and
-- `log_write` only panics. From the `begin_op` of an operation to its `end_op`
-- nothing is written. After it some commit can end, and the first that does has
-- written every block of the operation, to the log and home, and all writes
-- since the `begin_op` are its own.
theorem operations_not_split (start : Blockno) (size : Int32) (block : Fin LOGSIZE → Blockno)
    (before : List (Event P)) (s : Ops P)
    (hreach : run step (init start size block) before = some s) :
    (∀ p stage, s.pc p = .committing stage → s.committing = true) ∧
    (s.committing = true → s.log.outstanding = 0 ∧
      (∀ p s', s.step (.beginOp p) = some s' → s'.log = s.log ∧ s'.pc p = .asleep) ∧
      ∀ p b s', s.step (.logWrite p b) = some s' → s'.log = s.log ∧ s'.panic.isSome) ∧
    s.panic ≠ some .logCommitting ∧
    ∀ p s₁ during s₂ s₃, s.step (.beginOp p) = some s₁ → s₁.pc p = .inside →
      (∀ e ∈ during, e ≠ .endOp p) → run step s₁ during = some s₂ →
      s₂.step (.endOp p) = some s₃ →
      s₃.written = s.written ∧
      (∃ after q s₄ s₅, (∀ e ∈ after, ∀ r, e ≠ .finish r) ∧ run step s₃ after = some s₄ ∧
        s₄.step (.finish q) = some s₅) ∧
      ∀ after q s₄ s₅, (∀ e ∈ after, ∀ r, e ≠ .finish r) → run step s₃ after = some s₄ →
        s₄.step (.finish q) = some s₅ →
        ∃ writes, s₄.written = s.written ++ writes ∧ (∀ w ∈ writes, w.1 = q) ∧
          ∀ b, .logWrite p b ∈ during → (q, .logged b) ∈ writes ∧ (q, .home b) ∈ writes := by
  obtain ⟨ops, hsound⟩ := sound_of_run (init_sound start size block) hreach
  refine ⟨hsound.busy, ?_, hsound.panic, ?_⟩
  · intro hbusy
    refine ⟨hsound.outstanding_eq_zero hbusy, ?_, ?_⟩
    · intro p s' hstep
      obtain ⟨-, hstepped⟩ := stepped_of_step hstep
      cases hstepped with
      | slept hpc => exact ⟨rfl, set_pc_self ..⟩
      | began hpc hidle hroom =>
        rw [hbusy] at hidle
        cases hidle
    · intro p b s' hstep
      obtain ⟨-, hstepped⟩ := stepped_of_step hstep
      cases hstepped with
      | refused hpc henter => exact ⟨rfl, rfl⟩
      | logged hpc henter =>
        have hinside := (Log.enter_ok hsound.count henter).inside
        rw [hsound.outstanding_eq_zero hbusy] at hinside
        cases hinside
  · intro p s₁ during s₂ s₃ hbegin hinside hduring hrun hend
    obtain ⟨ops₁, hsound₁⟩ := hsound.step hbegin
    obtain ⟨ops₂, hsound₂⟩ := sound_of_run hsound₁ hrun
    obtain ⟨hpanic, hended⟩ := stepped_of_step hend
    obtain ⟨-, hwritten, -, hlisted⟩ := bracket_run hsound₁ hinside hduring hrun hpanic
    have hbegan : s₁.written = s.written := by
      obtain ⟨-, hstepped⟩ := stepped_of_step hbegin
      cases hstepped <;> rfl
    have hwritten₃ : s₃.written = s₂.written := by
      cases hended <;> rfl
    have hsame : s₂.written = s.written := hwritten.trans hbegan
    refine ⟨hwritten₃.trans hsame, ?_, ?_⟩
    · obtain ⟨after, s₄, hafter, hrun', q, hat⟩ := hsound₂.commits_after_end hend
      refine ⟨after, q, s₄, s₄.finish q, hafter, hrun', ?_⟩
      simp [Ops.step, hat.panic, hat.pc]
    · intro after q s₄ s₅ hafter hrun' hfinish
      obtain ⟨ops₃, hsound₃⟩ := hsound₂.step hend
      obtain ⟨ops₄, hsound₄⟩ := sound_of_run hsound₃ hrun'
      obtain ⟨-, hfinished⟩ := stepped_of_step hfinish
      have hreturned : s₄.pc q = .committing .returned := by
        cases hfinished with
        | finished hpc => exact hpc
      cases phase_run hsound₃ (hsound₂.phase_end hlisted hend) hafter hrun' with
      | waiting hidle hwritten hlisted =>
        rw [hsound₄.busy q .returned hreturned] at hidle
        cases hidle
      | writing r stage writes hpc hwritten₄ hown hprogress =>
        obtain rfl := hsound₄.only r q stage .returned hpc hreturned
        rw [hreturned] at hpc
        cases hpc
        rw [hsame] at hwritten₄
        exact ⟨writes, hwritten₄, hown, hprogress⟩

theorem operations_not_split_two : ∃ s : Ops Bool,
    run step (init 2 30 fun _ => 0) ([.beginOp true] ++ ([.beginOp false, .logWrite true 50] ++
      ([.endOp true] ++ ([.logWrite false 51, .endOp false] ++
        List.replicate 10 (.commit false))))) = some s ∧
    (false, .logged 50) ∈ s.written ∧ (false, .home 50) ∈ s.written := by
  have hruns : (run step (init 2 30 fun _ => 0 : Ops Bool) ([.beginOp true] ++
      ([.beginOp false, .logWrite true 50] ++ ([.endOp true] ++
        (([.logWrite false 51, .endOp false] ++ List.replicate 10 (.commit false)) ++
          [.finish false]))))).isSome = true := by
    decide
  have hinside : (step (init 2 30 fun _ => 0) (.beginOp true)).map (·.pc true) = some Pc.inside := by
    decide
  obtain ⟨s₅, hrun⟩ := Option.isSome_iff_exists.mp hruns
  obtain ⟨s₁, hbegin, hrun⟩ := run_append_eq_some.mp hrun
  obtain ⟨s₂, hduring, hrun⟩ := run_append_eq_some.mp hrun
  obtain ⟨s₃, hend, hrun⟩ := run_append_eq_some.mp hrun
  obtain ⟨s₄, hafter, hfinish⟩ := run_append_eq_some.mp hrun
  obtain ⟨s₁', hbegin', hrun₁⟩ := run_cons_eq_some.mp hbegin
  obtain ⟨s₃', hend', hrun₃⟩ := run_cons_eq_some.mp hend
  obtain ⟨s₅', hfinish', -⟩ := run_cons_eq_some.mp hfinish
  obtain rfl := Option.some.inj hrun₁
  obtain rfl := Option.some.inj hrun₃
  rw [hbegin', Option.map_some, Option.some.injEq] at hinside
  obtain ⟨writes, hwritten, -, hblocks⟩ :=
    ((operations_not_split 2 30 (fun _ => 0) [] (init 2 30 fun _ => 0 : Ops Bool) rfl).2.2.2 true s₁'
      [.beginOp false, .logWrite true 50] s₂ s₃' hbegin' hinside (by simp) hduring hend').2.2
      _ false s₄ s₅' (by simp) hafter hfinish'
  obtain ⟨hlogged, hhome⟩ := hblocks 50 (by simp)
  refine ⟨s₄, ?_, hwritten ▸ List.mem_append_right _ hlogged,
    hwritten ▸ List.mem_append_right _ hhome⟩
  exact run_append_eq_some.mpr ⟨s₁', hbegin, run_append_eq_some.mpr ⟨s₂, hduring,
    run_append_eq_some.mpr ⟨s₃', hend, hafter⟩⟩⟩

end Xv6Ringbuf.Fs.Ops
