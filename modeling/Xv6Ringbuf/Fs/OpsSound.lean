import Xv6Ringbuf.Fs.Ops

namespace Xv6Ringbuf.Fs.Ops

open Function

section Invariant

variable {P : Type}

-- The state of the log in every run. `ops` are the processes that are inside
-- of an operation.
structure Sound (s : Ops P) (ops : List P) : Prop where
  nodup : ops.Nodup
  inside : ∀ p, p ∈ ops ↔ s.pc p = .inside
  outstanding : s.log.outstanding.toInt = ops.length
  few : ops.length ≤ 3
  count : 0 ≤ s.log.lh.n.toInt
  bound : s.log.lh.n.toInt ≤ LOGSIZE
  committing : s.committing = true → ops = [] ∧ ∃ p stage, s.pc p = .committing stage
  only : ∀ p q stage stage', s.pc p = .committing stage → s.pc q = .committing stage' → p = q
  busy : ∀ p stage, s.pc p = .committing stage → s.committing = true
  panic : s.panic ≠ some .logCommitting

theorem init_sound (start : Blockno) (size : Int32) (block : Fin LOGSIZE → Blockno) :
    Sound (init start size block : Ops P) [] := by
  refine ⟨List.nodup_nil, ?_, rfl, by simp, Int.le_refl 0, Int.natCast_nonneg LOGSIZE, ?_, ?_, ?_, ?_⟩
  · intro p
    simp [init]
  · intro h
    cases h
  · intro p q stage stage' hp
    cases hp
  · intro p stage hp
    cases hp
  · intro h
    cases h

variable {s : Ops P} {ops : List P}

theorem Sound.idle {s' : Ops P} (h : Sound s ops) (hinside : ∀ p, s'.pc p = .inside ↔ s.pc p = .inside)
    (hstage : ∀ p stage, s'.pc p = .committing stage ↔ s.pc p = .committing stage)
    (hout : s'.log.outstanding = s.log.outstanding) (hcount : 0 ≤ s'.log.lh.n.toInt)
    (hbound : s'.log.lh.n.toInt ≤ LOGSIZE) (hcommit : s'.committing = s.committing)
    (hpanic : s'.panic ≠ some .logCommitting) : Sound s' ops := by
  refine ⟨h.nodup, ?_, ?_, h.few, hcount, hbound, ?_, ?_, ?_, hpanic⟩
  · intro p
    rw [hinside, h.inside]
  · rw [hout, h.outstanding]
  · intro hbusy
    obtain ⟨hops, p, stage, hp⟩ := h.committing (hcommit ▸ hbusy)
    exact ⟨hops, p, stage, (hstage p stage).mpr hp⟩
  · intro p q stage stage' hp hq
    exact h.only p q stage stage' ((hstage p stage).mp hp) ((hstage q stage').mp hq)
  · intro p stage hp
    rw [hcommit]
    exact h.busy p stage ((hstage p stage).mp hp)

theorem wakeup_inside (s : Ops P) (p : P) : s.wakeup.pc p = .inside ↔ s.pc p = .inside := by
  simp only [wakeup]
  split
  · rename_i h
    simp [h]
  · rfl

theorem wakeup_committing (s : Ops P) (p : P) (stage : Stage) :
    s.wakeup.pc p = .committing stage ↔ s.pc p = .committing stage := by
  simp only [wakeup]
  split
  · rename_i h
    simp [h]
  · rfl

theorem Sound.idle_of_inside (h : Sound s ops) {p : P} (hp : s.pc p = .inside) :
    s.committing = false := by
  cases hbusy : s.committing with
  | false => rfl
  | true =>
    have hmem := (h.inside p).mpr hp
    rw [(h.committing hbusy).1] at hmem
    cases hmem

theorem Sound.logged (h : Sound s ops) {b : Blockno} {fresh : Bool} {log : Log}
    (henter : s.log.enter b = .ok (some (fresh, log))) :
    Sound { s with log := log } ops := by
  have hcount := h.count
  have hentered := Log.enter_ok hcount henter
  have hroom := hentered.room
  have hn : log.lh.n.toInt = s.log.lh.n.toInt ∨ log.lh.n.toInt = s.log.lh.n.toInt + 1 := by
    cases fresh with
    | false => exact .inl (congrArg Int32.toInt (hentered.absorbed rfl))
    | true => exact .inr (hentered.added rfl).2
  apply h.idle
  · exact fun q => Iff.rfl
  · exact fun q stage => Iff.rfl
  · exact hentered.outstanding
  · simp only
    omega
  · simp only
    omega
  · rfl
  · exact h.panic

theorem Sound.outstanding_eq_zero (h : Sound s ops) (hbusy : s.committing = true) :
    s.log.outstanding = 0 := by
  have hout := h.outstanding
  rw [(h.committing hbusy).1] at hout
  exact Int32.toInt_inj.mp hout

end Invariant

variable {P : Type} [DecidableEq P]

variable {p : P} {s s' : Ops P} {ops : List P} {stage : Stage}

theorem set_pc_of_ne (s : Ops P) {q : P} (hqp : q ≠ p) (pc : Pc) : (s.set p pc).pc q = s.pc q :=
  update_of_ne hqp _ _

theorem set_pc_self (s : Ops P) (p : P) (pc : Pc) : (s.set p pc).pc p = pc := update_self ..

theorem set_pc_iff (s : Ops P) {pc pc' : Pc} (hold : s.pc p ≠ pc') (hnew : pc ≠ pc') (q : P) :
    (s.set p pc).pc q = pc' ↔ s.pc q = pc' := by
  by_cases hqp : q = p
  · rw [hqp, set_pc_self]
    exact ⟨fun h => absurd h hnew, fun h => absurd h hold⟩
  · rw [set_pc_of_ne s hqp]

theorem Sound.slept (h : Sound s ops) (hpc : s.pc p = .outside ∨ s.pc p = .woken) :
    Sound (s.set p .asleep) ops := by
  have hne : s.pc p ≠ .inside ∧ ∀ stage, s.pc p ≠ .committing stage := by
    rcases hpc with hpc | hpc <;> simp [hpc]
  apply h.idle
  · exact fun q => set_pc_iff s hne.1 (by simp) q
  · exact fun q stage => set_pc_iff s (hne.2 stage) (by simp) q
  · rfl
  · exact h.count
  · exact h.bound
  · rfl
  · exact h.panic

theorem Sound.began (h : Sound s ops) (hpc : s.pc p = .outside ∨ s.pc p = .woken)
    (hidle : s.committing = false)
    (hroom : ¬(s.log.lh.n + (s.log.outstanding + 1) * Int32.ofNat MAXOPBLOCKS > Int32.ofNat LOGSIZE)) :
    Sound ({ s with log := { s.log with outstanding := s.log.outstanding + 1 } }.set p .inside)
      (p :: ops) := by
  have hcount := h.count
  have hbound := h.bound
  have hout := h.outstanding
  have hfew := h.few
  have hspace := (reserve_le_iff hcount hbound (by omega) (by omega)).mp hroom
  have hp : p ∉ ops := by
    rw [h.inside]
    rcases hpc with hpc | hpc <;> simp [hpc]
  have hstage : ∀ q stage, update s.pc p .inside q = .committing stage →
      s.pc q = .committing stage := by
    intro q stage hq
    by_cases hqp : q = p
    · rw [hqp, update_self] at hq
      cases hq
    · rwa [update_of_ne hqp] at hq
  refine ⟨List.nodup_cons.mpr ⟨hp, h.nodup⟩, ?_, ?_, ?_, hcount, hbound, ?_, ?_, ?_, h.panic⟩
  · intro q
    by_cases hqp : q = p
    · rw [hqp, set_pc_self]
      simp
    · rw [set_pc_of_ne _ hqp, List.mem_cons, ← h.inside q]
      simp [hqp]
  · rw [List.length_cons]
    simp only [set]
    rw [toInt_add_one (by omega) (by omega), hout]
    rfl
  · rw [List.length_cons]
    omega
  · intro hbusy
    exact absurd hbusy (by simp [set, hidle])
  · intro q r stage stage' hq hr
    exact h.only q r stage stage' (hstage q stage hq) (hstage r stage' hr)
  · intro q stage hq
    exact h.busy q stage (hstage q stage hq)

theorem Sound.mem_erase (h : Sound s ops) (p q : P) :
    q ∈ ops.erase p ↔ q ≠ p ∧ s.pc q = .inside := by
  rw [h.nodup.mem_erase_iff, h.inside]

theorem Sound.length_erase (h : Sound s ops) (hpc : s.pc p = .inside) :
    (s.log.outstanding - 1).toInt = (ops.erase p).length ∧ (ops.erase p).length + 1 = ops.length := by
  have hmem := (h.inside p).mpr hpc
  have hpos := List.length_pos_of_mem hmem
  have hout := h.outstanding
  have hfew := h.few
  have hlen := List.length_erase_of_mem hmem
  rw [toInt_sub_one (by omega) (by omega)]
  omega

theorem Sound.last (h : Sound s ops) (hpc : s.pc p = .inside) (hidle : s.committing = false)
    (hzero : s.log.outstanding - 1 = 0) :
    Sound ({ s with
      log := { s.log with outstanding := s.log.outstanding - 1 }
      committing := true }.set p (.committing .begun)) [] := by
  obtain ⟨hout, hlen⟩ := h.length_erase hpc
  have hnone : ops.erase p = [] := by
    rw [hzero, show (0 : Int32).toInt = 0 from rfl] at hout
    exact List.length_eq_zero_iff.mp (by omega)
  have hother : ∀ q, q ≠ p → s.pc q ≠ .inside := by
    intro q hqp hq
    have hmem := (h.mem_erase p q).mpr ⟨hqp, hq⟩
    rw [hnone] at hmem
    cases hmem
  have hstage : ∀ q stage, update s.pc p (.committing .begun) q = .committing stage →
      q = p := by
    intro q stage hq
    by_contra hqp
    rw [update_of_ne hqp] at hq
    have hbusy := h.busy q stage hq
    rw [hidle] at hbusy
    cases hbusy
  refine ⟨List.nodup_nil, ?_, ?_, by simp, h.count, h.bound, ?_, ?_, ?_, h.panic⟩
  · intro q
    by_cases hqp : q = p
    · rw [hqp, set_pc_self]
      simp
    · rw [set_pc_of_ne _ hqp]
      simpa using hother q hqp
  · simp only [set, hzero]
    rfl
  · exact fun _ => ⟨rfl, p, .begun, set_pc_self ..⟩
  · intro q r stage stage' hq hr
    rw [hstage q stage hq, hstage r stage' hr]
  · exact fun _ _ _ => rfl

theorem Sound.ended (h : Sound s ops) (hpc : s.pc p = .inside) (hidle : s.committing = false) :
    Sound ({ s with log := { s.log with outstanding := s.log.outstanding - 1 } }.set p .outside).wakeup
      (ops.erase p) := by
  obtain ⟨hout, hlen⟩ := h.length_erase hpc
  have hfew := h.few
  have hstage : ∀ q stage, ¬s.pc q = .committing stage := by
    intro q stage hq
    have hbusy := h.busy q stage hq
    rw [hidle] at hbusy
    cases hbusy
  have hnone : ∀ q stage, ¬(({ s with
      log := { s.log with outstanding := s.log.outstanding - 1 } }.set p .outside).wakeup.pc q =
        .committing stage) := by
    intro q stage hq
    rw [wakeup_committing] at hq
    exact hstage q stage ((set_pc_iff _ (hstage p stage) (by simp) q).mp hq)
  refine ⟨h.nodup.erase p, ?_, hout, by omega, h.count, h.bound, ?_, ?_, ?_, h.panic⟩
  · intro q
    rw [h.mem_erase, wakeup_inside]
    by_cases hqp : q = p
    · rw [hqp, set_pc_self]
      simp
    · rw [set_pc_of_ne _ hqp]
      simp [hqp]
  · intro hbusy
    exact absurd hbusy (by simp [set, wakeup, hidle])
  · intro q r stage stage' hq
    exact absurd hq (hnone q stage)
  · intro q stage hq
    exact absurd hq (hnone q stage)

theorem Sound.committed (h : Sound s ops) (hpc : s.pc p = .committing stage)
    (hcommitted : Committed s p s') : Sound s' ops := by
  obtain ⟨⟨stage', hpc'⟩, hlog, hcommitting, hpanic⟩ := hcommitted
  have hbusy := h.busy p stage hpc
  have hstage : ∀ q stage, s'.pc q = .committing stage → q = p := by
    intro q stage'' hq
    by_contra hqp
    rw [hpc', update_of_ne hqp] at hq
    exact hqp (h.only q p stage'' stage hq hpc)
  refine ⟨h.nodup, ?_, ?_, h.few, ?_, ?_, ?_, ?_, ?_, by rw [hpanic]; exact h.panic⟩
  · intro q
    rw [h.inside, hpc']
    by_cases hqp : q = p
    · rw [hqp, hpc, update_self]
      simp
    · rw [update_of_ne hqp]
  · rcases hlog with hlog | hlog <;> rw [hlog] <;> exact h.outstanding
  · rcases hlog with hlog | hlog <;> rw [hlog]
    · exact h.count
    · exact Int.le_refl 0
  · rcases hlog with hlog | hlog <;> rw [hlog]
    · exact h.bound
    · exact Int.natCast_nonneg LOGSIZE
  · exact fun _ => ⟨(h.committing hbusy).1, p, stage', by rw [hpc', update_self]⟩
  · intro q r stage stage' hq hr
    rw [hstage q stage hq, hstage r stage' hr]
  · exact fun _ _ _ => hcommitting.trans hbusy

theorem Sound.finished (h : Sound s ops) (hpc : s.pc p = .committing stage) :
    Sound (s.finish p) ops := by
  have hnone : ∀ q stage, ¬((s.finish p).pc q = .committing stage) := by
    intro q stage' hq
    rw [finish, wakeup_committing] at hq
    by_cases hqp : q = p
    · rw [hqp, set_pc_self] at hq
      cases hq
    · rw [set_pc_of_ne _ hqp] at hq
      exact hqp (h.only q p stage' stage hq hpc)
  refine ⟨h.nodup, ?_, h.outstanding, h.few, h.count, h.bound, ?_, ?_, ?_, h.panic⟩
  · intro q
    rw [h.inside, finish, wakeup_inside, set_pc_iff _ (by simp [hpc]) (by simp)]
  · intro hbusy
    cases hbusy
  · intro q r stage stage' hq
    exact absurd hq (hnone q stage)
  · intro q stage hq
    exact absurd hq (hnone q stage)

theorem Sound.step (h : Sound s ops) {e : Event P} (hstep : s.step e = some s') :
    ∃ ops', Sound s' ops' := by
  obtain ⟨hpanic, hstepped⟩ := stepped_of_step hstep
  cases hstepped with
  | slept hpc => exact ⟨ops, h.slept hpc⟩
  | began hpc hidle hroom => exact ⟨_, h.began hpc hidle hroom⟩
  | refused hpc henter =>
    refine ⟨ops, h.idle (fun _ => Iff.rfl) (fun _ _ => Iff.rfl) rfl h.count h.bound rfl ?_⟩
    intro heq
    exact Log.enter_ne_committing _ _ (Option.some.inj heq ▸ henter)
  | logged hpc henter => exact ⟨ops, h.logged henter⟩
  | torn hpc hcommit =>
    rw [h.idle_of_inside hpc] at hcommit
    cases hcommit
  | last hpc hidle hzero => exact ⟨[], h.last hpc hidle hzero⟩
  | ended hpc hidle hmore => exact ⟨_, h.ended hpc hidle⟩
  | committed hpc hcommit => exact ⟨ops, h.committed hpc (commit_committed hcommit)⟩
  | finished hpc => exact ⟨ops, h.finished hpc⟩

end Xv6Ringbuf.Fs.Ops
