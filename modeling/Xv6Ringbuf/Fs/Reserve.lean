import Xv6Ringbuf.Fs.OpsAtomic

namespace Xv6Ringbuf.Fs

open Trace Function

def nlog : Int32 := Int32.ofNat LOGSIZE

-- The log with, for each process, the distinct blocks that its operation has
-- logged so far.
structure Metered (P : Type) where
  ops : Ops P
  used : P → List Blockno

namespace Metered

variable {P : Type} [DecidableEq P]

-- Every operation logs at most `k` distinct blocks, between its `begin_op` and
-- its `end_op`.
def step (k : Nat) (m : Metered P) (e : Event P) : Option (Metered P) :=
  match e with
  | .beginOp p => (m.ops.step e).map fun s => ⟨s, update m.used p []⟩
  | .logWrite p b =>
    if m.ops.pc p = .inside ∧ ((m.used p).insert b).length ≤ k then
      (m.ops.step e).map fun s => ⟨s, update m.used p ((m.used p).insert b)⟩
    else none
  | _ => (m.ops.step e).map fun s => ⟨s, m.used⟩

def init (start : Blockno) (block : Fin LOGSIZE → Blockno) : Metered P :=
  ⟨Ops.init start nlog block, fun _ => []⟩

def slack (k : Nat) (used : P → List Blockno) (ops : List P) : Nat :=
  (ops.map fun p => k - (used p).length).sum

omit [DecidableEq P] in
theorem slack_cons (k : Nat) (used : P → List Blockno) (p : P) (ops : List P) :
    slack k used (p :: ops) = k - (used p).length + slack k used ops := List.sum_cons

variable {p : P} {ops : List P} {log : Log} {used : P → List Blockno} {k : Nat} {s s' : Ops P}
  {stage : Stage} {m m' : Metered P}

theorem slack_erase (k : Nat) (used : P → List Blockno) (hp : p ∈ ops) :
    slack k used ops = k - (used p).length + slack k used (ops.erase p) := by
  rw [← slack_cons]
  exact ((List.perm_cons_erase hp).map _).sum_eq

theorem slack_update (k : Nat) (used : P → List Blockno) (hp : p ∉ ops) (blocks : List Blockno) :
    slack k (update used p blocks) ops = slack k used ops := by
  unfold slack
  congr 1
  apply List.map_congr_left
  intro q hq
  have hqp : q ≠ p := fun heq => hp (heq ▸ hq)
  rw [update_of_ne hqp]

omit [DecidableEq P] in
theorem slack_le (k : Nat) (used : P → List Blockno) (ops : List P) :
    slack k used ops ≤ k * ops.length := by
  induction ops with
  | nil => exact Nat.zero_le _
  | cons p ops ih =>
    rw [slack_cons, List.length_cons, Nat.mul_succ]
    omega

-- What the reservation of `begin_op` guarantees if no operation logs more than `k`
-- blocks and `k` is less than `MAXOPBLOCKS`. `log_write` panics as soon as one block
-- of the log is left, so two have to be free with all that is still to come.
structure Fits (k : Nat) (s : Ops P) (used : P → List Blockno) (ops : List P) : Prop where
  sound : s.Sound ops
  nodup : ∀ p, (used p).Nodup
  listed : ∀ p ∈ ops, ∀ b ∈ used p, s.log.lh.Listed b
  empty : ops = [] → s.committing = false → s.log.lh.n.toInt = 0
  cleared : ∀ p, s.pc p = .committing .eraseHead ∨ s.pc p = .committing .returned →
    s.log.lh.n.toInt = 0
  space : s.log.lh.n.toInt + slack k used ops ≤ LOGSIZE - 2
  size : s.log.size = nlog
  panic : s.panic ≠ some .tooBigTransaction

omit [DecidableEq P] in
theorem init_fits (k : Nat) (start : Blockno) (block : Fin LOGSIZE → Blockno) :
    Fits k (Ops.init start nlog block : Ops P) (fun _ => []) [] := by
  refine ⟨Ops.init_sound start nlog block, fun p => List.nodup_nil, ?_, fun _ _ => rfl, ?_, ?_, rfl, ?_⟩
  · intro p hp
    cases hp
  · exact fun _ _ => rfl
  · change ((0 : Int32).toInt : Int) + _ ≤ _
    simp [slack, LOGSIZE, MAXOPBLOCKS]
  · intro h
    cases h

theorem enter_ne_error (hsize : log.size = nlog) (hn : log.lh.n.toInt ≤ LOGSIZE - 2)
    (hout : 1 ≤ log.outstanding.toInt) (b : Blockno) (e : LogPanic) : log.enter b ≠ .error e := by
  have hlogsize : LOGSIZE = 30 := rfl
  have hfull : ¬((LOGSIZE : Int) ≤ log.lh.n.toInt ∨ log.size - 1 ≤ log.lh.n) := by
    rw [hsize, Int32.le_iff_toInt_le, show (nlog - 1).toInt = 29 by decide]
    omega
  have hinside : ¬log.outstanding < 1 := by
    rw [Int32.lt_iff_toInt_lt, show (1 : Int32).toInt = 1 from rfl]
    omega
  unfold Log.enter
  rw [if_neg hfull, if_neg hinside]
  dsimp only
  split
  · split <;> simp
  · simp

theorem nodup_update (h : ∀ p, (used p).Nodup) {blocks : List Blockno} (hblocks : blocks.Nodup) (q : P) :
    (update used p blocks q).Nodup := by
  by_cases hqp : q = p
  · rw [hqp, update_self]
    exact hblocks
  · rw [update_of_ne hqp]
    exact h q

theorem Fits.slept (h : Fits k s used ops) (hpc : s.pc p = .outside ∨ s.pc p = .woken) :
    Fits k (s.set p .asleep) (update used p []) ops := by
  have hp : p ∉ ops := by
    rw [h.sound.inside]
    rcases hpc with hpc | hpc <;> simp [hpc]
  refine ⟨h.sound.slept hpc, ?_, ?_, h.empty, ?_, ?_, h.size, h.panic⟩
  · exact nodup_update h.nodup List.nodup_nil
  · intro q hq
    have hqp : q ≠ p := fun heq => hp (heq ▸ hq)
    rw [update_of_ne hqp]
    exact h.listed q hq
  · intro q hq
    apply h.cleared q
    rwa [Ops.set_pc_iff s (by rcases hpc with hpc | hpc <;> simp [hpc]) (by simp),
      Ops.set_pc_iff s (by rcases hpc with hpc | hpc <;> simp [hpc]) (by simp)] at hq
  · rw [slack_update k used hp]
    exact h.space

theorem Fits.began (hk : k < MAXOPBLOCKS) (h : Fits k s used ops) (hpc : s.pc p = .outside ∨ s.pc p = .woken)
    (hidle : s.committing = false)
    (hroom : ¬(s.log.lh.n + (s.log.outstanding + 1) * Int32.ofNat MAXOPBLOCKS >
      Int32.ofNat LOGSIZE)) :
    Fits k ({ s with log := { s.log with outstanding := s.log.outstanding + 1 } }.set p .inside)
      (update used p []) (p :: ops) := by
  have hcount := h.sound.count
  have hout := h.sound.outstanding
  have hfew := h.sound.few
  have hspace := (reserve_le_iff hcount h.sound.bound (by omega) (by omega)).mp hroom
  have hp : p ∉ ops := by
    rw [h.sound.inside]
    rcases hpc with hpc | hpc <;> simp [hpc]
  refine ⟨h.sound.began hpc hidle hroom, ?_, ?_, ?_, ?_, ?_, h.size, h.panic⟩
  · exact nodup_update h.nodup List.nodup_nil
  · intro q hq
    by_cases hqp : q = p
    · rw [hqp, update_self]
      intro b hb
      cases hb
    · rw [update_of_ne hqp]
      exact h.listed q ((List.mem_cons.mp hq).resolve_left hqp)
  · intro hnil
    cases hnil
  · intro q hq
    have hbusy := (h.sound.began hpc hidle hroom).busy q
    rcases hq with hq | hq
    · exact absurd (hbusy _ hq) (by simp [Ops.set, hidle])
    · exact absurd (hbusy _ hq) (by simp [Ops.set, hidle])
  · rw [slack_cons, update_self, slack_update k used hp]
    have hslack := slack_le k used ops
    have hlogsize : LOGSIZE = 30 := rfl
    have hmul : k * ops.length ≤ 9 * ops.length := Nat.mul_le_mul_right _ (Nat.le_of_lt_succ hk)
    have hk' : k < 10 := hk
    simp only [Ops.set, List.length_nil]
    by_cases hops : ops = []
    · have hzero := h.empty hops hidle
      rw [hops] at hmul hslack
      simp only [List.length_nil] at hmul hslack
      rw [hops]
      omega
    · have hpos := List.length_pos_iff.mpr hops
      omega

theorem Fits.logged (h : Fits k s used ops) (hpc : s.pc p = .inside) {b : Blockno}
    (hcap : ((used p).insert b).length ≤ k) {fresh : Bool}
    (henter : s.log.enter b = .ok (some (fresh, log))) :
    Fits k { s with log := log } (update used p ((used p).insert b)) ops := by
  have hentered := Log.enter_ok h.sound.count henter
  have hp := (h.sound.inside p).mpr hpc
  have hrest : p ∉ ops.erase p := fun hmem => (h.sound.nodup.mem_erase_iff.mp hmem).1 rfl
  refine ⟨h.sound.logged henter, ?_, ?_, ?_, ?_, ?_, hentered.size.trans h.size, h.panic⟩
  · exact nodup_update h.nodup (List.Nodup.insert (h.nodup p))
  · intro q hq c hc
    by_cases hqp : q = p
    · rw [hqp, update_self] at hc
      rcases List.mem_insert_iff.mp hc with rfl | hc
      · exact hentered.listed
      · exact hentered.kept c (h.listed p hp c hc)
    · rw [update_of_ne hqp] at hc
      exact hentered.kept c (h.listed q hq c hc)
  · intro hnil
    rw [hnil] at hp
    cases hp
  · intro q hq
    have hidle := h.sound.idle_of_inside hpc
    rcases hq with hq | hq
    · exact absurd (h.sound.busy q _ hq) (by simp [hidle])
    · exact absurd (h.sound.busy q _ hq) (by simp [hidle])
  · have hspace := h.space
    rw [slack_erase k used hp] at hspace
    rw [slack_erase k _ hp, slack_update k used hrest, update_self]
    simp only
    cases fresh with
    | false =>
      -- An absorbed block costs nothing, whether the operation had it or not.
      have hlen : (used p).length ≤ ((used p).insert b).length := List.length_le_length_insert
      rw [hentered.absorbed rfl]
      omega
    | true =>
      obtain ⟨hnew, hn⟩ := hentered.added rfl
      have hmem : b ∉ used p := fun hmem => hnew (h.listed p hp b hmem)
      rw [List.length_insert_of_not_mem hmem] at hcap ⊢
      omega

theorem Fits.ended (h : Fits k s used ops) (hpc : s.pc p = .inside) (hmore : s.log.outstanding - 1 ≠ 0) :
    Fits k ({ s with
      log := { s.log with outstanding := s.log.outstanding - 1 } }.set p .outside).wakeup used
      (ops.erase p) := by
  have hidle := h.sound.idle_of_inside hpc
  have hsound := h.sound.ended hpc hidle
  refine ⟨hsound, h.nodup, ?_, ?_, ?_, ?_, h.size, h.panic⟩
  · intro q hq
    exact h.listed q (List.mem_of_mem_erase hq)
  · intro hnil
    obtain ⟨hout, -⟩ := h.sound.length_erase hpc
    rw [hnil] at hout
    exact absurd (Int32.toInt_inj.mp hout) hmore
  · intro q hq
    rcases hq with hq | hq
    · exact absurd (hsound.busy q _ hq) (by simp [Ops.set, Ops.wakeup, hidle])
    · exact absurd (hsound.busy q _ hq) (by simp [Ops.set, Ops.wakeup, hidle])
  · have hspace := h.space
    rw [slack_erase k used ((h.sound.inside p).mpr hpc)] at hspace
    simp only [Ops.set, Ops.wakeup]
    omega

theorem Fits.last (h : Fits k s used ops) (hpc : s.pc p = .inside) (hzero : s.log.outstanding - 1 = 0) :
    Fits k ({ s with
      log := { s.log with outstanding := s.log.outstanding - 1 }
      committing := true }.set p (.committing .begun)) used [] := by
  have hidle := h.sound.idle_of_inside hpc
  refine ⟨h.sound.last hpc hidle hzero, h.nodup, ?_, ?_, ?_, ?_, h.size, h.panic⟩
  · intro q hq
    cases hq
  · intro _ hfalse
    cases hfalse
  · intro q hq
    have hpq : q ≠ p := by
      rintro rfl
      simp [Ops.set] at hq
    rw [Ops.set_pc_of_ne _ hpq] at hq
    exact h.cleared q hq
  · have hspace := h.space
    simp only [Ops.set, slack, List.map_nil, List.sum_nil]
    omega

theorem commit_cleared (hn : 0 ≤ s.log.lh.n.toInt) (hcommit : s.commit p stage = some s')
    (hs' : s'.pc p = .committing .eraseHead ∨ s'.pc p = .committing .returned) :
    stage = .eraseHead ∧ s'.log = s.log ∨ s'.log.lh.n.toInt = 0 := by
  have hloop : ∀ {w tail next after}, s.forEntry p w tail next after = some s' →
      s'.pc p = .committing next ∨ s'.pc p = .committing after := by
    intro w tail next after hentry
    unfold Ops.forEntry at hentry
    split at hentry
    · split at hentry
      · rw [← Option.some.inj hentry]
        exact .inl (Ops.set_pc_self ..)
      · cases hentry
    · rw [← Option.some.inj hentry]
      exact .inr (Ops.set_pc_self ..)
  cases stage with
  | begun =>
    rw [← Option.some.inj hcommit] at hs' ⊢
    rw [Ops.set_pc_self] at hs'
    by_cases hpos : 0 < s.log.lh.n
    · simp [hpos] at hs'
    · rw [Int32.lt_iff_toInt_lt, show (0 : Int32).toInt = 0 from rfl] at hpos
      right
      simp only [Ops.set]
      omega
  | writeLog tail =>
    rcases hloop hcommit with heq | heq <;> simp [heq] at hs'
  | writeHead =>
    rw [← Option.some.inj hcommit, Ops.set_pc_self] at hs'
    simp at hs'
  | installTrans tail =>
    rcases hloop hcommit with heq | heq <;> simp [heq] at hs'
  | clear =>
    rw [← Option.some.inj hcommit]
    exact .inr rfl
  | eraseHead =>
    rw [← Option.some.inj hcommit]
    exact .inl ⟨rfl, rfl⟩
  | returned => cases hcommit

theorem Fits.committed (h : Fits k s used ops) (hpc : s.pc p = .committing stage)
    (hcommit : s.commit p stage = some s') : Fits k s' used ops := by
  have hcommitted := Ops.commit_committed hcommit
  have hsound := h.sound.committed hpc hcommitted
  have hbusy := h.sound.busy p stage hpc
  have hnone := (h.sound.committing hbusy).1
  have hcount := h.sound.count
  refine ⟨hsound, h.nodup, ?_, ?_, ?_, ?_, ?_, ?_⟩
  · intro q hq
    rw [hnone] at hq
    cases hq
  · intro _ hidle
    simp only [hcommitted.committing, hbusy] at hidle
    cases hidle
  · intro q hq
    obtain ⟨stage', hpc'⟩ := hcommitted.pc
    have hqp : q = p := by
      by_contra hqp
      simp only [hpc', update_of_ne hqp] at hq
      rcases hq with hq | hq
      · exact hqp (h.sound.only q p _ _ hq hpc)
      · exact hqp (h.sound.only q p _ _ hq hpc)
    rw [hqp] at hq
    rcases commit_cleared hcount hcommit hq with ⟨hstage, hlog⟩ | hzero
    · simp only [hlog]
      exact h.cleared p (.inl (hstage ▸ hpc))
    · exact hzero
  · have hspace := h.space
    rcases hcommitted.log with hlog | hlog
    · simp only [hlog]
      exact hspace
    · simp only [hlog, Log.clear]
      rw [show (0 : Int32).toInt = 0 from rfl]
      omega
  · rcases hcommitted.log with hlog | hlog <;> simp only [hlog] <;> exact h.size
  · simp only [hcommitted.panic]
    exact h.panic

theorem Fits.finished (h : Fits k s used ops) (hpc : s.pc p = .committing .returned) :
    Fits k (s.finish p) used ops := by
  have hzero := h.cleared p (.inr hpc)
  exact ⟨h.sound.finished hpc, h.nodup, h.listed, fun _ _ => hzero, fun _ _ => hzero, h.space,
    h.size, h.panic⟩

theorem Fits.step (hk : k < MAXOPBLOCKS) (h : Fits k m.ops m.used ops) {e : Event P}
    (hstep : m.step k e = some m') :
    ∃ ops', Fits k m'.ops m'.used ops' := by
  cases e with
  | beginOp p =>
    obtain ⟨s', hs', rfl⟩ := Option.map_eq_some_iff.mp hstep
    cases (Ops.stepped_of_step hs').2 with
    | slept hpc => exact ⟨ops, h.slept hpc⟩
    | began hpc hidle hroom => exact ⟨_, h.began hk hpc hidle hroom⟩
  | logWrite p b =>
    simp only [Metered.step, Option.ite_none_right_eq_some] at hstep
    obtain ⟨⟨hpc, hcap⟩, hstep⟩ := hstep
    obtain ⟨s', hs', rfl⟩ := Option.map_eq_some_iff.mp hstep
    cases (Ops.stepped_of_step hs').2 with
    | refused _ henter =>
      have hspace := h.space
      have hout := h.sound.outstanding
      have hpos := List.length_pos_of_mem ((h.sound.inside p).mpr hpc)
      exact absurd henter (enter_ne_error h.size (by omega) (by omega) b _)
    | logged _ henter => exact ⟨ops, h.logged hpc hcap henter⟩
  | endOp p =>
    obtain ⟨s', hs', rfl⟩ := Option.map_eq_some_iff.mp hstep
    cases (Ops.stepped_of_step hs').2 with
    | torn hpc hcommit =>
      rw [h.sound.idle_of_inside hpc] at hcommit
      cases hcommit
    | last hpc _ hzero => exact ⟨[], h.last hpc hzero⟩
    | ended hpc _ hmore => exact ⟨_, h.ended hpc hmore⟩
  | commit p =>
    obtain ⟨s', hs', rfl⟩ := Option.map_eq_some_iff.mp hstep
    cases (Ops.stepped_of_step hs').2 with
    | committed hpc hcommit => exact ⟨ops, h.committed hpc hcommit⟩
  | finish p =>
    obtain ⟨s', hs', rfl⟩ := Option.map_eq_some_iff.mp hstep
    cases (Ops.stepped_of_step hs').2 with
    | finished hpc => exact ⟨ops, h.finished hpc⟩

theorem run_mono {k' : Nat} (hk : k ≤ k') {events : List (Event P)}
    (hrun : run (step k) m events = some m') : run (step k') m events = some m' := by
  induction events generalizing m with
  | nil => exact hrun
  | cons e events ih =>
    obtain ⟨t, hstep, ht⟩ := run_cons_eq_some.mp hrun
    refine run_cons_eq_some.mpr ⟨t, ?_, ih ht⟩
    cases e with
    | logWrite p b =>
      simp only [step, Option.ite_none_right_eq_some] at hstep ⊢
      exact ⟨⟨hstep.1.1, Nat.le_trans hstep.1.2 hk⟩, hstep.2⟩
    | beginOp p => exact hstep
    | endOp p => exact hstep
    | commit p => exact hstep
    | finish p => exact hstep

def threeOps : List (Event (Fin 3)) :=
  [.beginOp 0, .beginOp 1, .beginOp 2] ++
    (List.range 30).map fun i => .logWrite (Fin.ofNat 3 i) (46 + UInt32.ofNat i)

theorem threeOps_panic :
    (run (step MAXOPBLOCKS) (init 2 fun _ => 0) threeOps).map (·.ops.panic) =
      some (some .tooBigTransaction) := by
  decide +kernel

-- The space that `begin_op` reserves is enough for operations of up to `k`
-- distinct blocks exactly if `k` is less than `MAXOPBLOCKS`.
theorem reservation_suffices_iff (k : Nat) :
    (∀ (Q : Type) [DecidableEq Q] (start : Blockno) (block : Fin LOGSIZE → Blockno)
      (events : List (Event Q)) (m : Metered Q),
      run (step k) (init start block) events = some m →
        m.ops.panic ≠ some .tooBigTransaction) ↔ k < MAXOPBLOCKS := by
  constructor
  · intro hsafe
    by_contra hk
    obtain ⟨m, hrun, hpanic⟩ := Option.map_eq_some_iff.mp threeOps_panic
    exact hsafe (Fin 3) 2 (fun _ => 0) threeOps m (run_mono (Nat.not_lt.mp hk) hrun) hpanic
  · intro hk Q _ start block events m hrun
    have hfits : ∃ ops, Fits k m.ops m.used ops :=
      run_invariant (I := fun m : Metered Q => ∃ ops, Fits k m.ops m.used ops)
        (fun _ _ _ ⟨_, h⟩ hstep => h.step hk hstep) ⟨[], init_fits k start block⟩ hrun
    obtain ⟨ops, h⟩ := hfits
    exact h.panic

-- The last of the thirty blocks does not fit: the log of 30 blocks that mkfs
-- makes has its header in one of them.
theorem three_operations_too_big : ∃ m : Metered (Fin 3),
    run (step MAXOPBLOCKS) (init 2 fun _ => 0) threeOps = some m ∧
      m.ops.panic = some .tooBigTransaction :=
  Option.map_eq_some_iff.mp threeOps_panic

end Metered

end Xv6Ringbuf.Fs
