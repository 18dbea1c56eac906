import Xv6Ringbuf.Fs.ItableLocked

namespace Xv6Ringbuf.Fs.Itable

open Function

variable {P : Type} [DecidableEq P]

variable {t t' : Itable P} {p : P} {i : Ip} {stage : Freeing}

theorem Coherent.decrement (h : Coherent t) (hpanic : t.panic = none) (hmem : (p, i) ∈ t.refs)
    (hkeeps : t.lock i = some p → 2 ≤ t.refs.count (p, i))
    (hpc : ∀ j stage, t.pc p = .freeing j stage → stage = .decrement ∧ j = i) :
    Coherent ((t.decrement p i).goto p .idle) := by
  have href := h.ref_pos hmem
  have hsame : ∀ j, ((t.table.drop i) j).valid = (t.table j).valid ∧
      ((t.table.drop i) j).din = (t.table j).din ∧ ((t.table.drop i) j).dev = (t.table j).dev ∧
      ((t.table.drop i) j).inum = (t.table j).inum := by
    intro j
    by_cases hji : j = i
    · simp [hji, Table.drop]
    · simp [Table.drop, update_of_ne hji]
  have hle : ∀ j, 0 < ((t.table.drop i) j).ref → 0 < (t.table j).ref := by
    intro j hj
    by_cases hji : j = i
    · rw [hji]
      exact href
    · simpa [Table.drop, update_of_ne hji] using hj
  refine ⟨h.unique.drop i, ?_, ?_, h.clean, ?_, ?_⟩
  · intro j
    have hcount := h.count j
    rw [count_map_erase hmem] at hcount
    by_cases hji : j = i
    · subst hji
      simp only [if_true] at hcount
      simp [Itable.goto, Itable.decrement, Table.drop, hcount]
    · simp only [if_neg (Ne.symm hji)] at hcount
      simpa [Itable.goto, Itable.decrement, Table.drop, update_of_ne hji] using hcount
  · exact fun j r hr => mem_erase_of_lock (h.holder j r hr) hr hkeeps
  · intro r
    by_cases hrp : r = p
    · rw [hrp]
      exact standing_idle _ p
    · refine (h.standing r).congr (goto_pc_of_ne _ hrp _) (fun _ => Iff.rfl) (fun _ _ h => h) ?_ ?_
      · intro j hr _
        have hne : (r, j) ≠ (p, i) := fun heq => hrp (Prod.mk.inj heq).1
        exact (List.mem_erase_of_ne hne).mpr hr
      · intro j _ hvalid _
        exact (hsame j).1.trans hvalid
  · intro j hj hvalid
    obtain ⟨hvalid', hdin, hdev, hinum⟩ := hsame j
    refine .inr ((h.meets hpanic (hle j hj) (hvalid'.symm.trans hvalid)).congr ?_ rfl hdin ?_)
    · apply duty_goto_eq
      intro hlock
      cases hp : t.pc p with
      | freeing k stage =>
        obtain ⟨rfl, rfl⟩ := hpc k stage hp
        have hnot := ((h.standing p).freeing k .decrement hp).2.2.1 rfl
        have hjk : j ≠ k := by
          rintro rfl
          exact hnot hlock
        simp only [Itable.decrement, hp]
        rw [duty_freeing_of_ne hjk]
        rfl
      | idle => simp [Itable.decrement, hp]
      | loading k => simp [Itable.decrement, hp, ItablePc.duty]
      | scanning dev type inum => simp [Itable.decrement, hp, ItablePc.duty]
      | getting dev inum => simp [Itable.decrement, hp, ItablePc.duty]
    · change t.disk ((t.table.drop i) j).dev ((t.table.drop i) j).inum = _
      rw [hdev, hinum]
      rfl

theorem goto_self {pc : ItablePc} (hpc : t.pc p = pc) : t.goto p pc = t := by
  rw [goto, ← hpc, update_eq_self]

theorem Coherent.iput (h : Coherent t) (hpanic : t.panic = none) (hpc : t.pc p = .idle)
    (hmem : (p, i) ∈ t.refs) (hkeeps : t.lock i = some p → 2 ≤ t.refs.count (p, i))
    (hput : t.iput p i = some t') :
    Coherent t' := by
  unfold Itable.iput at hput
  split at hput
  · simp only [Option.ite_none_right_eq_some, Option.some.injEq] at hput
    obtain ⟨hfree, rfl⟩ := hput
    have hclean := h.clean i hfree
    have htouch : Touched t p i { t with lock := update t.lock i (some p) } :=
      .lock_self (mine_of_none hfree p) (.inr rfl)
    refine h.touch hpanic (htouch.trans (.goto htouch.mine ?_)) (fun _ => hmem) ?_ ?_ ?_
    · intro j hji
      rw [duty_freeing_of_ne hji]
      simp [hpc, ItablePc.duty]
    · exact fun _ => hclean
    · constructor
      · intro j hj
        rw [goto_pc_self] at hj
        cases hj
      · intro j stage hj
        rw [goto_pc_self] at hj
        cases hj
        refine ⟨hmem, fun _ => ⟨update_self _ _ _, hclean⟩, ?_, ?_⟩
        · intro hstage
          cases hstage
        · intro hstage
          cases hstage
    · intro href hvalid
      right
      have hold := h.meets hpanic href hvalid
      simp only [Meets, duty, hfree] at hold
      refine (meets_of_lock (p := p) ?_).mpr ?_
      · exact update_self ..
      rw [goto_pc_self]
      simp only [ItablePc.duty, if_true]
      exact ⟨hold.1, hold.2.1⟩
  · have hdropped := h.decrement hpanic hmem hkeeps fun j stage hj => absurd (hpc.symm.trans hj) (by simp)
    rw [goto_self (by exact hpc)] at hdropped
    rw [← Option.some.inj hput]
    exact hdropped

omit [DecidableEq P] in
theorem Coherent.free_locked (h : Coherent t) (hpanic : t.panic = none) {stage' : Freeing}
    (hpc : t.pc p = .freeing i stage) (htouch : Touched t p i t') (hpc' : t'.pc p = .freeing i stage')
    (hlock' : stage' ≠ .decrement → t'.lock i = some p ∧ t'.dirty i = false)
    (hunlock' : stage' = .decrement → t'.lock i = none ∧ t'.dirty i = false)
    (hvalid' : stage' = .releasesleep ∨ stage' = .decrement → (t'.table i).valid = false)
    (hentry : t.Meets i → (t'.table i).valid = true →
      ((ItablePc.freeing i stage').duty i).Meets (t'.dirty i) (t'.table i).din (t'.home i))
    (hkept : (t'.table i).valid = true → (t.table i).valid = true) : Coherent t' := by
  obtain ⟨hmem, -⟩ := (h.standing p).freeing i stage hpc
  refine h.touch hpanic htouch (fun _ => hmem) ?_ ?_ ?_
  · intro hnone
    by_cases hs : stage' = .decrement
    · exact (hunlock' hs).2
    · exact (hlock' hs).2
  · constructor
    · intro j hj
      rw [hpc'] at hj
      cases hj
    · intro j stage'' hj
      rw [hpc'] at hj
      cases hj
      refine ⟨by rw [htouch.refs]; exact hmem, hlock', ?_, fun hs => hvalid' (.inl hs)⟩
      intro hs hlocked
      rw [(hunlock' hs).1] at hlocked
      cases hlocked
  · intro href hvalid
    right
    by_cases hs : stage' = .decrement
    · rw [hvalid' (.inr hs)] at hvalid
      cases hvalid
    · refine (meets_of_lock (hlock' hs).1).mpr ?_
      rw [hpc']
      exact hentry (h.meets hpanic href (hkept hvalid)) hvalid

theorem Coherent.free (h : Coherent t) (hpanic : t.panic = none) (hpc : t.pc p = .freeing i stage) :
    Coherent (t.free p i stage) := by
  obtain ⟨hmem, hheld, hreleased, hinvalid⟩ := (h.standing p).freeing i stage hpc
  have href := h.ref_pos hmem
  have hmoves : ∀ {t' : Itable P} {stage' : Freeing}, Touched t p i t' → t'.pc p = t.pc p →
      Touched t p i (t'.goto p (.freeing i stage')) := by
    intro t' stage' htouch hsame
    refine htouch.trans (.goto htouch.mine ?_)
    intro j hji
    rw [duty_freeing_of_ne hji, hsame, hpc, duty_freeing_of_ne hji]
  cases stage with
  | itrunc =>
    obtain ⟨hlock, hdirty⟩ := hheld (by simp)
    have htouch : Touched t p i (t.setEntry i { t.table i with
        din := { (t.table i).din with size := 0, addrs := fun _ => 0 } }) :=
      .setEntry (mine_of_lock hlock) ⟨rfl, rfl, rfl⟩
    have hflush := htouch.trans (.flush htouch.mine (htouch.unique h.unique) (by
      rw [htouch.self.1]
      exact href))
    refine h.free_locked hpanic hpc (hmoves hflush rfl) (goto_pc_self ..) ?_ ?_ ?_ ?_ ?_
    · exact fun _ => ⟨hlock, update_self _ _ _⟩
    · intro hs
      cases hs
    · rintro (hs | hs) <;> cases hs
    · intro hmeets _
      rw [meets_of_lock hlock, hpc] at hmeets
      simp only [ItablePc.duty, if_true, Duty.Meets] at hmeets ⊢
      refine ⟨?_, ?_⟩
      · change (Itable.home (Itable.flush _ i) i).type ≠ 0
        rw [home_flush_self]
        simpa [setEntry] using hmeets.2
      · simpa [Itable.free, Itable.goto, Itable.flush, setDisk, setEntry] using hmeets.2
    · simp [Itable.free, Itable.goto, Itable.flush, setDisk, setEntry]
  | clearType =>
    obtain ⟨hlock, hdirty⟩ := hheld (by simp)
    have htouch : Touched t p i (t.setEntry i { t.table i with
        din := { (t.table i).din with type := 0 } }) :=
      .setEntry (mine_of_lock hlock) ⟨rfl, rfl, rfl⟩
    refine h.free_locked hpanic hpc (hmoves htouch rfl) (goto_pc_self ..) ?_ ?_ ?_ ?_ ?_
    · exact fun _ => ⟨hlock, hdirty⟩
    · intro hs
      cases hs
    · rintro (hs | hs) <;> cases hs
    · intro hmeets _
      rw [meets_of_lock hlock, hpc] at hmeets
      simp only [ItablePc.duty, if_true, Duty.Meets] at hmeets ⊢
      change (Itable.home (t.setEntry i { t.table i with
        din := { (t.table i).din with type := 0 } }) i).type ≠ 0
      rw [home_setEntry t i { t.table i with din := { (t.table i).din with type := 0 } } rfl rfl i]
      exact hmeets.1
    · simp [Itable.free, Itable.goto, setEntry]
  | iupdate =>
    obtain ⟨hlock, hdirty⟩ := hheld (by simp)
    refine h.free_locked hpanic hpc (hmoves (.flush (mine_of_lock hlock) h.unique href) rfl)
      (goto_pc_self ..) ?_ ?_ ?_ ?_ ?_
    · exact fun _ => ⟨hlock, update_self _ _ _⟩
    · intro hs
      cases hs
    · rintro (hs | hs) <;> cases hs
    · intro _ _
      simp [ItablePc.duty, Duty.Meets]
    · exact fun hvalid => hvalid
  | invalidate =>
    obtain ⟨hlock, hdirty⟩ := hheld (by simp)
    have hnone : (((t.setEntry i { t.table i with valid := false }).goto p
        (.freeing i .releasesleep)).table i).valid = false := by
      simp [Itable.goto, setEntry]
    refine h.free_locked hpanic hpc
      (hmoves (.setEntry (mine_of_lock hlock) ⟨rfl, rfl, rfl⟩) rfl) (goto_pc_self ..) ?_ ?_ ?_ ?_ ?_
    · exact fun _ => ⟨hlock, hdirty⟩
    · intro hs
      cases hs
    · exact fun _ => hnone
    · intro _ hvalid
      exact absurd (hnone.symm.trans hvalid) (by simp)
    · intro hvalid
      exact absurd (hnone.symm.trans hvalid) (by simp)
  | releasesleep =>
    obtain ⟨hlock, hdirty⟩ := hheld (by simp)
    refine h.free_locked hpanic hpc (hmoves (.lock_self (mine_of_lock hlock) (.inl rfl)) rfl)
      (goto_pc_self ..) ?_ ?_ ?_ ?_ ?_
    · intro hs
      exact absurd rfl hs
    · exact fun _ => ⟨update_self _ _ _, hdirty⟩
    · exact fun _ => hinvalid rfl
    · intro _ hvalid
      exact absurd ((hinvalid rfl).symm.trans hvalid) (by simp)
    · exact fun hvalid => hvalid
  | decrement =>
    apply h.decrement hpanic hmem
    · intro hlock
      exact absurd hlock (hreleased rfl)
    · intro j stage hj
      rw [hpc] at hj
      cases hj
      exact ⟨rfl, rfl⟩

end Xv6Ringbuf.Fs.Itable
