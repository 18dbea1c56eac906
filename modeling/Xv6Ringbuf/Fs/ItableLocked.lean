import Xv6Ringbuf.Fs.ItableStep

namespace Xv6Ringbuf.Fs.Itable

open Function

section Touch

variable {P : Type}

structure Touched (t : Itable P) (p : P) (i : Ip) (t' : Itable P) : Prop where
  refs : t'.refs = t.refs
  table : ∀ j, j ≠ i → t'.table j = t.table j
  self : (t'.table i).ref = (t.table i).ref ∧ (t'.table i).dev = (t.table i).dev ∧
    (t'.table i).inum = (t.table i).inum
  lock : ∀ j, j ≠ i → t'.lock j = t.lock j
  dirty : ∀ j, j ≠ i → t'.dirty j = t.dirty j
  pc : ∀ q, q ≠ p → t'.pc q = t.pc q
  owner : ∀ q, q ≠ p → t.lock i ≠ some q ∧ t'.lock i ≠ some q
  home : ∀ j, j ≠ i → 0 < (t.table j).ref → t'.home j = t.home j
  duty : ∀ j, j ≠ i → t'.duty j = t.duty j

variable {t t' : Itable P} {p : P} {i j : Ip}

theorem Touched.unique (htouch : Touched t p i t') (h : t.table.Unique) : t'.table.Unique := by
  have hsame : ∀ j, (t'.table j).ref = (t.table j).ref ∧ (t'.table j).dev = (t.table j).dev ∧
      (t'.table j).inum = (t.table j).inum := by
    intro j
    by_cases hji : j = i
    · rw [hji]
      exact htouch.self
    · rw [htouch.table j hji]
      exact ⟨rfl, rfl, rfl⟩
  intro j k hj hk hdev hinum
  rw [(hsame j).1] at hj
  rw [(hsame k).1] at hk
  rw [(hsame j).2.1, (hsame k).2.1] at hdev
  rw [(hsame j).2.2, (hsame k).2.2] at hinum
  exact h j k hj hk hdev hinum

theorem Coherent.touch (h : Coherent t) (hpanic : t.panic = none) (htouch : Touched t p i t')
    (hholder : t'.lock i = some p → (p, i) ∈ t.refs) (hclean : t'.lock i = none → t'.dirty i = false)
    (hstanding : Standing t' p) (hentry : 0 < (t.table i).ref → (t'.table i).valid = true →
      t'.panic = some .ilockNoType ∧ t'.lock i ≠ none ∨ t'.Meets i) : Coherent t' := by
  refine ⟨htouch.unique h.unique, ?_, ?_, ?_, ?_, ?_⟩
  · intro j
    rw [htouch.refs, ← h.count j]
    by_cases hji : j = i
    · rw [hji]
      exact htouch.self.1
    · rw [htouch.table j hji]
  · intro j q hq
    rw [htouch.refs]
    by_cases hji : j = i
    · subst hji
      by_cases hqp : q = p
      · rw [hqp] at hq ⊢
        exact hholder hq
      · exact absurd hq (htouch.owner q hqp).2
    · rw [htouch.lock j hji] at hq
      exact h.holder j q hq
  · intro j hj
    by_cases hji : j = i
    · rw [hji] at hj ⊢
      exact hclean hj
    · rw [htouch.lock j hji] at hj
      rw [htouch.dirty j hji]
      exact h.clean j hj
  · intro q
    by_cases hqp : q = p
    · rw [hqp]
      exact hstanding
    · have hne : ∀ j, t.lock j = some q → j ≠ i := by
        rintro j hj rfl
        exact (htouch.owner q hqp).1 hj
      apply (h.standing q).congr (htouch.pc q hqp)
      · intro j
        by_cases hji : j = i
        · subst hji
          exact ⟨fun hj => absurd hj (htouch.owner q hqp).2, fun hj => absurd hj (htouch.owner q hqp).1⟩
        · rw [htouch.lock j hji]
      · intro j hj hdirty
        rw [htouch.dirty j (hne j hj)]
        exact hdirty
      · intro j hmem _
        rw [htouch.refs]
        exact hmem
      · intro j _ hvalid hj
        rw [htouch.table j (hne j hj)]
        exact hvalid
  · intro j href hvalid
    by_cases hji : j = i
    · subst hji
      rw [htouch.self.1] at href
      exact hentry href hvalid
    · rw [htouch.table j hji] at href hvalid
      exact .inr ((h.meets hpanic href hvalid).congr (htouch.duty j hji) (htouch.dirty j hji)
        (by rw [htouch.table j hji]) (htouch.home j hji href))

theorem home_setEntry (t : Itable P) (i : Ip) (entry : Inode) (hdev : entry.dev = (t.table i).dev)
    (hinum : entry.inum = (t.table i).inum) (j : Ip) : (t.setEntry i entry).home j = t.home j := by
  by_cases hji : j = i
  · subst hji
    simp [home, setEntry, hdev, hinum]
  · simp [home, setEntry, update_of_ne hji]

theorem home_flush_self (t : Itable P) (i : Ip) : (t.flush i).home i = (t.table i).din := by
  simp [home, flush, setDisk]

theorem home_flush_of_ne (h : t.table.Unique) (hji : j ≠ i) (hi : 0 < (t.table i).ref)
    (hj : 0 < (t.table j).ref) : (t.flush i).home j = t.home j := by
  simp only [home, flush, setDisk]
  by_cases hdev : (t.table j).dev = (t.table i).dev
  · have hinum : (t.table j).inum ≠ (t.table i).inum := fun hinum => hji (h j i hj hi hdev hinum)
    rw [hdev, update_self, update_of_ne hinum]
  · rw [update_of_ne hdev]

def Mine (t : Itable P) (p : P) (i : Ip) : Prop := ∀ q, q ≠ p → t.lock i ≠ some q

theorem mine_of_lock (hlock : t.lock i = some p) : t.Mine p i := by
  rintro q hqp heq
  rw [hlock] at heq
  exact hqp (Option.some.inj heq).symm

theorem mine_of_none (hlock : t.lock i = none) (p : P) : t.Mine p i := by
  rintro q - heq
  rw [hlock] at heq
  cases heq

theorem Touched.setEntry (hmine : t.Mine p i) {entry : Inode}
    (hself : entry.ref = (t.table i).ref ∧ entry.dev = (t.table i).dev ∧
      entry.inum = (t.table i).inum) : Touched t p i (t.setEntry i entry) := by
  refine ⟨rfl, ?_, ?_, fun _ _ => rfl, fun _ _ => rfl, fun _ _ => rfl, ?_, ?_, fun _ _ => rfl⟩
  · exact fun j hji => update_of_ne hji _ _
  · simpa [Itable.setEntry] using hself
  · exact fun q hqp => ⟨hmine q hqp, hmine q hqp⟩
  · exact fun j _ _ => home_setEntry t i entry hself.2.1 hself.2.2 j

theorem Touched.flush (hmine : t.Mine p i) (h : t.table.Unique) (hi : 0 < (t.table i).ref) :
    Touched t p i (t.flush i) :=
  ⟨rfl, fun _ _ => rfl, ⟨rfl, rfl, rfl⟩, fun _ _ => rfl, fun _ hji => update_of_ne hji _ _,
    fun _ _ => rfl, fun q hqp => ⟨hmine q hqp, hmine q hqp⟩,
    fun _ hji hj => home_flush_of_ne h hji hi hj, fun _ _ => rfl⟩

theorem Touched.mark (hmine : t.Mine p i) (dirty : Bool) :
    Touched t p i { t with dirty := update t.dirty i dirty } :=
  ⟨rfl, fun _ _ => rfl, ⟨rfl, rfl, rfl⟩, fun _ _ => rfl, fun _ hji => update_of_ne hji _ _,
    fun _ _ => rfl, fun q hqp => ⟨hmine q hqp, hmine q hqp⟩, fun _ _ _ => rfl, fun _ _ => rfl⟩

theorem Touched.lock_self (hmine : t.Mine p i) {lock : Option P} (hlock : lock = none ∨ lock = some p) :
    Touched t p i { t with lock := update t.lock i lock } := by
  refine ⟨rfl, fun _ _ => rfl, ⟨rfl, rfl, rfl⟩, ?_, fun _ _ => rfl, fun _ _ => rfl, ?_,
    fun _ _ _ => rfl, ?_⟩
  · exact fun j hji => update_of_ne hji _ _
  · intro q hqp
    refine ⟨hmine q hqp, ?_⟩
    rcases hlock with rfl | rfl
    · simp
    · simpa using Ne.symm hqp
  · intro j hji
    simp [Itable.duty, update_of_ne hji]

theorem Touched.trans {t'' : Itable P} (h : Touched t p i t') (h' : Touched t' p i t'') :
    Touched t p i t'' := by
  refine ⟨h'.refs.trans h.refs, ?_, ?_, ?_, ?_, ?_, ?_, ?_, ?_⟩
  · exact fun j hji => (h'.table j hji).trans (h.table j hji)
  · exact ⟨h'.self.1.trans h.self.1, h'.self.2.1.trans h.self.2.1, h'.self.2.2.trans h.self.2.2⟩
  · exact fun j hji => (h'.lock j hji).trans (h.lock j hji)
  · exact fun j hji => (h'.dirty j hji).trans (h.dirty j hji)
  · exact fun q hqp => (h'.pc q hqp).trans (h.pc q hqp)
  · exact fun q hqp => ⟨(h.owner q hqp).1, (h'.owner q hqp).2⟩
  · intro j hji hj
    rw [h'.home j hji (by rw [h.table j hji]; exact hj), h.home j hji hj]
  · exact fun j hji => (h'.duty j hji).trans (h.duty j hji)

theorem duty_freeing_of_ne (hji : j ≠ i) (stage : Freeing) :
    (ItablePc.freeing i stage).duty j = .full := by
  simp [ItablePc.duty, Ne.symm hji]

theorem Touched.mine (h : Touched t p i t') : t'.Mine p i :=
  fun q hqp => (h.owner q hqp).2

theorem meets_of_lock (hlock : t.lock i = some p) :
    t.Meets i ↔ ((t.pc p).duty i).Meets (t.dirty i) (t.table i).din (t.home i) := by
  simp only [Meets, duty, hlock]

theorem Coherent.change (h : Coherent t) (hpanic : t.panic = none) (hpc : t.pc p = .idle)
    (hlock : t.lock i = some p) {din : Dinode} (htyped : din.type ≠ 0) :
    Coherent { t.setEntry i { t.table i with din := din } with
      dirty := update t.dirty i true } := by
  have htouch : Touched t p i (t.setEntry i { t.table i with din := din }) :=
    .setEntry (mine_of_lock hlock) ⟨rfl, rfl, rfl⟩
  refine h.touch hpanic (htouch.trans (.mark htouch.mine true)) (fun _ => h.holder i p hlock) ?_ ?_ ?_
  · intro hnone
    exact absurd (hlock.symm.trans hnone) (by simp)
  · exact .idle ⟨fun j hj => absurd (hpc.symm.trans hj) (by simp),
      fun j stage hj => absurd (hpc.symm.trans hj) (by simp)⟩
  · intro href hvalid
    right
    have hold := h.meets hpanic href (by simpa [setEntry] using hvalid)
    rw [meets_of_lock hlock, hpc] at hold
    refine (meets_of_lock (p := p) ?_).mpr ?_
    · exact hlock
    change ((t.pc p).duty i).Meets _ _ _
    rw [hpc]
    refine ⟨?_, ?_, ?_⟩
    · change (Itable.home (t.setEntry i { t.table i with din := din }) i).type ≠ 0
      rw [home_setEntry t i { t.table i with din := din } rfl rfl i]
      exact hold.1
    · simpa [setEntry] using htyped
    · intro hclean
      simp at hclean

theorem Coherent.flush (h : Coherent t) (hpanic : t.panic = none) (hpc : t.pc p = .idle)
    (hlock : t.lock i = some p) : Coherent (t.flush i) := by
  have hmem := h.holder i p hlock
  refine h.touch hpanic (.flush (mine_of_lock hlock) h.unique (h.ref_pos hmem)) (fun _ => hmem) ?_ ?_ ?_
  · exact fun _ => by simp [Itable.flush]
  · exact .idle ⟨fun j hj => absurd (hpc.symm.trans hj) (by simp),
      fun j stage hj => absurd (hpc.symm.trans hj) (by simp)⟩
  · intro href hvalid
    right
    have hold := h.meets hpanic href hvalid
    rw [meets_of_lock hlock, hpc] at hold
    refine (meets_of_lock (p := p) ?_).mpr ?_
    · exact hlock
    change ((t.pc p).duty i).Meets _ _ _
    rw [hpc, home_flush_self]
    exact ⟨hold.2.1, hold.2.1, fun _ => rfl⟩

end Touch

variable {P : Type} [DecidableEq P]

variable {t : Itable P} {p : P} {i : Ip}

theorem Touched.goto (hmine : t.Mine p i) {pc : ItablePc}
    (hduty : ∀ j, j ≠ i → pc.duty j = (t.pc p).duty j) : Touched t p i (t.goto p pc) :=
  ⟨rfl, fun _ _ => rfl, ⟨rfl, rfl, rfl⟩, fun _ _ => rfl, fun _ _ => rfl,
    fun _ hqp => goto_pc_of_ne t hqp pc, fun q hqp => ⟨hmine q hqp, hmine q hqp⟩, fun _ _ _ => rfl,
    fun j hji => duty_goto_eq t fun _ => hduty j hji⟩

theorem standing_idle (t : Itable P) (p : P) : Standing (t.goto p .idle) p :=
  .idle ⟨fun j => by simp [goto_pc_self], fun j stage => by simp [goto_pc_self]⟩

theorem Coherent.load (h : Coherent t) (hpanic : t.panic = none) (hpc : t.pc p = .loading i) :
    Coherent (t.load p i) := by
  obtain ⟨hlock, hdirty⟩ := (h.standing p).loading i hpc
  have hmem := h.holder i p hlock
  have hmine := mine_of_lock hlock
  unfold Itable.load
  split
  · exact h.goto hpanic (fun j _ => by simp [ItablePc.duty, hpc]) (standing_idle t p)
  · dsimp only
    have htouch : Touched t p i (t.setEntry i { t.table i with valid := true, din := t.home i }) :=
      .setEntry hmine ⟨rfl, rfl, rfl⟩
    have hhome := home_setEntry t i { t.table i with valid := true, din := t.home i } rfl rfl i
    have hdin : ((t.setEntry i { t.table i with valid := true, din := t.home i }).table i).din =
        t.home i := by
      simp [setEntry]
    split
    · refine h.touch hpanic ⟨htouch.refs, htouch.table, htouch.self, htouch.lock, htouch.dirty,
        htouch.pc, htouch.owner, htouch.home, htouch.duty⟩ (fun _ => hmem) ?_ ?_ ?_
      · intro hnone
        exact absurd (hlock.symm.trans hnone) (by simp)
      · exact ⟨(h.standing p).loading, fun j stage hj => absurd (hpc.symm.trans hj) (by simp)⟩
      · exact fun _ _ => .inl ⟨rfl, fun hnone => absurd (hlock.symm.trans hnone) (by simp)⟩
    · rename_i htyped
      refine h.touch hpanic (htouch.trans (.goto htouch.mine ?_)) (fun _ => hmem) ?_ (standing_idle _ p) ?_
      · intro j _
        change _ = (t.pc p).duty j
        simp [ItablePc.duty, hpc]
      · intro hnone
        exact absurd (hlock.symm.trans hnone) (by simp)
      · intro _ _
        right
        refine (meets_of_lock (p := p) ?_).mpr ?_
        · exact hlock
        rw [goto_pc_self]
        refine ⟨?_, ?_, ?_⟩
        · exact fun hzero => htyped (hhome ▸ hzero)
        · exact fun hzero => htyped (hdin ▸ hzero)
        · exact fun _ => hdin.trans hhome.symm

theorem Coherent.iunlock (h : Coherent t) (hpanic : t.panic = none) (hpc : t.pc p = .idle)
    (hlock : t.lock i = some p) (hclean : t.dirty i = false) :
    Coherent (t.iunlock p i) := by
  have href := h.ref_pos (h.holder i p hlock)
  unfold Itable.iunlock
  rw [if_neg (by simp only [hlock, ne_eq, not_true_eq_false, false_or]; omega)]
  refine h.touch hpanic (.lock_self (mine_of_lock hlock) (.inl rfl)) ?_ (fun _ => hclean) ?_ ?_
  · intro hlocked
    simp at hlocked
  · exact .idle ⟨fun j hj => absurd (hpc.symm.trans hj) (by simp),
      fun j stage hj => absurd (hpc.symm.trans hj) (by simp)⟩
  · intro href hvalid
    right
    have hold := h.meets hpanic href hvalid
    refine hold.congr ?_ rfl rfl rfl
    simp [duty, ItablePc.duty, hlock, hpc]

end Xv6Ringbuf.Fs.Itable
