import Xv6Ringbuf.Fs.ItableFree

namespace Xv6Ringbuf.Fs.Itable

open Trace Function

variable {P : Type} [DecidableEq P]

variable {t : Itable P} {dev inum ninodes : UInt32}

omit [DecidableEq P] in
theorem Coherent.alloc (h : Coherent t) (hpanic : t.panic = none) (hfree : (t.disk dev inum).type = 0)
    (din : Dinode) : Coherent (t.setDisk dev inum din) := by
  refine ⟨h.unique, h.count, h.holder, h.clean,
    fun p => ⟨(h.standing p).loading, (h.standing p).freeing⟩, ?_⟩
  intro i href hvalid
  right
  have hold := h.meets hpanic href hvalid
  by_cases hsame : (t.table i).dev = dev ∧ (t.table i).inum = inum
  · have hhome : (t.home i).type = 0 := by
      rw [home, hsame.1, hsame.2]
      exact hfree
    have hduty : (t.setDisk dev inum din).duty i = t.duty i := rfl
    rw [Meets] at hold ⊢
    rw [hduty]
    cases hd : t.duty i with
    | any => trivial
    | full =>
      rw [hd] at hold
      exact absurd hhome hold.1
    | typed =>
      rw [hd] at hold
      exact absurd hhome hold.1
    | homeTyped =>
      rw [hd] at hold
      exact absurd hhome hold
  · refine hold.congr rfl rfl rfl ?_
    simp only [home, setDisk]
    by_cases hdev : (t.table i).dev = dev
    · have hinum : (t.table i).inum ≠ inum := fun hinum => hsame ⟨hdev, hinum⟩
      rw [hdev, update_self, update_of_ne hinum]
    · rw [update_of_ne hdev]

theorem Coherent.scan (h : Coherent t) (hpanic : t.panic = none) {p : P} {type : Int16}
    (hpc : t.pc p = .scanning dev type inum) :
    Coherent (t.scan ninodes p dev type inum) := by
  have hmoves : ∀ {t' : Itable P} {pc : ItablePc}, Coherent t' → t'.panic = none →
      t'.pc p = .scanning dev type inum → (∀ i, pc.duty i = .full) →
      (∀ i, pc ≠ .loading i) ∧ (∀ i stage, pc ≠ .freeing i stage) → Coherent (t'.goto p pc) := by
    intro t' pc h' hpanic' hpc' hduty hnone
    apply h'.goto hpanic'
    · intro i _
      rw [hduty, hpc']
      rfl
    · exact .idle ⟨fun i => by rw [goto_pc_self]; exact hnone.1 i,
        fun i stage => by rw [goto_pc_self]; exact hnone.2 i stage⟩
  unfold Itable.scan
  split
  · split
    · rename_i hfree
      exact hmoves (h.alloc hpanic hfree _) hpanic hpc (fun _ => rfl) ⟨by simp, by simp⟩
    · exact hmoves h hpanic hpc (fun _ => rfl) ⟨by simp, by simp⟩
  · exact hmoves h hpanic hpc (fun _ => rfl) ⟨by simp, by simp⟩

theorem goto_iget (t : Itable P) (p : P) (pc : ItablePc) (dev inum : UInt32) :
    (t.goto p pc).iget p dev inum = (t.iget p dev inum).goto p pc := by
  simp only [Itable.iget, goto]
  split <;> rfl

theorem Coherent.step {t' : Itable P} (h : Coherent t) {e : ItableEvent P} (htyped : e.Typed)
    (hstep : t.step ninodes e = some t') : Coherent t' := by
  unfold Itable.step at hstep
  split at hstep
  · cases hstep
  rename_i hsome
  have hpanic : t.panic = none := by simpa using hsome
  cases e with
  | iget p dev inum =>
    simp only [Option.ite_none_right_eq_some, Option.some.injEq] at hstep
    obtain ⟨hpc, rfl⟩ := hstep
    exact h.iget hpanic p dev inum
  | idup p i =>
    simp only [Option.ite_none_right_eq_some, Option.some.injEq] at hstep
    obtain ⟨⟨hpc, hmem⟩, rfl⟩ := hstep
    exact h.idup hpanic (h.ref_pos hmem) p
  | pass p q i =>
    simp only [Option.ite_none_right_eq_some, Option.some.injEq] at hstep
    obtain ⟨⟨hpc, hmem, hkeeps⟩, rfl⟩ := hstep
    exact h.pass hpanic hpc hmem hkeeps
  | ilock p i =>
    simp only [Option.ite_none_right_eq_some] at hstep
    obtain ⟨⟨hpc, hmem⟩, hlock⟩ := hstep
    exact h.ilock hpanic hpc hmem hlock
  | load p =>
    simp only at hstep
    split at hstep
    · rename_i i hpc
      rw [← Option.some.inj hstep]
      exact h.load hpanic hpc
    · cases hstep
  | change p i din =>
    simp only [Option.ite_none_right_eq_some, Option.some.injEq] at hstep
    obtain ⟨⟨hpc, hlock⟩, rfl⟩ := hstep
    exact h.change hpanic hpc hlock htyped
  | iupdate p i =>
    simp only [Option.ite_none_right_eq_some, Option.some.injEq] at hstep
    obtain ⟨⟨hpc, hlock⟩, rfl⟩ := hstep
    exact h.flush hpanic hpc hlock
  | iunlock p i =>
    simp only [Option.ite_none_right_eq_some, Option.some.injEq] at hstep
    obtain ⟨⟨hpc, hlock, hclean⟩, rfl⟩ := hstep
    exact h.iunlock hpanic hpc hlock hclean
  | iput p i =>
    simp only [Option.ite_none_right_eq_some] at hstep
    obtain ⟨⟨hpc, hmem, hkeeps⟩, hput⟩ := hstep
    exact h.iput hpanic hpc hmem hkeeps hput
  | free p =>
    simp only at hstep
    split at hstep
    · rename_i i stage hpc
      rw [← Option.some.inj hstep]
      exact h.free hpanic hpc
    · cases hstep
  | ialloc p dev type =>
    simp only [Option.ite_none_right_eq_some, Option.some.injEq] at hstep
    obtain ⟨hpc, rfl⟩ := hstep
    apply h.goto hpanic
    · intro i _
      rw [hpc]
      rfl
    · exact .idle ⟨fun i => by simp [goto_pc_self], fun i stage => by simp [goto_pc_self]⟩
  | scan p =>
    simp only at hstep
    split at hstep
    · rename_i dev type inum hpc
      rw [← Option.some.inj hstep]
      exact h.scan hpanic hpc
    · rename_i dev inum hpc
      have hidle : Coherent (t.goto p .idle) :=
        h.goto hpanic (fun i _ => by rw [hpc]; rfl) (standing_idle t p)
      rw [← Option.some.inj hstep, ← goto_iget]
      exact hidle.iget hpanic p dev inum
    · cases hstep

-- In every run without a change to type 0 there is at most one entry in use for an
-- inode, `ref` counts the references that are outstanding, and an entry in use that
-- is valid and not locked is the inode on the disk. This includes every state inside
-- of a freeing `iput` and of an `ialloc`.
theorem inode_table_coherent (ninodes : UInt32) (disk : UInt32 → UInt32 → Dinode)
    (events : List (ItableEvent P)) (t : Itable P) (htyped : ∀ e ∈ events, e.Typed)
    (hrun : run (step ninodes) (init disk) events = some t) :
    (∀ i j, 0 < (t.table i).ref → 0 < (t.table j).ref → (t.table i).dev = (t.table j).dev →
      (t.table i).inum = (t.table j).inum → i = j) ∧
    (∀ i, (t.table i).ref = (t.refs.map Prod.snd).count i) ∧
    ∀ i, 0 < (t.table i).ref → (t.table i).valid = true → t.lock i = none →
      (t.table i).din = t.disk (t.table i).dev (t.table i).inum := by
  have h : Coherent t := run_keeps (C := ItableEvent.Typed)
    (fun _ _ _ h htyped hstep => h.step htyped hstep) (init_coherent disk) htyped hrun
  exact ⟨h.unique, h.count, fun i href hvalid hlock => h.din_eq_home href hvalid hlock⟩

-- One process frees the inode while another allocates it again: after the
-- write of type 0 and before the flag `valid` is cleared the inode is taken,
-- with the same entry.
def freeAndReuse : List (ItableEvent Bool) :=
  [.iget true 1 1, .ilock true 0, .load true, .iunlock true 0, .iput true 0, .free true, .free true,
    .free true, .ialloc false 1 2, .scan false, .scan false, .free true, .free true, .ilock false 0,
    .load false, .iunlock false 0, .free true]

theorem inode_table_coherent_reuse : ∃ t : Itable Bool,
    run (step 200) (init fun _ _ => { Dinode.zero with type := 2 }) freeAndReuse = some t ∧
      (t.table 0).ref = 1 ∧ (t.table 0).din = t.disk 1 1 := by
  have hruns : (run (step 200) (init fun _ _ => { Dinode.zero with type := 2 }) freeAndReuse).map
      (fun t => ((t.table 0).ref, (t.table 0).valid, (t.table 0).dev, (t.table 0).inum, t.lock 0)) =
        some (1, true, 1, 1, none) := by
    decide +kernel
  obtain ⟨t, hrun, hentry⟩ := Option.map_eq_some_iff.mp hruns
  simp only [Prod.mk.injEq] at hentry
  obtain ⟨href, hvalid, hdev, hinum, hlock⟩ := hentry
  have htyped : ∀ e ∈ freeAndReuse, e.Typed := by simp [freeAndReuse, ItableEvent.Typed]
  have hdin := (inode_table_coherent 200 _ freeAndReuse t htyped hrun).2.2 0 (by omega) hvalid hlock
  rw [hdev, hinum] at hdin
  exact ⟨t, hrun, href, hdin⟩

-- The flag of a free entry is not kept up to date. Inode 2 was in entry 1, whose
-- last reference is gone, and is in entry 0 now, with another link count.
def staleEntry : List (ItableEvent Bool) :=
  [.iget true 1 1, .iget true 1 2, .ilock true 1, .load true, .iunlock true 1, .iput true 1,
    .iput true 0, .iget true 1 2, .ilock true 0, .load true,
    .change true 0 { Dinode.zero with type := 2, nlink := 7 }, .iupdate true 0, .iunlock true 0]

-- So `valid` alone says nothing about the disk, and the reference count has to be in
-- the invariant.
theorem free_entry_is_stale : ∃ t : Itable Bool,
    run (step 200) (init fun _ _ => { Dinode.zero with type := 2, nlink := 1 }) staleEntry = some t ∧
      (t.table 1).valid = true ∧ t.lock 1 = none ∧ (t.table 1).dev = 1 ∧ (t.table 1).inum = 2 ∧
      (t.table 1).din.nlink ≠ (t.disk 1 2).nlink := by
  have hruns : (run (step 200) (init fun _ _ => { Dinode.zero with type := 2, nlink := 1 })
      staleEntry).map (fun t => ((t.table 1).valid, t.lock 1, (t.table 1).dev, (t.table 1).inum,
        (t.table 1).din.nlink, (t.disk 1 2).nlink)) = some (true, none, 1, 2, 1, 7) := by
    decide +kernel
  obtain ⟨t, hrun, hentry⟩ := Option.map_eq_some_iff.mp hruns
  simp only [Prod.mk.injEq] at hentry
  obtain ⟨hvalid, hlock, hdev, hinum, hold, hnew⟩ := hentry
  exact ⟨t, hrun, hvalid, hlock, hdev, hinum, by rw [hold, hnew]; decide⟩

end Xv6Ringbuf.Fs.Itable
