import Xv6Ringbuf.Fs.Itable

namespace Xv6Ringbuf.Fs.Itable

open Function

section References

variable {P : Type}

variable {t : Itable P} {i : Ip}

theorem Coherent.panicked (h : Coherent t) (hpanic : t.panic = none) (e : ItablePanic) :
    Coherent { t with panic := some e } :=
  ⟨h.unique, h.count, h.holder, h.clean, fun p => ⟨(h.standing p).loading, (h.standing p).freeing⟩,
    fun _ href hvalid => .inr (h.meets hpanic href hvalid)⟩

theorem Coherent.idup (h : Coherent t) (hpanic : t.panic = none) (hi : 0 < (t.table i).ref) (p : P) :
    Coherent { t with table := t.table.idup i, refs := (p, i) :: t.refs } := by
  have hsame : ∀ j, ((t.table.idup i) j).valid = (t.table j).valid ∧
      ((t.table.idup i) j).din = (t.table j).din ∧ ((t.table.idup i) j).dev = (t.table j).dev ∧
      ((t.table.idup i) j).inum = (t.table j).inum := by
    intro j
    by_cases hji : j = i
    · simp [hji, Table.idup]
    · simp [Table.idup, update_of_ne hji]
  refine ⟨h.unique.idup hi, ?_, ?_, h.clean, ?_, ?_⟩
  · intro j
    rw [List.map_cons, List.count_cons, ← h.count j]
    by_cases hji : j = i
    · simp [hji, Table.idup]
    · simp [Table.idup, update_of_ne hji, Ne.symm hji]
  · exact fun j q hq => List.mem_cons_of_mem _ (h.holder j q hq)
  · intro q
    refine (h.standing q).congr rfl (fun _ => Iff.rfl) (fun _ _ h => h)
      (fun _ hmem _ => List.mem_cons_of_mem _ hmem) ?_
    intro j _ hvalid _
    rw [(hsame j).1]
    exact hvalid
  · intro j href hvalid
    obtain ⟨hvalid', hdin, hdev, hinum⟩ := hsame j
    have href' : 0 < (t.table j).ref := by
      by_cases hji : j = i
      · rw [hji]
        exact hi
      · simpa [Table.idup, update_of_ne hji] using href
    refine .inr ((h.meets hpanic href' (hvalid' ▸ hvalid)).congr rfl rfl hdin ?_)
    simp only [home, hdev, hinum]

-- `iget` of an inode that is not in the table. The entry it takes has no
-- references, so nobody stands in a call on it.
theorem Coherent.recycle (h : Coherent t) (hpanic : t.panic = none) (hi : (t.table i).ref = 0)
    {dev inum : UInt32} (hnone : ∀ j, ¬(t.table j).Is dev inum) (p : P) :
    Coherent { t with
      table := update t.table i { t.table i with
        dev := dev, inum := inum, ref := 1, valid := false }
      refs := (p, i) :: t.refs } := by
  have hne : ∀ j, 0 < (t.table j).ref → j ≠ i := by
    rintro j href rfl
    omega
  refine ⟨h.unique.recycle i hnone false, ?_, ?_, h.clean, ?_, ?_⟩
  · intro j
    rw [List.map_cons, List.count_cons, ← h.count j]
    by_cases hji : j = i
    · simp [hji, hi]
    · simp [update_of_ne hji, Ne.symm hji]
  · exact fun j q hq => List.mem_cons_of_mem _ (h.holder j q hq)
  · intro q
    refine (h.standing q).congr rfl (fun _ => Iff.rfl) (fun _ _ h => h)
      (fun _ hmem _ => List.mem_cons_of_mem _ hmem) ?_
    intro j hmem hvalid _
    simp only [update_of_ne (hne j (h.ref_pos hmem))]
    exact hvalid
  · intro j href hvalid
    have hji : j ≠ i := by
      rintro rfl
      simp at hvalid
    simp only [update_of_ne hji] at href hvalid
    refine .inr ((h.meets hpanic href hvalid).congr rfl rfl ?_ ?_)
    · simp only [update_of_ne hji]
    · simp only [home, update_of_ne hji]

theorem Coherent.iget (h : Coherent t) (hpanic : t.panic = none) (p : P) (dev inum : UInt32) :
    Coherent (t.iget p dev inum) := by
  unfold Itable.iget
  split
  · rename_i i table hget
    rcases Table.iget_cases hget with ⟨hi, rfl⟩ | ⟨hi, hnone, rfl⟩
    · exact h.idup hpanic hi.1 p
    · exact h.recycle hpanic hi hnone p
  · exact h.panicked hpanic .igetNoInodes

end References

variable {P : Type} [DecidableEq P]

theorem goto_pc_self (t : Itable P) (p : P) (pc : ItablePc) : (t.goto p pc).pc p = pc :=
  update_self ..

variable {p q : P} {t : Itable P} {refs : List (P × Ip)} {i : Ip}

theorem goto_pc_of_ne (t : Itable P) (hqp : q ≠ p) (pc : ItablePc) :
    (t.goto p pc).pc q = t.pc q :=
  update_of_ne hqp _ _

theorem Coherent.goto (h : Coherent t) (hpanic : t.panic = none) {pc : ItablePc}
    (hduty : ∀ i, t.lock i = some p → pc.duty i = (t.pc p).duty i)
    (hstanding : Standing (t.goto p pc) p) : Coherent (t.goto p pc) := by
  refine ⟨h.unique, h.count, h.holder, h.clean, ?_, ?_⟩
  · intro q
    by_cases hqp : q = p
    · rw [hqp]
      exact hstanding
    · exact (h.standing q).congr (goto_pc_of_ne t hqp pc) (fun _ => Iff.rfl) (fun _ _ h => h)
        (fun _ h _ => h) fun _ _ h _ => h
  · intro i href hvalid
    exact .inr ((h.meets hpanic href hvalid).congr (duty_goto_eq t (hduty i)) rfl rfl rfl)

theorem mem_erase_of_lock {r : P} {j : Ip} {lock : Ip → Option P} (hmem : (r, j) ∈ refs)
    (hlock : lock j = some r) (hkeeps : lock i = some p → 2 ≤ refs.count (p, i)) :
    (r, j) ∈ refs.erase (p, i) := by
  by_cases heq : (r, j) = (p, i)
  · obtain ⟨rfl, rfl⟩ := Prod.mk.inj heq
    have htwo := hkeeps hlock
    rw [← List.count_pos_iff, List.count_erase_self]
    omega
  · exact (List.mem_erase_of_ne heq).mpr hmem

theorem count_map_erase (hmem : (p, i) ∈ refs) (j : Ip) :
    (refs.map Prod.snd).count j =
      ((refs.erase (p, i)).map Prod.snd).count j + if i = j then 1 else 0 := by
  have hperm := (List.perm_cons_erase hmem).map Prod.snd
  rw [hperm.count_eq, List.map_cons, List.count_cons]
  simp

theorem Coherent.pass (h : Coherent t) (hpanic : t.panic = none) (hpc : t.pc p = .idle)
    (hmem : (p, i) ∈ t.refs) (hkeeps : t.lock i = some p → 2 ≤ t.refs.count (p, i)) :
    Coherent { t with refs := (q, i) :: t.refs.erase (p, i) } := by
  refine ⟨h.unique, ?_, ?_, h.clean, ?_, fun j href hvalid => .inr (h.meets hpanic href hvalid)⟩
  · intro j
    rw [h.count, count_map_erase hmem, List.map_cons, List.count_cons]
    simp
  · exact fun j r hr => List.mem_cons_of_mem _ (mem_erase_of_lock (h.holder j r hr) hr hkeeps)
  · intro r
    refine (h.standing r).congr rfl (fun _ => Iff.rfl) (fun _ _ h => h) ?_ fun _ _ h _ => h
    intro j hr hbusy
    have hne : (r, j) ≠ (p, i) := by
      rintro heq
      rw [(Prod.mk.inj heq).1] at hbusy
      exact hbusy hpc
    exact List.mem_cons_of_mem _ ((List.mem_erase_of_ne hne).mpr hr)

theorem Coherent.ilock {t' : Itable P} (h : Coherent t) (hpanic : t.panic = none)
    (hpc : t.pc p = .idle) (hmem : (p, i) ∈ t.refs) (hlock : t.ilock p i = some t') :
    Coherent t' := by
  have href := h.ref_pos hmem
  unfold Itable.ilock at hlock
  rw [if_neg (by omega)] at hlock
  simp only [Option.ite_none_right_eq_some, Option.some.injEq] at hlock
  obtain ⟨hfree, rfl⟩ := hlock
  have hduty : ∀ j, ({ t with lock := update t.lock i (some p) }.goto p (.loading i)).duty j =
      t.duty j := by
    intro j
    rw [duty_goto]
    by_cases hji : j = i
    · simp [hji, ItablePc.duty, duty, hfree]
    · simp only [update_of_ne hji]
      split
      · rename_i hj
        simp [ItablePc.duty, duty, hj, hpc]
      · simp [duty, update_of_ne hji]
  refine ⟨h.unique, h.count, ?_, ?_, ?_, ?_⟩
  · intro j q hq
    by_cases hji : j = i
    · subst hji
      simp only [Itable.goto, update_self, Option.some.injEq] at hq
      rw [← hq]
      exact hmem
    · simp only [Itable.goto, update_of_ne hji] at hq
      exact h.holder j q hq
  · intro j hj
    by_cases hji : j = i
    · subst hji
      simp [Itable.goto] at hj
    · simp only [Itable.goto, update_of_ne hji] at hj
      exact h.clean j hj
  · intro q
    by_cases hqp : q = p
    · subst hqp
      constructor
      · intro j hj
        rw [goto_pc_self] at hj
        cases hj
        exact ⟨update_self .., h.clean i hfree⟩
      · intro j stage hj
        rw [goto_pc_self] at hj
        cases hj
    · refine (h.standing q).congr (goto_pc_of_ne _ hqp _) ?_ (fun _ _ h => h) (fun _ h _ => h)
        fun _ _ h _ => h
      intro j
      by_cases hji : j = i
      · simp [Itable.goto, hji, hfree, Ne.symm hqp]
      · simp [Itable.goto, update_of_ne hji]
  · exact fun j href hvalid =>
      .inr ((h.meets hpanic href hvalid).congr (hduty j) rfl rfl rfl)

end Xv6Ringbuf.Fs.Itable
