import Xv6Ringbuf.Fs.Store

namespace Xv6Ringbuf.Fs

open Interleave Crash Function

theorem Settled.transaction {log log' : Log} {t₀ t : Logical} (h : Settled log t₀ log' t)
    (hsize : 0 < log.size.toInt) (others : Blockno → Option Block) :
    Transaction log' (t.hold others).released := by
  have hzero : (0 : Int32).toInt = 0 := rfl
  have hpending : t.pending = fun _ => none := by rw [h.idle]; rfl
  rw [h.cleared]
  refine ⟨Int.le_refl 0, Int.natCast_nonneg LOGSIZE, ?_, ?_, ?_, ?_, fun _ => rfl, rfl, h.empty⟩
  · simp only [Log.clear, hzero]
    omega
  · intro i j hi
    simp only [Log.clear, hzero] at hi
    omega
  · intro i hi
    simp only [Log.clear, hzero] at hi
    omega
  · intro b
    simp only [Logical.released, Logical.hold, hpending, Option.isSome_none, Bool.false_eq_true,
      false_iff]
    rintro ⟨i, hi, -⟩
    simp only [Log.clear, hzero] at hi
    omega

namespace Presents

variable {s : Store} {t t' : Logical} {c' : Cache} {b : Blockno}

theorem hold_released (t : Logical) {others : Blockno → Option Block} (b : Blockno)
    {data : Block} (hheld : t.held b = some data) (hothers : others = update t.held b none) :
    (fun b' => (others b').or (update (fun _ => none) b (some data) b')) = t.held := by
  funext b'
  rw [hothers]
  by_cases hne : b' = b
  · rw [hne, update_self, update_self, Option.none_or, hheld]
  · rw [update_of_ne hne, update_of_ne hne, Option.or_none]

variable {log log' : Log} {c : Cache}

theorem admitted_of_eval {c' : Cache} (hsize : 0 < log.size.toInt)
    (heval : (Fs.logWrite log b).eval Cache.act c = some (log', c')) :
    log.lh.n.toInt < LOGSIZE ∧ log.lh.n.toInt < log.size.toInt - 1 ∧ 1 ≤ log.outstanding := by
  have hsub : (log.size - 1).toInt = log.size.toInt - 1 := by
    have hlt := log.size.toInt_lt
    rw [Int32.toInt_sub]
    change (log.size.toInt - 1).bmod (2 ^ 32) = _
    apply Int.bmod_eq_of_le <;> omega
  unfold Fs.logWrite at heval
  split at heval
  · cases heval
  · rename_i hfull
    rw [Int32.le_iff_toInt_le, hsub] at hfull
    split at heval
    · cases heval
    · rename_i hop
      exact ⟨by omega, by omega, Int32.not_lt.mp hop⟩

theorem area_of_logWrite {c' : Cache} (heval : (Fs.logWrite log b).eval Cache.act c = some (log', c')) :
    log'.area = log.area := by
  unfold Fs.logWrite at heval
  split at heval
  · cases heval
  · split at heval
    · cases heval
    · simp only at heval
      split at heval
      · split at heval
        · simp only [Fs.bpin, Prog.perform, Bind.bind, Prog.bind, Prog.eval] at heval
          split at heval
          · obtain ⟨rfl, -⟩ := Prod.mk.inj (Option.some.inj heval)
            rfl
          · cases heval
        · obtain ⟨rfl, -⟩ := Prod.mk.inj (Option.some.inj heval)
          rfl
      · cases heval

theorem logWrite (h : Presents s t) (hb : b ∉ s.log.area) {i : Bp} (hlocked : s.cache.held b = some i)
    (heval : (Fs.logWrite s.log b).eval Cache.act s.cache = some (log', c')) :
    (∃ t', Presents ⟨log', c', update s.logged b (some (s.cache.buf i).data),
      update s.dirty b false⟩ t') ∧ c'.disk = s.cache.disk := by
  have hheld := h.held_of_cache hlocked
  generalize (s.cache.buf i).data = data at hheld ⊢
  obtain ⟨hbound, hroom, hop⟩ := admitted_of_eval h.trans.size_pos heval
  have hsafe := logWrite_safe h.trans hb hbound hroom hop data
  have hframed : Framed (update t.held b none) t.disk
      ⟨t.released.disk, t.released.pending,
        update t.released.held b (some data), t.released.written⟩ s.cache := by
    refine ⟨h.caches.congr rfl rfl (hold_released t b hheld rfl), ?_, fun _ _ => rfl⟩
    intro b' hb'
    have hne : b' ≠ b := by
      rintro rfl
      simp at hb'
    simp [Logical.released, update_of_ne hne]
  obtain ⟨u, hframed', htrans, pending, rfl, hpins, hother⟩ :=
    hsafe.of_tracks (framed_tracks _ _) hframed heval
  let t' : Logical := ⟨t.disk, pending, t.held, t.written⟩
  have hcaches : Caches t' c' :=
    hframed'.caches.congr rfl rfl (hold_released t b hheld rfl).symm
  have hcontents : ∀ b', b' ≠ b → (update s.logged b (some data) b').getD (c'.disk b') =
      s.contents b' := by
    intro b' hne
    rw [h.contents_eq, hcaches.disk, update_of_ne hne]
  have hlogged : (update s.logged b (some data) b).getD (c'.disk b) = data := by
    rw [update_self, Option.getD_some]
  refine ⟨⟨t', hcaches, ?_, ?_, ?_, ?_, ?_, ?_⟩, hcaches.disk.trans h.caches.disk.symm⟩
  · refine htrans.congr rfl ?_ rfl rfl
    intro b'
    by_cases hne : b' = b
    · rw [hne]
      simp [t', Logical.released, Logical.put, hpins]
    · simp [t', Logical.released, Logical.put, update_of_ne hne, hother b' hne]
  · intro b' hb'
    by_cases hne : b' = b
    · simp [hne]
    · simp only [update_of_ne hne]
      apply h.pending b'
      rw [← show pending b' = t.pending b' from hother b' hne]
      exact hb'
  · intro b' hpending
    have hne : b' ≠ b := by
      rintro rfl
      rw [show pending b' = none from hpending] at hpins
      cases hpins
    refine Eq.trans ?_ (hcontents b' hne).symm
    apply h.settled b'
    rw [← show pending b' = t.pending b' from hother b' hne]
    exact hpending
  · intro b' hfree
    have hne : b' ≠ b := by
      rintro rfl
      rw [show t.held b' = none from hfree] at hheld
      cases hheld
    refine Eq.trans ?_ (hcontents b' hne).symm
    rw [← h.free b' hfree]
    simp only [Logical.contents, t', hother b' hne]
    rfl
  · intro b' data' hheld' hclean
    by_cases hne : b' = b
    · rw [hne] at hheld' ⊢
      refine Eq.trans ?_ hlogged.symm
      exact Option.some.inj (hheld'.symm.trans hheld)
    · refine Eq.trans ?_ (hcontents b' hne).symm
      apply h.held b' data' hheld'
      simpa only [update_of_ne hne] using hclean
  · intro b' hb'
    rw [area_of_logWrite heval] at hb'
    have hne : b' ≠ b := by
      rintro rfl
      exact hb hb'
    simp only [update_of_ne hne]
    exact h.area b' hb'

theorem commit (h : Presents s t) (heval : (Fs.commit s.log).eval Cache.act s.cache = some (log', c')) :
    ∃ t', Presents { s with log := log', cache := c' } t' ∧ log'.area = s.log.area ∧
      ∀ b, b ∉ s.log.area → c'.disk b = s.contents b := by
  have hstart : Caches (t.released.hold t.held) s.cache := by
    refine h.caches.congr rfl rfl ?_
    funext b
    exact Option.or_none
  obtain ⟨u, hsettled, hframed, hunlocked⟩ := (commit_eval h.trans hstart).2 log' c' heval
  have hpending : u.pending = fun _ => none := by rw [hsettled.idle]; rfl
  have hheld : u.held = fun _ => none := by rw [hsettled.idle]; rfl
  let t' : Logical := u.hold t.held
  have hheld' : t'.held = t.held := by
    funext b
    simp [t', Logical.hold, hheld]
  -- A block that a reader holds has no pending contents.
  have hold : ∀ b, (t.held b).isSome → t.pending b = none := by
    intro b hb
    cases hpending : t.pending b with
    | none => rfl
    | some old =>
      have hlisted := (h.trans.pending b).mp (by simp [Logical.released, hpending])
      simp [hunlocked b hlisted] at hb
  have hhome : ∀ b, b ∉ s.log.area → u.disk b = s.contents b := by
    intro b hb
    rw [hsettled.home b hb]
    cases hb' : t.held b with
    | none => exact h.free b hb'
    | some data =>
      have hnone := hold b (by simp [hb'])
      rw [← h.settled b hnone]
      simp [Logical.contents, Logical.released, hnone]
  have hdisk : ∀ b, u.disk b = (s.logged b).getD (c'.disk b) := by
    intro b
    cases hlogged : s.logged b with
    | none => rw [Option.getD_none, hframed.caches.disk, Logical.hold]
    | some data =>
      have hb : b ∉ s.log.area := by
        intro hb
        rw [h.area b hb] at hlogged
        cases hlogged
      rw [hhome b hb, Store.contents, hlogged, Option.getD_some, Option.getD_some]
  have hcontents : ∀ b, t'.contents b = (s.logged b).getD (c'.disk b) := by
    intro b
    rw [← hdisk b]
    simp [t', Logical.contents, Logical.hold, hpending]
  refine ⟨t', ⟨hframed.caches, hsettled.transaction h.trans.size_pos t.held, ?_, ?_, ?_, ?_, ?_⟩, ?_, ?_⟩
  · intro b hb
    simp [t', Logical.hold, hpending] at hb
  · exact fun b _ => hdisk b
  · exact fun b _ => hcontents b
  · intro b data hb hclean
    rw [hheld'] at hb
    have hsome : (t.held b).isSome := by simp [hb]
    rw [h.held b data hb hclean, ← h.settled b (hold b hsome)]
    exact (hframed.disk b hsome).symm.trans (hdisk b)
  · rw [hsettled.cleared]
    exact h.area
  · rw [hsettled.cleared]
    rfl
  · intro b hb
    rw [hframed.caches.disk]
    exact hhome b hb

end Presents

end Xv6Ringbuf.Fs
