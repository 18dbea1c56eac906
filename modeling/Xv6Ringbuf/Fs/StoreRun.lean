import Xv6Ringbuf.Fs.StoreLog

namespace Xv6Ringbuf.Fs

open Interleave Crash Function

-- What a call leaves alone: the place of the log, and the home blocks that have
-- never been logged.
structure Store.Keeps (s s' : Store) : Prop where
  area : s'.log.area = s.log.area
  disk : ∀ b, b ∉ s.log.area → s'.logged b = none →
    s.logged b = none ∧ s'.cache.disk b = s.cache.disk b

theorem Store.Keeps.of_disk {s s' : Store} (harea : s'.log.area = s.log.area)
    (hlogged : s'.logged = s.logged) (hdisk : s'.cache.disk = s.cache.disk) : s.Keeps s' := by
  refine ⟨harea, ?_⟩
  intro b _ hnone
  rw [hlogged] at hnone
  exact ⟨hnone, congrFun hdisk b⟩

namespace Presents

variable {s s' : Store} {t : Logical}

theorem count (h : Presents s t) (outstanding : Int32) :
    Presents { s with log := { s.log with outstanding := outstanding } } t :=
  ⟨h.caches, ⟨h.trans.count, h.trans.bound, h.trans.room, h.trans.distinct, h.trans.home,
    h.trans.pending, h.trans.held, h.trans.written, h.trans.empty⟩, h.pending, h.settled, h.free,
    h.held, h.area⟩

theorem step (h : Presents s t) {call : Call} (hstep : s.step call = some s') :
    (∃ t', Presents s' t') ∧ s.Keeps s' := by
  cases call with
  | bread b =>
    obtain ⟨⟨answer, c'⟩, hact, rfl⟩ := Option.map_eq_some_iff.mp hstep
    exact ⟨h.bread hact, .of_disk rfl rfl (Cache.act_disk hact (by simp))⟩
  | memmove b data =>
    simp only [Store.step] at hstep
    split at hstep
    · cases hstep
    · obtain ⟨⟨answer, c'⟩, hact, rfl⟩ := Option.map_eq_some_iff.mp hstep
      exact ⟨h.memmove hact, .of_disk rfl rfl (Cache.act_disk hact (by simp))⟩
  | logWrite b =>
    simp only [Store.step] at hstep
    split at hstep
    · cases hstep
    · rename_i hb
      obtain ⟨i, hlocked, hstep⟩ := Option.bind_eq_some_iff.mp hstep
      obtain ⟨⟨log', c'⟩, heval, rfl⟩ := Option.map_eq_some_iff.mp hstep
      obtain ⟨hpresents, hdisk⟩ := h.logWrite hb hlocked heval
      refine ⟨hpresents, area_of_logWrite heval, ?_⟩
      intro b' _ hnone
      have hne : b' ≠ b := by
        rintro rfl
        simp at hnone
      simp only [update_of_ne hne] at hnone
      exact ⟨hnone, congrFun hdisk b'⟩
  | brelse b =>
    simp only [Store.step] at hstep
    split at hstep
    · cases hstep
    · rename_i hclean
      obtain ⟨⟨answer, c'⟩, hact, rfl⟩ := Option.map_eq_some_iff.mp hstep
      exact ⟨h.brelse (Bool.eq_false_iff.mpr hclean) hact,
        .of_disk rfl rfl (Cache.act_disk hact (by simp))⟩
  | beginOp =>
    rw [← Option.some.inj hstep]
    exact ⟨⟨t, h.count _⟩, .of_disk rfl rfl rfl⟩
  | endOp =>
    rw [← Option.some.inj hstep]
    exact ⟨⟨t, h.count _⟩, .of_disk rfl rfl rfl⟩
  | commit =>
    obtain ⟨⟨log', c'⟩, heval, rfl⟩ := Option.map_eq_some_iff.mp hstep
    obtain ⟨t', h', harea, hhome⟩ := h.commit heval
    refine ⟨⟨t', h'⟩, harea, ?_⟩
    intro b hb hnone
    change s.logged b = none at hnone
    refine ⟨hnone, ?_⟩
    rw [hhome b hb, Store.contents, hnone, Option.getD_none]

variable {b : Blockno}

theorem held_eq_none (h : Presents s t) (hb : s.cache.held b = none) :
    t.held b = none := by
  cases hheld : t.held b with
  | none => rfl
  | some data =>
    obtain ⟨i, hlocked, -⟩ := h.caches.buf_of_held hheld
    rw [hlocked] at hb
    cases hb

theorem reads (h : Presents s t) (hroom : s.cache.inUse < NBUF) (hb : s.cache.held b = none) :
    ∃ c', s.cache.act (.bread b) = some (s.contents b, c') := by
  have hfree := h.held_eq_none hb
  have hstep : Fs.step (.bread b) t = some (t.contents b,
      { t with held := update t.held b (some (t.contents b)) }) := by
    simp only [Fs.step, hfree]
  obtain ⟨c', hact, -⟩ := h.caches.answers
    (show Caches.Room s.cache (.bread b) from .inr (s.cache.inUse_lt_iff.mp hroom)) _ _ hstep
  rw [h.free b hfree] at hact
  exact ⟨c', hact⟩

theorem pins (h : Presents s t) (hb : s.log.lh.Listed b) :
    ∃ i, (s.cache.buf i).Holds ROOTDEV b ∧ 0 < (s.cache.buf i).refcnt ∧
      (s.dirty b = false → (s.cache.buf i).data = s.contents b) := by
  have hpending : (t.pending b).isSome := (h.trans.pending b).mpr hb
  obtain ⟨i, hi⟩ := h.caches.present b (.inr hpending)
  have hbuf := h.caches.stands i b hi
  refine ⟨i, hi, ?_, ?_⟩
  · obtain ⟨data, hdata⟩ := Option.isSome_iff_exists.mp hpending
    rw [hbuf, Logical.image, hdata]
    simp
  · intro hclean
    rw [hbuf, Logical.image]
    cases hheld : t.held b with
    | none => exact h.free b hheld
    | some data => exact h.held b data hheld hclean

theorem commits (h : Presents s t) (hstep : s.step .commit = some s') (hb : b ∉ s.log.area) :
    s'.cache.disk b = s.contents b := by
  obtain ⟨⟨log', c'⟩, heval, rfl⟩ := Option.map_eq_some_iff.mp hstep
  obtain ⟨t', -, -, hhome⟩ := h.commit heval
  exact hhome b hb

theorem commit_enabled (h : Presents s t) (hroom : s.cache.inUse < NBUF)
    (hunlocked : ∀ b, s.log.reach b → s.cache.held b = none) : ∃ s', s.step .commit = some s' := by
  have hstart : Caches (t.released.hold t.held) s.cache := by
    refine h.caches.congr rfl rfl ?_
    funext b
    exact Option.or_none
  obtain ⟨log', c', heval⟩ := (commit_eval h.trans hstart).1
    (fun b hb => h.held_eq_none (hunlocked b hb)) (s.cache.inUse_lt_iff.mp hroom)
  refine ⟨{ s with log := log', cache := c' }, ?_⟩
  simp only [Store.step, heval, Option.map_some]

end Presents

theorem Store.init_presents {log : Log} {disk : Blockno → Block} (hsize : 0 < log.size.toInt)
    (hn : log.lh.n = 0) (hempty : headCount (disk log.start) = 0) :
    Presents (Store.init log disk) ⟨disk, fun _ => none, fun _ => none, []⟩ := by
  have hzero : log.lh.n.toInt = 0 := by rw [hn]; rfl
  refine ⟨binit_caches disk, ⟨?_, ?_, ?_, ?_, ?_, ?_, fun _ => rfl, rfl, hempty⟩, ?_, ?_, ?_, ?_, ?_⟩
  · exact (Int.le_of_eq hzero.symm : 0 ≤ log.lh.n.toInt)
  · change log.lh.n.toInt ≤ LOGSIZE
    rw [hzero]
    exact Int.natCast_nonneg LOGSIZE
  · change log.lh.n.toInt ≤ log.size.toInt - 1
    omega
  · intro i j hi
    change (i : Int) < log.lh.n.toInt at hi
    omega
  · intro i hi
    change (i : Int) < log.lh.n.toInt at hi
    omega
  · intro b
    simp only [Logical.released, Option.isSome_none, Bool.false_eq_true, false_iff]
    rintro ⟨i, hi, -⟩
    change (i : Int) < log.lh.n.toInt at hi
    omega
  · intro b hb
    cases hb
  · intro b _
    rfl
  · intro b _
    rfl
  · intro b data hb
    cases hb
  · exact fun _ _ => rfl

-- The cache and the log present one disk, over any sequence of calls that starts
-- with an empty log. A block that was never logged has kept what it had.
theorem one_logical_disk (log : Log) (disk : Blockno → Block) (hsize : 0 < log.size.toInt)
    (hn : log.lh.n = 0) (hempty : headCount (disk log.start) = 0) (calls : List Call) (s : Store)
    (hrun : Trace.run Store.step (Store.init log disk) calls = some s) :
    (∀ b, s.cache.inUse < NBUF → s.cache.held b = none →
      ∃ c', s.cache.act (.bread b) = some (s.contents b, c')) ∧
    (∀ b, b ∉ log.area → s.logged b = none → s.contents b = disk b) ∧
    (∀ b, s.log.lh.Listed b → ∃ i, (s.cache.buf i).Holds ROOTDEV b ∧ 0 < (s.cache.buf i).refcnt ∧
      (s.dirty b = false → (s.cache.buf i).data = s.contents b)) ∧
    (∀ s', s.step .commit = some s' → ∀ b, b ∉ log.area → s'.cache.disk b = s.contents b) ∧
    (s.cache.inUse < NBUF → (∀ b, s.log.reach b → s.cache.held b = none) →
      ∃ s', s.step .commit = some s') := by
  have hinv : (∃ t, Presents s t) ∧ s.log.area = log.area ∧
      ∀ b, b ∉ log.area → s.logged b = none → s.cache.disk b = disk b := by
    refine Trace.run_invariant (I := fun s => (∃ t, Presents s t) ∧ s.log.area = log.area ∧
      ∀ b, b ∉ log.area → s.logged b = none → s.cache.disk b = disk b) ?_
      ⟨⟨_, Store.init_presents hsize hn hempty⟩, rfl, fun _ _ _ => rfl⟩ hrun
    rintro s call s' ⟨⟨t, h⟩, harea, hdisk⟩ hstep
    obtain ⟨hpresents, hkeeps⟩ := h.step hstep
    refine ⟨hpresents, hkeeps.area.trans harea, ?_⟩
    intro b hb hnone
    obtain ⟨hnone', hsame⟩ := hkeeps.disk b (harea ▸ hb) hnone
    rw [hsame, hdisk b hb hnone']
  obtain ⟨⟨t, h⟩, harea, hdisk⟩ := hinv
  refine ⟨fun b hroom hb => h.reads hroom hb, ?_, fun b hb => h.pins hb, ?_, h.commit_enabled⟩
  · intro b hb hnone
    rw [Store.contents, hnone, Option.getD_none, hdisk b hb hnone]
  · intro s' hstep b hb
    exact h.commits hstep (harea ▸ hb)

def changeCalls : List Call :=
  [.beginOp, .bread 40, .memmove 40 (fun _ => 7), .logWrite 40, .brelse 40, .bread 41, .endOp]

theorem one_logical_disk_change : ∃ s,
    Trace.run Store.step (Store.init ⟨2, 30, 0, ⟨0, fun _ => 0⟩⟩ fun _ _ => 0) changeCalls = some s ∧
    s.contents 40 ⟨0, by decide⟩ = 7 ∧ (∃ c', s.cache.act (.bread 40) = some (s.contents 40, c')) ∧
    ∀ s', s.step .commit = some s' → s'.cache.disk 40 = s.contents 40 := by
  have heval : (Trace.run Store.step (Store.init ⟨2, 30, 0, ⟨0, fun _ => 0⟩⟩ fun _ _ => 0)
      changeCalls).map (fun s => (s.contents 40 ⟨0, by decide⟩, s.cache.held 40, decide (s.cache.inUse < NBUF))) =
        some (7, none, true) := by
    decide +kernel
  obtain ⟨s, hrun, hs⟩ := Option.map_eq_some_iff.mp heval
  simp only [Prod.mk.injEq, decide_eq_true_eq] at hs
  obtain ⟨hreads, -, -, hcommits, -⟩ := one_logical_disk ⟨2, 30, 0, ⟨0, fun _ => 0⟩⟩ (fun _ _ => 0)
    (by decide) rfl (by decide) changeCalls s hrun
  exact ⟨s, hrun, hs.1, hreads 40 hs.2.2 hs.2.1, fun s' hstep => hcommits s' hstep 40 (by decide)⟩

end Xv6Ringbuf.Fs
