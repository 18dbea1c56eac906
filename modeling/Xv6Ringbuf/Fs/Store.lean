import Xv6Ringbuf.Fs.CommitSpare
import Xv6Ringbuf.Trace

namespace Xv6Ringbuf.Fs

open Interleave Crash Function

-- The cache and the log together. `logged` records what was last logged for a
-- block, and `dirty` which buffers were changed since their last `log_write`.
structure Store where
  log : Log
  cache : Cache
  logged : Blockno → Option Block
  dirty : Blockno → Bool

inductive Call where
  | bread (b : Blockno)
  | memmove (b : Blockno) (data : Block)
  | logWrite (b : Blockno)
  | brelse (b : Blockno)
  | beginOp
  | endOp
  | commit

namespace Store

-- What the block should read as: what was last logged for it, or else what is
-- on the disk.
def contents (s : Store) (b : Blockno) : Block := (s.logged b).getD (s.cache.disk b)

-- The callers change blocks outside of the log area only, and log a changed
-- buffer before they release it. Of `begin_op` and `end_op` only the count of
-- running operations matters here.
def step (s : Store) : Call → Option Store
  | .bread b => (s.cache.act (.bread b)).map fun (_, c) => { s with cache := c }
  | .memmove b data =>
    if b ∈ s.log.area then none
    else (s.cache.act (.memmove b data)).map fun (_, c) =>
      { s with cache := c, dirty := update s.dirty b true }
  | .logWrite b =>
    if b ∈ s.log.area then none
    else (s.cache.held b).bind fun i =>
      ((logWrite s.log b).eval Cache.act s.cache).map fun (log, c) =>
        { log := log
          cache := c
          logged := update s.logged b (some (s.cache.buf i).data)
          dirty := update s.dirty b false }
  | .brelse b =>
    if s.dirty b then none
    else (s.cache.act (.brelse b)).map fun (_, c) => { s with cache := c }
  | .beginOp => some { s with log := { s.log with outstanding := s.log.outstanding + 1 } }
  | .endOp => some { s with log := { s.log with outstanding := s.log.outstanding - 1 } }
  | .commit =>
    ((commit s.log).eval Cache.act s.cache).map fun (log, c) => { s with log := log, cache := c }

def init (log : Log) (disk : Blockno → Block) : Store :=
  ⟨log, binit disk, fun _ => none, fun _ => false⟩

end Store

def Logical.released (t : Logical) : Logical :=
  { t with held := fun _ => none, written := [] }

theorem Caches.congr {t t' : Logical} {c : Cache} (h : Caches t c) (hdisk : t'.disk = t.disk)
    (hpending : t'.pending = t.pending) (hheld : t'.held = t.held) : Caches t' c := by
  refine ⟨h.wf, h.disk.trans hdisk.symm, h.other, ?_, ?_⟩
  · intro i b hi
    rw [h.stands i b hi]
    exact (image_congr (congrFun hdisk b) (congrFun hpending b) (congrFun hheld b)).symm
  · rw [hpending, hheld]
    exact h.present

theorem Transaction.congr {log : Log} {t t' : Logical} (h : Transaction log t)
    (hdisk : t'.disk = t.disk) (hpending : ∀ b, (t'.pending b).isSome ↔ (t.pending b).isSome)
    (hheld : t'.held = t.held) (hwritten : t'.written = t.written) : Transaction log t' := by
  refine ⟨h.count, h.bound, h.room, h.distinct, h.home, ?_, ?_, ?_, ?_⟩
  · exact fun b => (hpending b).trans (h.pending b)
  · rw [hheld]
    exact h.held
  · rw [hwritten, h.written]
  · rw [hdisk, h.empty]

-- How the store stands for a logical disk.
structure Presents (s : Store) (t : Logical) : Prop where
  caches : Caches t s.cache
  trans : Transaction s.log t.released
  pending : ∀ b, (t.pending b).isSome → (s.logged b).isSome
  settled : ∀ b, t.pending b = none → t.disk b = s.contents b
  free : ∀ b, t.held b = none → t.contents b = s.contents b
  held : ∀ b data, t.held b = some data → s.dirty b = false → data = s.contents b
  area : ∀ b ∈ s.log.area, s.logged b = none

namespace Presents

variable {s : Store} {t t' : Logical} {c' : Cache} {b : Blockno}

theorem contents_eq (h : Presents s t) (b : Blockno) : s.contents b = (s.logged b).getD (t.disk b) := by
  rw [Store.contents, h.caches.disk]

theorem act (h : Presents s t) {a : Act} {answer answer' : Answer a}
    (hact : s.cache.act a = some (answer, c')) (hstep : Fs.step a t = some (answer', t')) :
    Caches t' c' := by
  obtain ⟨c'', hact', hcaches⟩ := h.caches.answers (Caches.room_of_act hact) answer' t' hstep
  obtain ⟨rfl, rfl⟩ := Prod.mk.inj (Option.some.inj (hact.symm.trans hact'))
  exact hcaches

theorem bread (h : Presents s t) {answer : Block} (hact : s.cache.act (.bread b) = some (answer, c')) :
    ∃ t', Presents { s with cache := c' } t' := by
  have hfree : t.held b = none := by
    cases hheld : t.held b with
    | none => rfl
    | some data =>
      rw [bread_locked h.caches hheld] at hact
      cases hact
  let t' : Logical := { t with held := update t.held b (some (t.contents b)) }
  have hstep : Fs.step (.bread b) t = some (t.contents b, t') := by simp only [Fs.step, hfree, t']
  have hcaches : Caches t' c' := h.act hact hstep
  have hcontents : ∀ b, ({ s with cache := c' } : Store).contents b = s.contents b := by
    intro b
    rw [h.contents_eq, Store.contents, hcaches.disk]
  refine ⟨t', hcaches, h.trans, h.pending, ?_, ?_, ?_, h.area⟩
  · intro b' hpending
    rw [hcontents]
    exact h.settled b' hpending
  · intro b' hheld
    rw [hcontents]
    by_cases hne : b' = b
    · simp [t', hne] at hheld
    · simp only [t', update_of_ne hne] at hheld
      exact h.free b' hheld
  · intro b' data hheld hclean
    rw [hcontents]
    by_cases hne : b' = b
    · rw [hne] at hheld ⊢
      simp only [t', update_self, Option.some.injEq] at hheld
      rw [← hheld]
      exact h.free b hfree
    · simp only [t', update_of_ne hne] at hheld
      exact h.held b' data hheld hclean

theorem held_of_cache (h : Presents s t) {i : Bp} (hheld : s.cache.held b = some i) :
    t.held b = some (s.cache.buf i).data := by
  obtain ⟨hcached, hlocked⟩ := Option.filter_eq_some_iff.mp hheld
  have hbuf := h.caches.stands i b (Cache.cached_holds hcached)
  rw [hbuf] at hlocked ⊢
  simp only [Logical.image] at hlocked ⊢
  obtain ⟨data, hdata⟩ := Option.isSome_iff_exists.mp hlocked
  rw [hdata, Option.getD_some]

theorem memmove (h : Presents s t) {data : Block} {answer : Unit}
    (hact : s.cache.act (.memmove b data) = some (answer, c')) :
    ∃ t', Presents { s with cache := c', dirty := update s.dirty b true } t' := by
  obtain ⟨i, hlocked, -⟩ := Option.map_eq_some_iff.mp hact
  have hheld := h.held_of_cache hlocked
  let t' : Logical := { t with held := update t.held b (some data) }
  have hstep : Fs.step (.memmove b data) t = some ((), t') := by
    simp only [Fs.step, hheld, Option.map_some, t']
  have hcaches : Caches t' c' := h.act hact hstep
  have hcontents : ∀ b', ({ s with cache := c', dirty := update s.dirty b true } : Store).contents b' =
      s.contents b' := by
    intro b'
    rw [h.contents_eq, Store.contents, hcaches.disk]
  refine ⟨t', hcaches, h.trans, h.pending, ?_, ?_, ?_, h.area⟩
  · intro b' hpending
    rw [hcontents]
    exact h.settled b' hpending
  · intro b' hfree
    rw [hcontents]
    by_cases hne : b' = b
    · simp [t', hne] at hfree
    · simp only [t', update_of_ne hne] at hfree
      exact h.free b' hfree
  · intro b' data' hheld' hclean
    rw [hcontents]
    by_cases hne : b' = b
    · simp [hne] at hclean
    · simp only [update_of_ne hne] at hclean
      simp only [t', update_of_ne hne] at hheld'
      exact h.held b' data' hheld' hclean

theorem brelse (h : Presents s t) {answer : Unit} (hclean : s.dirty b = false)
    (hact : s.cache.act (.brelse b) = some (answer, c')) :
    ∃ t', Presents { s with cache := c' } t' := by
  obtain ⟨i, hlocked, -⟩ := Option.map_eq_some_iff.mp hact
  have hheld := h.held_of_cache hlocked
  have hdata := h.held b _ hheld hclean
  generalize (s.cache.buf i).data = data at hheld hdata
  let t' : Logical := { t with
    held := update t.held b none
    pending := update t.pending b ((t.pending b).map fun _ => data) }
  have hstep : Fs.step (.brelse b) t = some ((), t') := by
    simp only [Fs.step, hheld, Option.bind_some, t']
    apply if_neg
    rintro ⟨hpending, hne⟩
    exact hne (hdata.trans (h.settled b hpending).symm)
  have hcaches : Caches t' c' := h.act hact hstep
  have hcontents : ∀ b, ({ s with cache := c' } : Store).contents b = s.contents b := by
    intro b
    rw [h.contents_eq, Store.contents, hcaches.disk]
  have hsome : ∀ b', (t'.pending b').isSome ↔ (t.pending b').isSome := by
    intro b'
    by_cases hne : b' = b
    · simp [t', hne]
    · simp [t', update_of_ne hne]
  refine ⟨t', hcaches, ?_, ?_, ?_, ?_, ?_, h.area⟩
  · exact h.trans.congr rfl hsome rfl rfl
  · exact fun b' hb' => h.pending b' ((hsome b').mp hb')
  · intro b' hpending
    rw [hcontents]
    apply h.settled b'
    have hnone := hsome b'
    rw [hpending] at hnone
    simpa using hnone
  · intro b' hfree
    rw [hcontents]
    by_cases hne : b' = b
    · rw [hne]
      cases hpending : t.pending b with
      | none =>
        rw [← h.settled b hpending]
        simp [Logical.contents, t', hpending]
      | some old =>
        rw [← hdata]
        simp [Logical.contents, t', hpending]
    · simp only [t', update_of_ne hne] at hfree
      rw [← h.free b' hfree]
      simp only [Logical.contents, t', update_of_ne hne]
  · intro b' data' hheld' hclean'
    rw [hcontents]
    by_cases hne : b' = b
    · simp [t', hne] at hheld'
    · simp only [t', update_of_ne hne] at hheld'
      exact h.held b' data' hheld' hclean'

end Presents

end Xv6Ringbuf.Fs
