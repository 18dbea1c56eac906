import Xv6Ringbuf.Fs.Cache

namespace Xv6Ringbuf.Fs

open Function

-- The buffer of a block of the logical disk: the holder and the pin are the only
-- references to it.
def Logical.image (t : Logical) (b : Blockno) : CacheBuf :=
  ⟨ROOTDEV, b, true, (t.held b).toList.length + (t.pending b).toList.length, (t.held b).isSome,
    (t.held b).getD (t.contents b)⟩

structure Caches (t : Logical) (c : Cache) : Prop where
  wf : c.Wf
  disk : c.disk = t.disk
  other : ∀ i, (c.buf i).dev ≠ ROOTDEV → (c.buf i).refcnt = 0 ∧ (c.buf i).locked = false
  stands : ∀ i b, (c.buf i).Holds ROOTDEV b → c.buf i = t.image b
  present : ∀ b, (t.held b).isSome ∨ (t.pending b).isSome → ∃ i, (c.buf i).Holds ROOTDEV b

theorem Logical.image_holds (t : Logical) (b : Blockno) : (t.image b).Holds ROOTDEV b := ⟨rfl, rfl⟩

theorem image_congr {t t' : Logical} {b : Blockno} (hdisk : t'.disk b = t.disk b)
    (hpending : t'.pending b = t.pending b) (hheld : t'.held b = t.held b) :
    t'.image b = t.image b := by
  simp only [Logical.image, Logical.contents, hdisk, hpending, hheld]

theorem binit_caches (disk : Blockno → Block) :
    Caches ⟨disk, fun _ => none, fun _ => none, []⟩ (binit disk) := by
  have hdev : ∀ i b, ¬((binit disk).buf i).Holds ROOTDEV b :=
    fun _ _ h => absurd h.1 (show (0 : UInt32) ≠ ROOTDEV by decide)
  refine ⟨Cache.binit_wf disk, rfl, fun _ _ => ⟨rfl, rfl⟩, ?_, ?_⟩
  · intro i b h
    exact absurd h (hdev i b)
  · intro b h
    simp at h

namespace Caches

variable {t t' : Logical} {c : Cache} {i : Bp} {b : Blockno}

theorem unreferenced (h : Caches t c) (hrefcnt : (c.buf i).refcnt = 0) :
    (c.buf i).locked = false ∧ ∀ b, (c.buf i).Holds ROOTDEV b → t.held b = none ∧ t.pending b = none := by
  have hfree : ∀ b, (c.buf i).Holds ROOTDEV b → t.held b = none ∧ t.pending b = none := by
    intro b hb
    rw [h.stands i b hb] at hrefcnt
    simp only [Logical.image, Nat.add_eq_zero_iff, List.length_eq_zero_iff, Option.toList_eq_nil_iff]
      at hrefcnt
    exact hrefcnt
  refine ⟨?_, hfree⟩
  by_cases hdev : (c.buf i).dev = ROOTDEV
  · have hb : (c.buf i).Holds ROOTDEV (c.buf i).blockno := ⟨hdev, rfl⟩
    rw [h.stands i _ hb, Logical.image, (hfree _ hb).1]
    rfl
  · exact (h.other i hdev).2

theorem put (h : Caches t c) (hwf : (c.set i (t'.image b)).Wf)
    (honly : ∀ j, (c.buf j).Holds ROOTDEV b → j = i)
    (hlost : ∀ b', (c.buf i).Holds ROOTDEV b' → b' ≠ b → t.held b' = none ∧ t.pending b' = none)
    (hdisk : t'.disk = t.disk)
    (hsame : ∀ b', b' ≠ b → t'.pending b' = t.pending b' ∧ t'.held b' = t.held b') :
    Caches t' (c.set i (t'.image b)) := by
  refine ⟨hwf, h.disk.trans hdisk.symm, ?_, ?_, ?_⟩
  · intro j hj
    by_cases hji : j = i
    · rw [hji, Cache.set_buf_self] at hj
      exact absurd rfl hj
    · rw [Cache.set_buf_of_ne c hji] at hj ⊢
      exact h.other j hj
  · intro j b' hj
    by_cases hji : j = i
    · rw [hji, Cache.set_buf_self] at hj ⊢
      rw [hj.2.symm]
      rfl
    · rw [Cache.set_buf_of_ne c hji] at hj ⊢
      have hne : b' ≠ b := by
        rintro rfl
        exact hji (honly j hj)
      rw [h.stands j b' hj, image_congr (congrFun hdisk b') (hsame b' hne).1 (hsame b' hne).2]
  · intro b' huse
    by_cases hne : b' = b
    · refine ⟨i, ?_⟩
      rw [Cache.set_buf_self, hne]
      exact t'.image_holds b
    · rw [(hsame b' hne).1, (hsame b' hne).2] at huse
      obtain ⟨j, hj⟩ := h.present b' huse
      refine ⟨j, ?_⟩
      have hji : j ≠ i := by
        rintro rfl
        simp [hlost b' hj hne] at huse
      rw [Cache.set_buf_of_ne c hji]
      exact hj

theorem set (h : Caches t c) (hb : (c.buf i).Holds ROOTDEV b) (hdisk : t'.disk = t.disk)
    (hsame : ∀ b', b' ≠ b → t'.pending b' = t.pending b' ∧ t'.held b' = t.held b') :
    Caches t' (c.set i (t'.image b)) := by
  refine h.put (h.wf.set hb.1.symm hb.2.symm) ?_ ?_ hdisk hsame
  · intro j hj
    exact h.wf.unique j i b hj hb
  · intro b' hb' hne
    exact absurd (hb'.2.symm.trans hb.2) hne

theorem recycle (h : Caches t c) (hmiss : ∀ j, ¬(c.buf j).Holds ROOTDEV b)
    (hi : (c.buf i).refcnt = 0) (hdisk : t'.disk = t.disk)
    (hsame : ∀ b', b' ≠ b → t'.pending b' = t.pending b' ∧ t'.held b' = t.held b') :
    Caches t' (c.set i (t'.image b)) := by
  refine h.put (h.wf.recycle hmiss rfl) ?_ ?_ hdisk hsame
  · intro j hj
    exact absurd hj (hmiss j)
  · intro b' hb' _
    exact (h.unreferenced hi).2 b' hb'

theorem reorder (h : Caches t c) (i : Bp) : Caches t { c with lru := i :: c.lru.erase i } :=
  ⟨h.wf.reorder i, h.disk, h.other, h.stands, h.present⟩

theorem buf_of_held (h : Caches t c) {data : Block} (hheld : t.held b = some data) :
    ∃ i, c.held b = some i ∧ (c.buf i).Holds ROOTDEV b ∧
      c.buf i = ⟨ROOTDEV, b, true, 1 + (t.pending b).toList.length, true, data⟩ := by
  obtain ⟨i, hi⟩ := h.present b (.inl (by simp [hheld]))
  have hbuf : c.buf i = ⟨ROOTDEV, b, true, 1 + (t.pending b).toList.length, true, data⟩ := by
    rw [h.stands i b hi, Logical.image, hheld]
    rfl
  refine ⟨i, ?_, hi, hbuf⟩
  rw [Cache.held, h.wf.cached_eq_some.mpr hi]
  simp [hbuf]

def Room (c : Cache) : Act → Prop
  | .bread b => (∃ i, (c.buf i).Holds ROOTDEV b) ∨ ∃ i, (c.buf i).refcnt = 0
  | _ => True

theorem room_of_act {a : Act} {r : Answer a × Cache} (hact : c.act a = some r) : Room c a := by
  cases a with
  | bread b =>
    cases hcached : c.cached ROOTDEV b with
    | some i => exact .inl ⟨i, Cache.cached_holds hcached⟩
    | none =>
      cases hunused : c.unused with
      | some i => exact .inr ⟨i, Cache.unused_spec hunused⟩
      | none => simp [Cache.act, Cache.bread, Cache.bget, hcached, hunused] at hact
  | _ => trivial

-- What the logical disk does, the cache does with the same answer.
def Answers (a : Act) (t : Logical) (c : Cache) : Prop :=
  ∀ answer t', step a t = some (answer, t') → ∃ c', c.act a = some (answer, c') ∧ Caches t' c'

theorem answers_bread (h : Caches t c) (hroom : Room c (.bread b)) : Answers (.bread b) t c := by
  intro answer t' hstep
  obtain ⟨hheld, rfl, ht'⟩ := step_bread hstep
  have hdisk : t'.disk = t.disk := by rw [ht']
  have hsame : ∀ b', b' ≠ b → t'.pending b' = t.pending b' ∧ t'.held b' = t.held b' := by
    intro b' hne
    rw [ht']
    exact ⟨rfl, update_of_ne hne _ _⟩
  have himage : t'.image b =
      ⟨ROOTDEV, b, true, (t.pending b).toList.length + 1, true, t.contents b⟩ := by
    rw [ht']
    simp [Logical.image, Nat.add_comm]
  cases hcached : c.cached ROOTDEV b with
  | some i =>
    have hi := Cache.cached_holds hcached
    have hbuf : c.buf i =
        ⟨ROOTDEV, b, true, (t.pending b).toList.length, false, t.contents b⟩ := by
      simp [h.stands i b hi, Logical.image, hheld]
    refine ⟨c.set i (t'.image b), ?_, h.set hi hdisk hsame⟩
    simp [Cache.act, Cache.bread_hit hcached hbuf, himage]
  | none =>
    have hmiss := h.wf.cached_eq_none.mp hcached
    have hpending : t.pending b = none := by
      cases hpending : t.pending b with
      | none => rfl
      | some data =>
        obtain ⟨i, hi⟩ := h.present b (.inr (by simp [hpending]))
        exact absurd hi (hmiss i)
    obtain ⟨j, hj⟩ : ∃ j, (c.buf j).refcnt = 0 := by
      rcases hroom with ⟨i, hi⟩ | hfree
      · exact absurd hi (hmiss i)
      · exact hfree
    obtain ⟨i, hunused⟩ := h.wf.exists_unused hj
    have hi := Cache.unused_spec hunused
    have hcontents : c.disk b = t.contents b := by simp [h.disk, Logical.contents, hpending]
    refine ⟨c.set i (t'.image b), ?_, h.recycle hmiss hi hdisk hsame⟩
    simp [Cache.act, Cache.bread_miss hcached hunused (h.unreferenced hi).1, himage, hpending,
      hcontents]

theorem answers_memmove (h : Caches t c) (b : Blockno) (data : Block) :
    Answers (.memmove b data) t c := by
  intro answer t' hstep
  simp only [step, Option.map_eq_some_iff, Prod.mk.injEq] at hstep
  obtain ⟨old, hheld, -, ht'⟩ := hstep
  obtain ⟨i, hlocked, hi, hbuf⟩ := h.buf_of_held hheld
  have himage : t'.image b = { c.buf i with data := data } := by
    rw [← ht', hbuf]
    simp [Logical.image]
  have hset : Caches t' (c.set i (t'.image b)) := by
    refine h.set hi (by rw [← ht']) ?_
    intro b' hne
    rw [← ht']
    exact ⟨rfl, update_of_ne hne _ _⟩
  rw [himage] at hset
  exact ⟨_, by simp only [Cache.act, hlocked, Option.map_some], hset⟩

theorem answers_bwrite (h : Caches t c) (b : Blockno) : Answers (.bwrite b) t c := by
  intro answer t' hstep
  simp only [step, Option.map_eq_some_iff, Prod.mk.injEq] at hstep
  obtain ⟨data, hheld, -, rfl⟩ := hstep
  obtain ⟨i, hlocked, hi, hbuf⟩ := h.buf_of_held hheld
  refine ⟨c.bwrite i, by simp only [Cache.act, hlocked, Option.map_some], ?_⟩
  refine ⟨⟨h.wf.lru, h.wf.unique⟩, ?_, h.other, ?_, h.present⟩
  · simp only [Cache.bwrite, hbuf, h.disk]
  · intro j b' hj
    refine (h.stands j b' hj).trans ?_
    by_cases hne : b' = b
    · simp [Logical.image, hne, hheld]
    · have hdisk : update t.disk b data b' = t.disk b' := update_of_ne hne _ _
      simp only [Logical.image, Logical.contents, hdisk]

theorem answers_brelse (h : Caches t c) (b : Blockno) : Answers (.brelse b) t c := by
  intro answer t' hstep
  obtain ⟨data, hheld, hkept, ht'⟩ := step_brelse hstep
  obtain ⟨i, hlocked, hi, hbuf⟩ := h.buf_of_held hheld
  have himage : t'.image b =
      { c.buf i with refcnt := (c.buf i).refcnt - 1, locked := false } := by
    rw [ht', hbuf]
    cases hpending : t.pending b with
    | none =>
      have hdata : data = t.disk b := by simpa [hpending] using hkept
      simp [Logical.image, Logical.contents, hdata]
    | some old => simp [Logical.image, Logical.contents]
  have hset : Caches t' (c.set i (t'.image b)) := by
    refine h.set hi (by rw [ht']) ?_
    intro b' hne
    rw [ht']
    exact ⟨update_of_ne hne _ _, update_of_ne hne _ _⟩
  rw [himage] at hset
  refine ⟨c.brelse i, by simp only [Cache.act, hlocked, Option.map_some], ?_⟩
  rcases c.brelse_eq i with heq | heq
  · rw [heq]
    exact hset
  · rw [heq]
    exact hset.reorder i

theorem answers_bpin (h : Caches t c) (b : Blockno) : Answers (.bpin b) t c := by
  intro answer t' hstep
  obtain ⟨data, hheld, hpending, ht'⟩ := step_bpin hstep
  obtain ⟨i, hlocked, hi, hbuf⟩ := h.buf_of_held hheld
  have himage : t'.image b = { c.buf i with refcnt := (c.buf i).refcnt + 1 } := by
    rw [ht', hbuf]
    simp [Logical.image, hheld, hpending]
  have hset : Caches t' (c.set i (t'.image b)) := by
    refine h.set hi (by rw [ht']) ?_
    intro b' hne
    rw [ht']
    exact ⟨update_of_ne hne _ _, rfl⟩
  rw [himage] at hset
  exact ⟨_, by simp only [Cache.act, Cache.bpin, hlocked, Option.map_some], hset⟩

theorem answers_bunpin (h : Caches t c) (b : Blockno) : Answers (.bunpin b) t c := by
  intro answer t' hstep
  obtain ⟨data, old, hheld, hpending, ht'⟩ := step_bunpin hstep
  obtain ⟨i, hlocked, hi, hbuf⟩ := h.buf_of_held hheld
  have himage : t'.image b = { c.buf i with refcnt := (c.buf i).refcnt - 1 } := by
    rw [ht', hbuf]
    simp [Logical.image, hheld, hpending]
  have hset : Caches t' (c.set i (t'.image b)) := by
    refine h.set hi (by rw [ht']) ?_
    intro b' hne
    rw [ht']
    exact ⟨update_of_ne hne _ _, rfl⟩
  rw [himage] at hset
  exact ⟨_, by simp only [Cache.act, Cache.drop, hlocked, Option.map_some], hset⟩

theorem answers (h : Caches t c) {a : Act} (hroom : Room c a) : Answers a t c := by
  cases a with
  | bread b => exact h.answers_bread hroom
  | memmove b data => exact h.answers_memmove b data
  | bwrite b => exact h.answers_bwrite b
  | brelse b => exact h.answers_brelse b
  | bpin b => exact h.answers_bpin b
  | bunpin b => exact h.answers_bunpin b

end Caches

end Xv6Ringbuf.Fs
