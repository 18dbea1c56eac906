import Xv6Ringbuf.Fs.CacheLogical

namespace Xv6Ringbuf.Fs

open Crash Function

def Act.block : Act → Blockno
  | .bread b => b
  | .memmove b _ => b
  | .bwrite b => b
  | .brelse b => b
  | .bpin b => b
  | .bunpin b => b

-- The same state while other processes hold the buffers `others`.
def Logical.hold (t : Logical) (others : Blockno → Option Block) : Logical :=
  { t with held := fun b => (others b).or (t.held b) }

variable {t t' : Logical} {others : Blockno → Option Block} {b : Blockno} {a : Act}
  {answer : Answer a} {c : Cache} {d : Blockno → Block}

theorem hold_held (hb : others b = none) : (t.hold others).held b = t.held b := by
  simp [Logical.hold, hb]

theorem hold_update {held : Blockno → Option Block} (hb : others b = none) (value : Option Block) :
    (fun b' => (others b').or (update held b value b')) =
      update (fun b' => (others b').or (held b')) b value := by
  funext b'
  by_cases hne : b' = b
  · simp [hne, hb]
  · simp [update_of_ne hne]

theorem step_hold (hb : others a.block = none) (h : step a t = some (answer, t')) :
    step a (t.hold others) = some (answer, t'.hold others) := by
  cases a with
  | bread b =>
    change others b = none at hb
    obtain ⟨hheld, rfl, rfl⟩ := step_bread h
    simp [step, Logical.hold, hb, hheld, hold_update hb, Logical.contents]
  | memmove b data =>
    change others b = none at hb
    simp only [step, Option.map_eq_some_iff, Prod.mk.injEq] at h
    obtain ⟨old, hheld, -, rfl⟩ := h
    simp [step, Logical.hold, hb, hheld, hold_update hb]
  | bwrite b =>
    change others b = none at hb
    simp only [step, Option.map_eq_some_iff, Prod.mk.injEq] at h
    obtain ⟨data, hheld, -, rfl⟩ := h
    simp [step, Logical.hold, hb, hheld]
  | brelse b =>
    change others b = none at hb
    obtain ⟨data, hheld, hkept, rfl⟩ := step_brelse h
    simp only [step, Logical.hold, hb, hheld, Option.none_or, hold_update hb, Option.bind_some]
    exact if_neg hkept
  | bpin b =>
    change others b = none at hb
    obtain ⟨data, hheld, hpending, rfl⟩ := step_bpin h
    simp [step, Logical.hold, hb, hheld, hpending]
  | bunpin b =>
    change others b = none at hb
    obtain ⟨data, old, hheld, hpending, rfl⟩ := step_bunpin h
    simp [step, Logical.hold, hb, hheld, hpending]

theorem step_refs (h : step a t = some (answer, t')) :
    (∀ b, b ≠ a.block →
      t'.held b = t.held b ∧ t'.pending b = t.pending b ∧ t'.disk b = t.disk b) ∧
    match a with
    | .bread b => t'.pending b = t.pending b ∧ (t'.held b).isSome
    | .memmove b _ => (t.held b).isSome ∧ t'.pending b = t.pending b ∧ (t'.held b).isSome
    | .bwrite b => (t.held b).isSome ∧ t'.pending b = t.pending b ∧ (t'.held b).isSome
    | .brelse b => (t.held b).isSome ∧ ((t'.pending b).isSome ↔ (t.pending b).isSome)
    | .bpin b => (t.held b).isSome
    | .bunpin b => (t.held b).isSome ∧ t'.pending b = none ∧ (t'.held b).isSome := by
  cases a with
  | bread b =>
    obtain ⟨-, -, rfl⟩ := step_bread h
    refine ⟨fun b' hne => ⟨update_of_ne hne _ _, rfl, rfl⟩, rfl, ?_⟩
    simp
  | memmove b data =>
    simp only [step, Option.map_eq_some_iff, Prod.mk.injEq] at h
    obtain ⟨old, hheld, -, rfl⟩ := h
    refine ⟨fun b' hne => ⟨update_of_ne hne _ _, rfl, rfl⟩, by simp [hheld], rfl, ?_⟩
    simp
  | bwrite b =>
    simp only [step, Option.map_eq_some_iff, Prod.mk.injEq] at h
    obtain ⟨data, hheld, -, rfl⟩ := h
    refine ⟨fun b' hne => ⟨rfl, rfl, update_of_ne hne _ _⟩, by simp [hheld], rfl, ?_⟩
    simp [hheld]
  | brelse b =>
    obtain ⟨data, hheld, -, rfl⟩ := step_brelse h
    refine ⟨fun b' hne => ⟨update_of_ne hne _ _, update_of_ne hne _ _, rfl⟩, ?_⟩
    simp [hheld]
  | bpin b =>
    obtain ⟨data, hheld, -, rfl⟩ := step_bpin h
    exact ⟨fun b' hne => ⟨rfl, update_of_ne hne _ _, rfl⟩, by simp [hheld]⟩
  | bunpin b =>
    obtain ⟨data, old, hheld, -, rfl⟩ := step_bunpin h
    refine ⟨fun b' hne => ⟨rfl, update_of_ne hne _ _, rfl⟩, ?_⟩
    simp [hheld]

theorem held_of_step (hstep : step a t = some (answer, t')) :
    (∃ b, a = .bread b) ∨ (t.held a.block).isSome := by
  have hrefs := (step_refs hstep).2
  cases a with
  | bread b => exact .inl ⟨b, rfl⟩
  | memmove b data => exact .inr hrefs.1
  | bwrite b => exact .inr hrefs.1
  | brelse b => exact .inr hrefs.1
  | bpin b => exact .inr hrefs
  | bunpin b => exact .inr hrefs.1

theorem bread_locked (h : Caches t c) {data : Block} (hheld : t.held b = some data) :
    c.act (.bread b) = none := by
  obtain ⟨i, -, hi, hbuf⟩ := h.buf_of_held hheld
  simp [Cache.act, Cache.bread, Cache.bget, h.wf.cached_eq_some.mpr hi, Cache.acquiresleep, hbuf]

-- The cache of a process while others hold the buffers `others`, whose blocks on
-- the disk stay as they were in `d`.
structure Framed (others : Blockno → Option Block) (d : Blockno → Block) (t : Logical) (c : Cache) :
    Prop where
  caches : Caches (t.hold others) c
  disjoint : ∀ b, (others b).isSome → t.held b = none
  disk : ∀ b, (others b).isSome → t.disk b = d b

theorem Framed.block_free (h : Framed others d t c) (hstep : step a t = some (answer, t'))
    (hbread : ∀ b, a = .bread b → others b = none) :
    others a.block = none := by
  rcases held_of_step hstep with ⟨b, rfl⟩ | hheld
  · exact hbread b rfl
  · cases hothers : others a.block with
    | none => rfl
    | some data =>
      have hnone : t.held a.block = none := h.disjoint a.block (by simp [hothers])
      simp [hnone] at hheld

theorem Framed.block_free_of_act {r : Answer a × Cache} (h : Framed others d t c)
    (hstep : step a t = some (answer, t')) (hact : c.act a = some r) :
    others a.block = none := by
  apply h.block_free hstep
  rintro b rfl
  cases hothers : others b with
  | none => rfl
  | some data =>
    have hheld : (t.hold others).held b = some data := by simp [Logical.hold, hothers]
    rw [bread_locked h.caches hheld] at hact
    cases hact

theorem framed_tracks (others : Blockno → Option Block) (d : Blockno → Block) :
    Tracks (fun a t answer t' => step a t = some (answer, t')) Cache.act (Framed others d) := by
  rintro a t c h ⟨answer', t', hstep⟩ answer c' hact
  have hblock := h.block_free_of_act hstep hact
  obtain ⟨c'', hact', hcaches⟩ := h.caches.answers (Caches.room_of_act hact) answer' _
    (step_hold hblock hstep)
  obtain ⟨rfl, rfl⟩ := Prod.mk.inj (Option.some.inj (hact.symm.trans hact'))
  have hsame : ∀ b, (others b).isSome → t'.held b = t.held b ∧ t'.disk b = t.disk b := by
    intro b hb
    have hne : b ≠ a.block := by
      rintro rfl
      simp [hblock] at hb
    obtain ⟨hheld, -, hdisk⟩ := (step_refs hstep).1 b hne
    exact ⟨hheld, hdisk⟩
  refine ⟨t', hstep, hcaches, ?_, ?_⟩
  · exact fun b hb => (hsame b hb).1.trans (h.disjoint b hb)
  · exact fun b hb => (hsame b hb).2.trans (h.disk b hb)

end Xv6Ringbuf.Fs
