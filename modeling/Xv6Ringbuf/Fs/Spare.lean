import Xv6Ringbuf.Fs.Hold

namespace Xv6Ringbuf.Fs

open Interleave Crash

-- What a program takes from the cache: it reads some of the blocks `reach`, and
-- besides blocks that are pinned anyway it holds one buffer at most. `seen` are
-- the blocks that it has read.
structure Spare where
  reach : Blockno → Prop
  pinned : Blockno → Prop
  extra : Option Blockno
  seen : Blockno → Prop

def Spare.see (g : Spare) (b : Blockno) : Spare := { g with seen := fun b' => g.seen b' ∨ b' = b }

open Classical in
noncomputable def Spare.take (g : Spare) : Act → Option Spare
  | .bread b =>
    if ¬g.reach b then none
    else if g.pinned b then some (g.see b)
    else if g.extra = none then some { g.see b with extra := some b }
    else none
  | .memmove _ _ => some g
  | .bwrite _ => some g
  | .brelse b => some { g with extra := g.extra.filter fun b' => b' ≠ b }
  | .bpin _ => none
  | .bunpin b => some { g with pinned := fun b' => g.pinned b' ∧ b' ≠ b }

-- The buffers that the program needs are there, if `room` says that they were at
-- the start.
structure Spares (others : Blockno → Option Block) (d : Blockno → Block) (room : Prop)
    (x : Logical × Spare) (c : Cache) : Prop where
  framed : Framed others d x.1 c
  pinned : ∀ b, x.2.pinned b → (x.1.pending b).isSome
  reach : room → ∀ b, x.2.reach b → others b = none
  seen : ∀ b, x.2.seen b → others b = none
  room : room → (∃ i, (c.buf i).refcnt = 0) ∨
    ∃ b, x.2.extra = some b ∧ others b = none ∧ x.1.pending b = none ∧ (x.1.held b).isSome

namespace Spares

variable {others : Blockno → Option Block} {d : Blockno → Block} {room : Prop} {t t' : Logical} {g g' : Spare}
  {c c' : Cache} {a : Act}

theorem enabled (h : Spares others d room (t, g) c) (hroom : room) (htake : g.take a = some g') :
    Caches.Room c a := by
  cases a with
  | bread b =>
    by_cases hpinned : g.pinned b
    · exact .inl (h.framed.caches.present b (.inr (h.pinned b hpinned)))
    · rcases h.room hroom with hfree | ⟨b', hextra, -⟩
      · exact .inr hfree
      · simp [Spare.take, hpinned, show g.extra = some b' from hextra] at htake
  | _ => trivial

variable {b : Blockno} {answer : Answer a} {i : Bp}

theorem reach_of_take (htake : g.take (.bread b) = some g') : g.reach b := by
  simp only [Spare.take] at htake
  split at htake
  · cases htake
  · rename_i hreach
    exact not_not.mp hreach

theorem take_bread (htake : g.take (.bread b) = some g') :
    g.pinned b ∧ g' = g.see b ∨
      ¬g.pinned b ∧ g.extra = none ∧ g' = { g.see b with extra := some b } := by
  simp only [Spare.take] at htake
  split at htake
  · cases htake
  · split at htake
    · rename_i hpinned
      exact .inl ⟨hpinned, (Option.some.inj htake).symm⟩
    · rename_i hpinned
      split at htake
      · rename_i hextra
        exact .inr ⟨hpinned, hextra, (Option.some.inj htake).symm⟩
      · cases htake

theorem pinned_of_take (htake : g.take a = some g') (hb : g'.pinned b) :
    g.pinned b ∧ a ≠ .bunpin b := by
  cases a with
  | bread b' =>
    rcases take_bread htake with ⟨-, rfl⟩ | ⟨-, -, rfl⟩
    · exact ⟨hb, by simp⟩
    · exact ⟨hb, by simp⟩
  | memmove b' data => exact ⟨Option.some.inj htake ▸ hb, by simp⟩
  | bwrite b' => exact ⟨Option.some.inj htake ▸ hb, by simp⟩
  | brelse b' =>
    rw [← Option.some.inj htake] at hb
    exact ⟨hb, by simp⟩
  | bpin b' => cases htake
  | bunpin b' =>
    rw [← Option.some.inj htake] at hb
    exact ⟨hb.1, fun heq => hb.2 (Act.bunpin.inj heq).symm⟩

theorem act_buf_of_ne {j : Bp} (hact : c.act a = some (answer, c')) (hheld : c.held a.block = some j)
    (hbread : ∀ b, a ≠ .bread b) (hij : i ≠ j) :
    c'.buf i = c.buf i := by
  cases a with
  | bread b => exact absurd rfl (hbread b)
  | memmove b data =>
    change c.held b = some j at hheld
    simp only [Cache.act, hheld, Option.map_some, Option.some.injEq, Prod.mk.injEq] at hact
    rw [← hact.2, Cache.set_buf_of_ne c hij]
  | bwrite b =>
    change c.held b = some j at hheld
    simp only [Cache.act, hheld, Option.map_some, Option.some.injEq, Prod.mk.injEq] at hact
    rw [← hact.2, Cache.bwrite]
  | brelse b =>
    change c.held b = some j at hheld
    simp only [Cache.act, hheld, Option.map_some, Option.some.injEq, Prod.mk.injEq] at hact
    rw [← hact.2]
    rcases c.brelse_eq j with heq | heq
    · rw [heq, Cache.set_buf_of_ne c hij]
    · rw [heq]
      exact Cache.set_buf_of_ne c hij _
  | bpin b =>
    change c.held b = some j at hheld
    simp only [Cache.act, hheld, Option.map_some, Option.some.injEq, Prod.mk.injEq] at hact
    rw [← hact.2, Cache.bpin, Cache.set_buf_of_ne c hij]
  | bunpin b =>
    change c.held b = some j at hheld
    simp only [Cache.act, hheld, Option.map_some, Option.some.injEq, Prod.mk.injEq] at hact
    rw [← hact.2, Cache.drop, Cache.set_buf_of_ne c hij]

theorem free_of_act (h : Caches t c) (hstep : step a t = some (answer, t'))
    (hact : c.act a = some (answer, c')) (hhit : ∀ b, a = .bread b → (t.pending b).isSome)
    (hi : (c.buf i).refcnt = 0) : (c'.buf i).refcnt = 0 := by
  rcases held_of_step hstep with ⟨b, rfl⟩ | hheld
  · obtain ⟨data, hpending⟩ := Option.isSome_iff_exists.mp (hhit b rfl)
    obtain ⟨j, hj⟩ := h.present b (.inr (hhit b rfl))
    have hfree : t.held b = none := by
      cases hheld : t.held b with
      | none => rfl
      | some data => simp [step, hheld] at hstep
    have hbuf : c.buf j = ⟨ROOTDEV, b, true, 1, false, t.contents b⟩ := by
      simp [h.stands j b hj, Logical.image, hfree, hpending]
    have hij : i ≠ j := by
      rintro rfl
      rw [hbuf] at hi
      cases hi
    rw [Cache.act, Cache.bread_hit (h.wf.cached_eq_some.mpr hj) hbuf, Option.map_some,
      Option.some.injEq, Prod.mk.injEq] at hact
    rw [← hact.2, Cache.set_buf_of_ne c hij]
    exact hi
  · obtain ⟨data, hdata⟩ := Option.isSome_iff_exists.mp hheld
    obtain ⟨j, hlocked, -, hbuf⟩ := h.buf_of_held hdata
    have hij : i ≠ j := by
      rintro rfl
      rw [hbuf] at hi
      simp at hi
    have hbread : ∀ b, a ≠ .bread b := by
      rintro b rfl
      rw [Act.block] at hdata
      simp [step, hdata] at hstep
    rw [act_buf_of_ne hact hlocked hbread hij]
    exact hi

theorem keeps_pinned (h : Spares others d room (t, g) c) (hstep : step a t = some (answer, t'))
    (htake : g.take a = some g') (b : Blockno) (hb : g'.pinned b) : (t'.pending b).isSome := by
  obtain ⟨hpinned, hunpin⟩ := pinned_of_take htake hb
  obtain ⟨hother, hrefs⟩ := step_refs hstep
  have hpending : (t.pending b).isSome := h.pinned b hpinned
  by_cases hne : b = a.block
  · subst hne
    cases a with
    | bread b => exact (congrArg Option.isSome hrefs.1).trans hpending
    | memmove b data => exact (congrArg Option.isSome hrefs.2.1).trans hpending
    | bwrite b => exact (congrArg Option.isSome hrefs.2.1).trans hpending
    | brelse b => exact hrefs.2.mpr hpending
    | bpin b => cases htake
    | bunpin b => exact absurd rfl hunpin
  · rw [(hother b hne).2.1]
    exact hpending

theorem keeps_extra (h : Spares others d room (t, g) c) (hstep : step a t = some (answer, t'))
    (htake : g.take a = some g') (hact : c.act a = some (answer, c')) (hextra : g.extra = some b)
    (hb : others b = none) (hpending : t.pending b = none) (hheld : (t.held b).isSome) :
    (∃ i, (c'.buf i).refcnt = 0) ∨
      g'.extra = some b ∧ t'.pending b = none ∧ (t'.held b).isSome := by
  obtain ⟨data, hdata⟩ := Option.isSome_iff_exists.mp hheld
  obtain ⟨hother, hrefs⟩ := step_refs hstep
  cases a with
  | bread b' =>
    rcases take_bread htake with ⟨-, rfl⟩ | ⟨-, hnone, -⟩
    · have hne : b ≠ b' := by
        rintro rfl
        simp [step, hdata] at hstep
      rw [(hother b hne).1, (hother b hne).2.1]
      exact .inr ⟨hextra, hpending, hheld⟩
    · rw [hextra] at hnone
      cases hnone
  | memmove b' new =>
    rw [← Option.some.inj htake]
    refine .inr ⟨hextra, ?_⟩
    by_cases hne : b = b'
    · rw [hne] at hpending ⊢
      exact ⟨hrefs.2.1.trans hpending, hrefs.2.2⟩
    · rw [(hother b hne).1, (hother b hne).2.1]
      exact ⟨hpending, hheld⟩
  | bwrite b' =>
    rw [← Option.some.inj htake]
    refine .inr ⟨hextra, ?_⟩
    by_cases hne : b = b'
    · rw [hne] at hpending ⊢
      exact ⟨hrefs.2.1.trans hpending, hrefs.2.2⟩
    · rw [(hother b hne).1, (hother b hne).2.1]
      exact ⟨hpending, hheld⟩
  | brelse b' =>
    by_cases hne : b = b'
    · subst hne
      have hhold : (t.hold others).held b = some data := by rw [hold_held hb, hdata]
      obtain ⟨i, hlocked, -, hbuf⟩ := h.framed.caches.buf_of_held hhold
      refine .inl ⟨i, ?_⟩
      simp only [Cache.act, hlocked, Option.map_some, Option.some.injEq, Prod.mk.injEq] at hact
      have hrefcnt : (c.buf i).refcnt = 1 := by
        rw [hbuf]
        simp [Logical.hold, hpending]
      rw [← hact.2]
      rcases c.brelse_eq i with heq | heq
      · rw [heq, Cache.set_buf_self]
        simp [hrefcnt]
      · rw [heq]
        simp [hrefcnt]
    · rw [(hother b hne).1, (hother b hne).2.1, ← Option.some.inj htake]
      exact .inr ⟨by simp [hextra, hne], hpending, hheld⟩
  | bpin b' => cases htake
  | bunpin b' =>
    rw [← Option.some.inj htake]
    refine .inr ⟨hextra, ?_⟩
    by_cases hne : b = b'
    · rw [hne]
      exact hrefs.2
    · rw [(hother b hne).1, (hother b hne).2.1]
      exact ⟨hpending, hheld⟩

theorem keeps_room (h : Spares others d room (t, g) c) (hb : others a.block = none)
    (hstep : step a t = some (answer, t')) (htake : g.take a = some g')
    (hact : c.act a = some (answer, c')) (hroom : room) :
    (∃ i, (c'.buf i).refcnt = 0) ∨
      ∃ b, g'.extra = some b ∧ others b = none ∧ t'.pending b = none ∧ (t'.held b).isSome := by
  rcases h.room hroom with ⟨i, hi⟩ | ⟨b, hextra, hb, hpending, hheld⟩
  · by_cases hmiss : ∃ b, a = .bread b ∧ t.pending b = none
    · obtain ⟨b, rfl, hpending⟩ := hmiss
      obtain ⟨-, hpending', hheld'⟩ := step_refs hstep
      rcases take_bread htake with ⟨hpinned, -⟩ | ⟨-, -, rfl⟩
      · have hsome : (t.pending b).isSome := h.pinned b hpinned
        simp [hpending] at hsome
      · exact .inr ⟨b, rfl, hb, hpending'.trans hpending, hheld'⟩
    · have hhit : ∀ b, a = .bread b → (t.pending b).isSome := by
        intro b ha
        cases hpending : t.pending b with
        | none => exact absurd ⟨b, ha, hpending⟩ hmiss
        | some data => rfl
      exact .inl ⟨i, free_of_act h.framed.caches (step_hold hb hstep) hact hhit hi⟩
  · rcases h.keeps_extra hstep htake hact hextra hb hpending hheld with hfree | hkept
    · exact .inl hfree
    · exact .inr ⟨b, hkept.1, hb, hkept.2⟩

theorem reach_eq_of_take (htake : g.take a = some g') : g'.reach = g.reach := by
  cases a with
  | bread b =>
    rcases take_bread htake with ⟨-, rfl⟩ | ⟨-, -, rfl⟩
    · rfl
    · rfl
  | bpin b => cases htake
  | _ => rw [← Option.some.inj htake]

theorem seen_of_take (htake : g.take a = some g') (hb : g'.seen b) :
    g.seen b ∨ b = a.block := by
  cases a with
  | bread b' =>
    rcases take_bread htake with ⟨-, rfl⟩ | ⟨-, -, rfl⟩
    · exact hb
    · exact hb
  | bpin b' => cases htake
  | _ =>
    rw [← Option.some.inj htake] at hb
    exact .inl hb

end Spares

def SpareStep (a : Act) (x : Logical × Spare) (answer : Answer a) (y : Logical × Spare) : Prop :=
  step a x.1 = some (answer, y.1) ∧ x.2.take a = some y.2

theorem spare_tracks (others : Blockno → Option Block) (d : Blockno → Block) (room : Prop) :
    Tracks SpareStep Cache.act (Spares others d room) := by
  rintro a ⟨t, g⟩ c h ⟨answer', ⟨t', g'⟩, hstep, htake⟩ answer c' hact
  simp only at hstep htake
  obtain ⟨t'', hstep', hframed⟩ := framed_tracks others d a t c h.framed ⟨answer', t', hstep⟩
    answer c' hact
  obtain ⟨rfl, rfl⟩ := Prod.mk.inj (Option.some.inj (hstep'.symm.trans hstep))
  have hblock := h.framed.block_free_of_act hstep hact
  refine ⟨(t'', g'), ⟨hstep, htake⟩, hframed, h.keeps_pinned hstep htake, ?_, ?_,
    h.keeps_room hblock hstep htake hact⟩
  · rw [Spares.reach_eq_of_take htake]
    exact h.reach
  · intro b hb
    rcases Spares.seen_of_take htake hb with hseen | rfl
    · exact h.seen b hseen
    · exact hblock

theorem spare_simulates (others : Blockno → Option Block) (d : Blockno → Block) {room : Prop}
    (hroom : room) :
    Simulates SpareStep (fun a c answer c' => c.act a = some (answer, c'))
      (Spares others d room) := by
  intro a x c h henabled
  refine ⟨?_, spare_tracks others d room a x c h henabled⟩
  obtain ⟨answer, ⟨t', g'⟩, hstep, htake⟩ := henabled
  have hblock : others a.block = none := by
    apply h.framed.block_free hstep
    rintro b rfl
    exact h.reach hroom b (Spares.reach_of_take htake)
  obtain ⟨c', hact, -⟩ := h.framed.caches.answers (h.enabled hroom htake) answer _
    (step_hold hblock hstep)
  exact ⟨answer, c', hact⟩

end Xv6Ringbuf.Fs
