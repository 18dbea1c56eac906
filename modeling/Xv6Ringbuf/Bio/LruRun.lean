import Xv6Ringbuf.Bio.Lru

namespace Xv6Ringbuf.Bio

open Linked Trace Function

section Counts

variable {s s' : Cache} {order : List (Fin NBUF)} {b : Fin NBUF}

-- How the histories go on.
structure Cache.Ticks (s s' : Cache) : Prop where
  clock : s'.clock = s.clock + 1
  dropped : ∀ b, s'.dropped b =
    if s.bufs.refcnt b ≠ 0 ∧ s'.bufs.refcnt b = 0 then s.clock + 1 else s.dropped b

theorem Cache.Good.gain (h : s.Good order) (hticks : s.Ticks s') (hbufs : s'.bufs = addRef b 1 s.bufs)
    (hroom : s.refs b + 1 < 2 ^ 32) (hrefs : ∀ c, s'.refs c = if c = b then s.refs b + 1 else s.refs c) :
    s'.Good order := by
  have hsucc := h.toNat_succ hroom
  apply h.keep (by rw [hbufs]; rfl) (by rw [hbufs]; rfl) hticks.clock hticks.dropped
  · intro c hc
    rw [hbufs, refcnt_addRef] at hc
    by_cases heq : c = b
    · rw [if_pos heq] at hc
      rw [hc] at hsucc
      cases hsucc
    · rwa [if_neg heq] at hc
  · rw [hbufs]
    exact h.unique
  · intro c
    rw [hbufs, refcnt_addRef, hrefs]
    by_cases heq : c = b
    · rw [if_pos heq, if_pos heq, hsucc]
    · rw [if_neg heq, if_neg heq, h.refs]

theorem Cache.Good.lose (h : s.Good order) (hticks : s.Ticks s')
    (hbufs : s'.bufs = addRef b (-1) s.bufs) (hmore : 1 < s.refs b)
    (hrefs : ∀ c, s'.refs c = if c = b then s.refs b - 1 else s.refs c) : s'.Good order := by
  have hpred := h.toNat_pred (show 0 < s.refs b by omega)
  apply h.keep (by rw [hbufs]; rfl) (by rw [hbufs]; rfl) hticks.clock hticks.dropped
  · intro c hc
    rw [hbufs, refcnt_addRef] at hc
    by_cases heq : c = b
    · rw [if_pos heq] at hc
      rw [hc, UInt32.toNat_zero] at hpred
      omega
    · rwa [if_neg heq] at hc
  · rw [hbufs]
    exact h.unique
  · intro c
    rw [hbufs, refcnt_addRef, hrefs]
    by_cases heq : c = b
    · rw [if_pos heq, if_pos heq, hpred]
    · rw [if_neg heq, if_neg heq, h.refs]

theorem Cache.Good.drop (h : s.Good order) (hticks : s.Ticks s')
    (hbufs : s'.bufs = ((addRef b (-1) s.bufs).unlink (some b)).pushFront (some b))
    (hlast : s.refs b = 1) (hrefs : ∀ c, s'.refs c = if c = b then 0 else s.refs c) :
    ∃ order', s'.Good order' := by
  obtain ⟨A, B, rfl⟩ := List.append_of_mem (h.all b)
  have hrefcnt : ∀ c, s'.bufs.refcnt c = if c = b then 0 else s.bufs.refcnt c := by
    intro c
    have haddRef : s'.bufs.refcnt c = (addRef b (-1) s.bufs).refcnt c := by rw [hbufs]; rfl
    have hpred := h.toNat_pred (show 0 < s.refs b by omega)
    rw [haddRef, refcnt_addRef, show s.bufs.refcnt b + -1 = 0 from UInt32.toNat_inj.mp (by
      rw [hpred, hlast]
      rfl)]
  have hbefore : s.bufs.refcnt b ≠ 0 := fun hzero => by
    have href := h.refs b
    rw [hzero, hlast] at href
    cases href
  have hnew : s'.dropped b = s.clock + 1 := by
    rw [hticks.dropped, if_pos ⟨hbefore, by rw [hrefcnt, if_pos rfl]⟩]
  have hold : ∀ c, c ≠ b → s'.dropped c = s.dropped c := by
    intro c hc
    rw [hticks.dropped, if_neg]
    rintro ⟨hne, heq⟩
    rw [hrefcnt, if_neg hc] at heq
    exact hne heq
  have hnodup : b ∉ A ++ B := (List.nodup_cons.mp (List.perm_middle.nodup_iff.mp h.listed.nodup)).1
  have hne : ∀ c ∈ A ++ B, c ≠ b := fun c hc heq => hnodup (heq ▸ hc)
  have hlisted : (addRef b (-1) s.bufs).Listed (A ++ b :: B) :=
    ⟨h.listed.nodup, h.listed.next, h.listed.prev⟩
  refine ⟨b :: (A ++ B), ?_, ?_, ?_, ?_, ?_, ?_⟩
  · rw [hbufs]
    exact hlisted.unlink.pushFront hnodup
  · intro c
    exact List.perm_middle.mem_iff.mp (h.all c)
  · refine List.pairwise_cons.mpr ⟨fun c hc _ _ => .inl ?_, ?_⟩
    · rw [hnew, hold c (hne c hc)]
      exact Nat.lt_succ_of_le (h.stamps c)
    · have hsub : (A ++ B).Sublist (A ++ b :: B) := (List.sublist_cons_self b B).append_left A
      apply (h.recent.sublist hsub).imp_of_mem
      intro c d hc hd hcd hczero hdzero
      rw [hrefcnt, if_neg (hne c hc)] at hczero
      rw [hrefcnt, if_neg (hne d hd)] at hdzero
      unfold Cache.Older at hcd ⊢
      rw [hold c (hne c hc), hold d (hne d hd)]
      exact hcd hczero hdzero
  · rw [hbufs]
    exact h.unique
  · intro c
    rw [hrefcnt, hrefs]
    by_cases heq : c = b
    · rw [if_pos heq, if_pos heq]
      rfl
    · rw [if_neg heq, if_neg heq, h.refs]
  · intro c
    rw [hticks.clock]
    by_cases heq : c = b
    · rw [heq, hnew]
    · rw [hold c heq]
      exact (h.stamps c).trans (Nat.le_succ _)

theorem Cache.Good.relock (h : s.Good order) (hticks : s.Ticks s') {locked : Fin NBUF → Bool}
    (hbufs : s'.bufs = { s.bufs with locked := locked }) (hrefs : ∀ c, s'.refs c = s.refs c) :
    s'.Good order := by
  apply h.keep (by rw [hbufs]) (by rw [hbufs]) hticks.clock hticks.dropped
  · intro c hc
    rw [hbufs] at hc
    exact hc
  · rw [hbufs]
    exact h.unique
  · intro c
    rw [hrefs, hbufs]
    exact h.refs c

theorem Cache.Good.assign (h : s.Good order) (hticks : s.Ticks s') {dev blockno : UInt32}
    (hbufs : s'.bufs = assign b dev blockno s.bufs) (hfree : s.bufs.refcnt b = 0)
    (hmiss : ∀ c, ¬(s.bufs.dev c = dev ∧ s.bufs.blockno c = blockno))
    (hrefs : ∀ c, s'.refs c = if c = b then s.refs b + 1 else s.refs c) : s'.Good order := by
  have hrefcnt : ∀ c, s'.bufs.refcnt c = if c = b then 1 else s.bufs.refcnt c := by
    intro c
    rw [hbufs]
    exact update_apply _ _ _ _
  have hdev : ∀ c, s'.bufs.dev c = if c = b then dev else s.bufs.dev c := by
    intro c
    rw [hbufs]
    exact update_apply _ _ _ _
  have hblockno : ∀ c, s'.bufs.blockno c = if c = b then blockno else s.bufs.blockno c := by
    intro c
    rw [hbufs]
    exact update_apply _ _ _ _
  apply h.keep (by rw [hbufs]; rfl) (by rw [hbufs]; rfl) hticks.clock hticks.dropped
  · intro c hc
    rw [hrefcnt] at hc
    by_cases heq : c = b
    · rw [heq]
      exact hfree
    · rwa [if_neg heq] at hc
  · intro c d hne hsame hsame'
    rw [hdev] at hne
    rw [hdev, hdev] at hsame
    rw [hblockno, hblockno] at hsame'
    by_cases hc : c = b
    · by_cases hd : d = b
      · rw [hc, hd]
      · rw [if_pos hc, if_neg hd] at hsame hsame'
        exact absurd ⟨hsame.symm, hsame'.symm⟩ (hmiss d)
    · by_cases hd : d = b
      · rw [if_neg hc, if_pos hd] at hsame hsame'
        exact absurd ⟨hsame, hsame'⟩ (hmiss c)
      · rw [if_neg hc, if_neg hd] at hsame hsame'
        rw [if_neg hc] at hne
        exact h.unique c d hne hsame hsame'
  · intro c
    rw [hrefcnt, hrefs]
    by_cases heq : c = b
    · have href := h.refs b
      rw [hfree, UInt32.toNat_zero] at href
      rw [if_pos heq, if_pos heq, ← href]
      rfl
    · rw [if_neg heq, if_neg heq, h.refs]

end Counts

section Step

variable {s s' : Cache} {order : List (Fin NBUF)} {e : Event}

variable {b : Fin NBUF} {bufs : Bufs}

theorem refs_eq {s s' : Cache} {r : Nat}
    (hsame : ∀ c, c ≠ b → s'.waiting c = s.waiting c ∧ s'.bufs.locked c = s.bufs.locked c ∧
      s'.leaving c = s.leaving c ∧ s'.pins c = s.pins c) (hb : s'.refs b = r) (c : Fin NBUF) :
    s'.refs c = if c = b then r else s.refs c := by
  by_cases heq : c = b
  · rw [if_pos heq, heq, hb]
  · obtain ⟨hwaiting, hlocked, hleaving, hpins⟩ := hsame c heq
    rw [if_neg heq, Cache.refs, hwaiting, hlocked, hleaving, hpins, Cache.refs]

theorem good_bget (h : s.Good order) {dev blockno : UInt32} (hC : Orderly s (.bget dev blockno))
    (hstep : step s (.bget dev blockno) = .ok s') : s'.Good order := by
  have hsame : ∀ b : Fin NBUF, ∀ c, c ≠ b →
      update s.waiting b (s.waiting b + 1) c = s.waiting c := fun b c hc =>
    update_of_ne hc _ _
  rcases h.bget_cases dev blockno with
    ⟨b, _, _, hget⟩ | ⟨hmiss, ⟨b, hfree, _, hget⟩ | ⟨_, hget⟩⟩
  · simp only [step, hget] at hstep
    cases hstep
    refine h.gain ⟨rfl, fun _ => rfl⟩ rfl (hC b) (refs_eq (fun c hc => ⟨hsame b c hc, rfl, rfl, rfl⟩) ?_)
    simp only [Cache.refs, Cache.tick, update_self, addRef]
    omega
  · simp only [step, hget] at hstep
    cases hstep
    refine h.assign ⟨rfl, fun _ => rfl⟩ rfl hfree hmiss
      (refs_eq (fun c hc => ⟨hsame b c hc, rfl, rfl, rfl⟩) ?_)
    simp only [Cache.refs, Cache.tick, update_self, assign]
    omega
  · simp only [step, hget] at hstep
    cases hstep

theorem good_acquiresleep (h : s.Good order) (hstep : step s (.acquiresleep b) = .ok s') :
    s'.Good order := by
  by_cases hwaiting : s.waiting b = 0
  · simp only [step, if_pos hwaiting] at hstep
    cases hstep
  · by_cases hlocked : s.bufs.locked b = true
    · simp only [step, if_neg hwaiting, acquiresleep, if_pos hlocked] at hstep
      cases hstep
    · simp only [step, if_neg hwaiting, acquiresleep, if_neg hlocked] at hstep
      cases hstep
      refine h.relock ⟨rfl, fun _ => rfl⟩ rfl fun c => ?_
      simp only [Cache.refs, Cache.tick]
      by_cases heq : c = b
      · subst heq
        rw [Bool.not_eq_true] at hlocked
        rw [update_self, update_self, hlocked, Bool.toNat_true, Bool.toNat_false]
        omega
      · rw [update_of_ne heq, update_of_ne heq]

theorem good_releasesleep (h : s.Good order) (hstep : step s (.releasesleep b) = .ok s') :
    s'.Good order := by
  by_cases hlocked : s.bufs.locked b = true
  · simp only [step, releasesleep, if_pos hlocked] at hstep
    cases hstep
    refine h.relock ⟨rfl, fun _ => rfl⟩ rfl fun c => ?_
    simp only [Cache.refs, Cache.tick]
    by_cases heq : c = b
    · subst heq
      rw [update_self, update_self, hlocked, Bool.toNat_true, Bool.toNat_false]
      omega
    · rw [update_of_ne heq, update_of_ne heq]
  · simp only [step, releasesleep, if_neg hlocked] at hstep
    cases hstep

theorem brelse_of_zero (h : bufs.refcnt b + -1 = 0) :
    brelse b bufs = ((addRef b (-1) bufs).unlink (some b)).pushFront (some b) := by
  have hzero : (addRef b (-1) bufs).refcnt b = 0 := by rw [refcnt_addRef, if_pos rfl, h]
  exact if_pos hzero

theorem brelse_of_ne (h : bufs.refcnt b + -1 ≠ 0) :
    brelse b bufs = addRef b (-1) bufs := by
  have hne : ¬(addRef b (-1) bufs).refcnt b = 0 := by
    rw [refcnt_addRef, if_pos rfl]
    exact h
  exact if_neg hne

theorem locked_brelse (b : Fin NBUF) (bufs : Bufs) : (brelse b bufs).locked = bufs.locked := by
  by_cases h : bufs.refcnt b + -1 = 0
  · rw [brelse_of_zero h]
    rfl
  · rw [brelse_of_ne h]
    rfl

theorem good_brelse (h : s.Good order) (hstep : step s (.brelse b) = .ok s') :
    ∃ order', s'.Good order' := by
  by_cases hleaving : s.leaving b = 0
  · simp only [step, if_pos hleaving] at hstep
    cases hstep
  · simp only [step, if_neg hleaving] at hstep
    have hs' := (Except.ok.inj hstep).symm
    have hsome : 0 < s.refs b := by
      unfold Cache.refs
      omega
    have hpred := h.toNat_pred hsome
    have hbufs : s'.bufs = brelse b s.bufs := by rw [hs']; rfl
    have hlocked : s'.bufs.locked = s.bufs.locked := by rw [hbufs, locked_brelse]
    have hrefs : s'.refs b = s.refs b - 1 := by
      rw [Cache.refs, hlocked, hs']
      simp only [Cache.refs, Cache.tick, update_self]
      omega
    have hother : ∀ c, c ≠ b → s'.waiting c = s.waiting c ∧ s'.bufs.locked c = s.bufs.locked c ∧
        s'.leaving c = s.leaving c ∧ s'.pins c = s.pins c := by
      intro c hc
      refine ⟨by rw [hs']; rfl, by rw [hlocked], ?_, by rw [hs']; rfl⟩
      rw [hs']
      exact update_of_ne hc _ _
    have hticks : s.Ticks s' := by
      rw [hs']
      exact ⟨rfl, fun _ => rfl⟩
    by_cases hzero : s.bufs.refcnt b + -1 = 0
    · have hlast : s.refs b = 1 := by
        rw [hzero, UInt32.toNat_zero] at hpred
        omega
      exact h.drop hticks (hbufs.trans (brelse_of_zero hzero)) hlast
        (refs_eq hother (by rw [hrefs, hlast]))
    · have hmore : 1 < s.refs b := by
        by_contra hle
        apply hzero
        apply UInt32.toNat_inj.mp
        rw [hpred, UInt32.toNat_zero]
        omega
      exact ⟨order, h.lose hticks (hbufs.trans (brelse_of_ne hzero)) hmore (refs_eq hother hrefs)⟩

theorem good_bpin (h : s.Good order) (hC : Orderly s (.bpin b)) (hstep : step s (.bpin b) = .ok s') :
    s'.Good order := by
  cases hstep
  refine h.gain ⟨rfl, fun _ => rfl⟩ rfl hC (refs_eq (fun c hc => ⟨rfl, rfl, rfl, ?_⟩) ?_)
  · exact update_of_ne hc _ _
  · simp only [Cache.refs, Cache.tick, update_self, bpin, addRef]
    omega

theorem good_bunpin (h : s.Good order) (hC : Orderly s (.bunpin b))
    (hstep : step s (.bunpin b) = .ok s') : s'.Good order := by
  obtain ⟨hlocked, hpins⟩ := hC
  have hmore : 1 < s.refs b := by
    rw [Cache.refs, hlocked, Bool.toNat_true]
    omega
  cases hstep
  refine h.lose ⟨rfl, fun _ => rfl⟩ rfl hmore (refs_eq (fun c hc => ⟨rfl, rfl, rfl, ?_⟩) ?_)
  · exact update_of_ne hc _ _
  · simp only [Cache.refs, Cache.tick, update_self, bunpin, addRef]
    omega

theorem good_step (h : ∃ order, s.Good order) (hC : Orderly s e) (hstep : step s e = .ok s') :
    ∃ order, s'.Good order := by
  obtain ⟨order, h⟩ := h
  cases e with
  | bget dev blockno => exact ⟨order, good_bget h hC hstep⟩
  | acquiresleep b => exact ⟨order, good_acquiresleep h hstep⟩
  | releasesleep b => exact ⟨order, good_releasesleep h hstep⟩
  | brelse b => exact good_brelse h hstep
  | bpin b => exact ⟨order, good_bpin h hC hstep⟩
  | bunpin b => exact ⟨order, good_bunpin h hC hstep⟩

end Step

theorem binit_zero (b : Fin NBUF) : binit.dev b = 0 ∧ binit.refcnt b = 0 ∧ binit.locked b = false := by
  have hkeep : ∀ (bs : List (Fin NBUF)) (s : Bufs),
      (bs.foldl (fun s b => s.pushFront (some b)) s).dev = s.dev ∧
      (bs.foldl (fun s b => s.pushFront (some b)) s).refcnt = s.refcnt ∧
      (bs.foldl (fun s b => s.pushFront (some b)) s).locked = s.locked := by
    intro bs
    induction bs with
    | nil => exact fun s => ⟨rfl, rfl, rfl⟩
    | cons b bs ih => exact fun s => ih (s.pushFront (some b))
  obtain ⟨hdev, hrefcnt, hlocked⟩ := hkeep (List.finRange NBUF) zeroed
  refine ⟨?_, ?_, ?_⟩
  · exact congrFun hdev b
  · exact congrFun hrefcnt b
  · exact congrFun hlocked b

theorem refs_boot (b : Fin NBUF) : boot.refs b = 0 := by
  show 0 + (binit.locked b).toNat + 0 + 0 = 0
  rw [(binit_zero b).2.2]
  rfl

theorem good_boot : boot.Good (List.finRange NBUF).reverse where
  listed := listed_binit
  all b := List.mem_reverse.mpr (List.mem_finRange b)
  recent := List.pairwise_of_forall fun _ _ _ _ => .inr ⟨rfl, rfl⟩
  unique b _ hne := absurd (binit_zero b).1 hne
  refs b := by
    rw [refs_boot]
    show (binit.refcnt b).toNat = 0
    rw [(binit_zero b).2.1]
    rfl
  stamps _ := Nat.le_refl _

-- The list is whole in both directions, a block of a device is in one buffer only, and
-- `bget` recycles the buffer that was dropped first.
structure Cache.Sound (s : Cache) : Prop where
  list : ∃ order : List (Fin NBUF), order.Nodup ∧ (∀ b, b ∈ order) ∧
    Loop s.bufs.next none (order.map some) ∧ Loop s.bufs.prev none (order.map some).reverse
  inverse : ∀ n, s.bufs.prev (s.bufs.next n) = n ∧ s.bufs.next (s.bufs.prev n) = n
  unique : ∀ b c, s.bufs.dev b ≠ 0 → s.bufs.dev b = s.bufs.dev c →
    s.bufs.blockno b = s.bufs.blockno c → b = c
  lru : ∀ dev blockno, (∀ c, ¬(s.bufs.dev c = dev ∧ s.bufs.blockno c = blockno)) →
    (∃ b, s.bufs.refcnt b = 0 ∧ (∀ c, c ≠ b → s.bufs.refcnt c = 0 → s.Older b c) ∧
      bget dev blockno s.bufs = .ok (b, assign b dev blockno s.bufs)) ∨
    (∀ c, s.bufs.refcnt c ≠ 0) ∧ bget dev blockno s.bufs = .error .noBuffers

theorem Cache.Good.sound {s : Cache} {order : List (Fin NBUF)} (h : s.Good order) : s.Sound where
  list := ⟨order, h.listed.nodup, h.all, h.listed.next, h.listed.prev⟩
  inverse n := by
    have hn : n ∈ none :: order.map some := by
      cases n with
      | none => exact List.mem_cons_self
      | some b => exact List.mem_cons_of_mem _ (List.mem_map_of_mem (h.all b))
    exact ⟨h.listed.prev_next hn, h.listed.next_prev hn⟩
  unique := h.unique
  lru dev blockno hmiss := by
    rcases h.bget_cases dev blockno with ⟨b, hdev, hblockno, _⟩ | ⟨_, hrest⟩
    · exact absurd ⟨hdev, hblockno⟩ (hmiss b)
    · exact hrest

-- The order of the list is no part of the state: each step gives the next one.
theorem buffer_list_whole_and_lru (events : List Event) (s : Cache)
    (horderly : Meets step Orderly boot events) (hrun : tryRun step boot events = .ok s) : s.Sound := by
  obtain ⟨order, h⟩ := (tryRun_keeps (I := fun s => ∃ order, Cache.Good s order) (E := fun _ => True)
    (fun _ _ _ h hC hstep => good_step h hC hstep) (fun _ _ _ _ _ _ => trivial)
    ⟨_, good_boot⟩ horderly).1 s hrun
  exact h.sound

def pinnedOnce : List Event :=
  [.bget 1 5, .acquiresleep 0, .bpin 0, .bunpin 0, .releasesleep 0, .brelse 0]

theorem buffer_list_whole_and_lru_pinned :
    ∃ s, tryRun step boot pinnedOnce = .ok s ∧ s.dropped 0 = 6 ∧ s.Sound := by
  have hdropped : (tryRun step boot pinnedOnce).toOption.map (·.dropped 0) = some 6 := by decide +kernel
  cases hrun : tryRun step boot pinnedOnce with
  | error e =>
    rw [hrun] at hdropped
    cases hdropped
  | ok s =>
    rw [hrun] at hdropped
    exact ⟨s, rfl, Option.some.inj hdropped,
      buffer_list_whole_and_lru pinnedOnce s (by decide +kernel) hrun⟩

-- A held buffer is unpinned that was not pinned. Until it is released `bget` takes it for
-- another block, although there are buffers that have never been used.
theorem unmatched_bunpin_breaks_lru :
    ∃ s, tryRun step boot [.bget 1 1, .acquiresleep 0, .bunpin 0] = .ok s ∧
      (∃ s', tryRun step s [.bget 1 2, .releasesleep 0, .brelse 0] = .ok s') ∧
      (∃ bufs, bget 1 2 s.bufs = .ok (0, bufs)) ∧ s.dropped 0 = 3 ∧
      s.bufs.refcnt 1 = 0 ∧ s.dropped 1 = 0 ∧ ¬s.Sound := by
  have hvalues : ((tryRun step boot [.bget 1 1, .acquiresleep 0, .bunpin 0]).toOption.map fun s =>
      ((tryRun step s [.bget 1 2, .releasesleep 0, .brelse 0]).toOption.isSome,
        (bget 1 2 s.bufs).toOption.map Prod.fst, s.dropped 0, s.bufs.refcnt 1, s.dropped 1,
        decide (∀ c, ¬(s.bufs.dev c = 1 ∧ s.bufs.blockno c = 2)))) =
      some (true, some 0, 3, 0, 0, true) := by
    decide +kernel
  cases hrun : tryRun step boot [.bget 1 1, .acquiresleep 0, .bunpin 0] with
  | error e =>
    rw [hrun] at hvalues
    cases hvalues
  | ok s =>
    rw [hrun] at hvalues
    simp only [Except.toOption, Option.map_some, Option.some.injEq, Prod.mk.injEq] at hvalues
    obtain ⟨hrest, hget, hdropped, hfree, hunused, hmiss⟩ := hvalues
    have hget' : ∃ bufs, bget 1 2 s.bufs = .ok (0, bufs) := by
      cases hbget : bget 1 2 s.bufs with
      | error e =>
        rw [hbget] at hget
        cases hget
      | ok r =>
        rw [hbget] at hget
        obtain ⟨b, bufs⟩ := r
        cases hget
        exact ⟨bufs, rfl⟩
    have hrest' : ∃ s', tryRun step s [.bget 1 2, .releasesleep 0, .brelse 0] = .ok s' := by
      cases hnext : tryRun step s [.bget 1 2, .releasesleep 0, .brelse 0] with
      | error e =>
        rw [hnext] at hrest
        cases hrest
      | ok s' => exact ⟨s', rfl⟩
    refine ⟨s, rfl, hrest', hget', hdropped, hfree, hunused, fun hsound => ?_⟩
    obtain ⟨bufs, hgot⟩ := hget'
    rcases hsound.lru 1 2 (of_decide_eq_true hmiss) with ⟨b, _, holder, hb⟩ | ⟨hused, _⟩
    · rw [hgot] at hb
      cases hb
      rcases holder 1 (by decide) hfree with h | ⟨h, _⟩ <;> omega
    · exact hused 1 hfree

end Xv6Ringbuf.Bio
