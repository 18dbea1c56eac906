import Xv6Ringbuf.Dev.VirtioQueue

namespace Xv6Ringbuf.Virtio

open State Function

variable {π β δ : Type} {s s' : State π β δ} {t t' : Atomic π β δ} {p q : π} {b : β} {write : Bool}
  {r : Req β} {phase : Phase β} {I : List Nat} {i head : Nat}

namespace State

-- The requests that the device has not carried out, and those that it has and no
-- interrupt has seen.
def unmoved (s : State π β δ) : List Nat := s.avail.pending s.devIdx ++ s.taken

def posted (s : State π β δ) : List Nat := s.used.pending s.usedIdx

def inflight (s : State π β δ) : List Nat := s.unmoved ++ s.posted

end State

theorem Req.ne_head (hi : i ∉ r.idx) : i ≠ r.i₀ :=
  (ne_of_mem_of_not_mem List.mem_cons_self hi).symm

-- A request in memory: the atomic disk has moved its block exactly if the device has
-- carried it out, and `b->disk` is set until an interrupt has seen it.
structure Request (s : State π β δ) (t : Atomic π β δ) (p : π) (r : Req β) : Prop
    extends Chain s r where
  req : s.ops r.i₀ = blkReq r.write (Atomic.sector (s.view.blockno r.buf))
  info : s.info r.i₀ = some r.buf
  job : t.job r.buf = some ⟨p, r.write, r.i₀ ∉ s.unmoved⟩
  disk : s.disk r.buf = decide (r.i₀ ∈ s.inflight)
  done : r.i₀ ∈ s.posted → s.status r.i₀ = 0

def Own (s : State π β δ) (t : Atomic π β δ) (p : π) : Phase β → Prop
  | .idle => True
  | .allocating b write => t.job b = some ⟨p, write, false⟩ ∧ (s.view.blockno b).toNat < 2 ^ 31
  | .waiting r => Request s t p r

-- What links the driver, the device and the disk that moves blocks at once.
structure Inv (s : State π β δ) (t : Atomic π β δ) : Prop where
  free : ∀ i, s.free i = true ↔ i < NUM ∧ ∀ p, i ∉ (s.phase p).idx
  apart : ∀ p q i, i ∈ (s.phase p).idx → i ∈ (s.phase q).idx → p = q
  own : ∀ p, Own s t p (s.phase p)
  jobs : ∀ b job, t.job b = some job → (s.phase job.caller).buf = some b
  nodup : s.inflight.Nodup
  heads : ∀ head ∈ s.inflight, ∃ p r, s.phase p = .waiting r ∧ r.i₀ = head
  view : s.view = t.view

-- A step that is about buffer `b` and the descriptors `I`. It may also write to those
-- that are free.
structure Frame (I : List Nat) (b : β) (s s' : State π β δ) (t t' : Atomic π β δ) : Prop where
  desc : ∀ i ∉ I, s.free i = false → s'.desc i = s.desc i
  ops : ∀ i ∉ I, s'.ops i = s.ops i
  info : ∀ i ∉ I, s'.info i = s.info i
  status : ∀ i ∉ I, s'.status i = s.status i
  unmoved : ∀ i ∉ I, (i ∈ s'.unmoved ↔ i ∈ s.unmoved)
  posted : ∀ i ∉ I, (i ∈ s'.posted ↔ i ∈ s.posted)
  blockno : ∀ b' ≠ b, s'.view.blockno b' = s.view.blockno b'
  disk : ∀ b' ≠ b, s'.disk b' = s.disk b'
  job : ∀ b' ≠ b, t'.job b' = t.job b'

theorem Request.frame (h : Request s t p r) (hframe : Frame I b s s' t t')
    (hidx : ∀ i ∈ r.idx, i ∉ I ∧ s.free i = false) (hb : r.buf ≠ b) : Request s' t' p r := by
  simp only [Req.idx, List.forall_mem_cons] at hidx
  obtain ⟨⟨h₀, hbusy₀⟩, ⟨h₁, hbusy₁⟩, ⟨h₂, hbusy₂⟩, -⟩ := hidx
  refine ⟨⟨h.lt, h.apart, ?_, ?_, ?_⟩, ?_, ?_, ?_, ?_, ?_⟩
  · rw [hframe.desc _ h₀ hbusy₀, h.op]
  · rw [hframe.desc _ h₁ hbusy₁, h.data]
  · rw [hframe.desc _ h₂ hbusy₂, h.status]
  · rw [hframe.ops _ h₀, hframe.blockno _ hb, h.req]
  · rw [hframe.info _ h₀, h.info]
  · simp only [hframe.job _ hb, h.job, hframe.unmoved _ h₀]
  · simp only [hframe.disk _ hb, h.disk, inflight, List.mem_append, hframe.unmoved _ h₀,
      hframe.posted _ h₀]
  · rw [hframe.posted _ h₀, hframe.status _ h₀]
    exact h.done

theorem Own.frame (h : Own s t p phase) (hframe : Frame I b s s' t t')
    (hidx : ∀ i ∈ phase.idx, i ∉ I ∧ s.free i = false) (hb : phase.buf ≠ some b) :
    Own s' t' p phase := by
  cases phase with
  | idle => trivial
  | allocating b' write =>
    have hne : b' ≠ b := fun heq => hb (congrArg some heq)
    rw [Own, hframe.job b' hne, hframe.blockno b' hne]
    exact h
  | waiting r => exact Request.frame h hframe hidx fun heq => hb (congrArg some heq)

theorem Own.congr (h : Own s t p phase) (hview : s'.view = s.view)
    (hr : ∀ r, Request s t p r → Request s' t p r) : Own s' t p phase := by
  cases phase with
  | idle => trivial
  | allocating => exact ⟨h.1, hview ▸ h.2⟩
  | waiting r => exact hr r h

theorem Own.job (h : Own s t p phase) (hb : phase.buf = some b) :
    ∃ write done, t.job b = some ⟨p, write, done⟩ := by
  cases phase with
  | idle => cases hb
  | allocating b' write =>
    obtain rfl := Option.some.inj hb
    exact ⟨write, false, h.1⟩
  | waiting r =>
    obtain rfl := Option.some.inj hb
    exact ⟨r.write, _, Request.job h⟩

theorem Own.lt (h : Own s t p phase) (hi : i ∈ phase.idx) : i < NUM := by
  cases phase with
  | idle | allocating => cases hi
  | waiting r => exact (Request.toChain h).lt i hi

-- The heads in the rings are descriptors, so that there is room for one more.
theorem length_le_num {heads : List Nat} (hnodup : heads.Nodup) (hlt : ∀ head ∈ heads, head < NUM) :
    heads.length ≤ NUM := by
  rw [← List.length_range (n := NUM)]
  exact (List.subperm_of_subset hnodup fun head hhead => List.mem_range.mpr (hlt head hhead)).length_le

namespace Inv

variable (h : Inv s t)
include h

theorem request (hp : s.phase p = .waiting r) : Request s t p r := by
  have hown := h.own p
  rwa [hp] at hown

theorem busy (hi : i ∈ (s.phase p).idx) : s.free i = false := by
  have hfree := h.free i
  grind

theorem buf_ne (hp : (s.phase p).buf = some b) (hq : q ≠ p) : (s.phase q).buf ≠ some b := by
  intro hb
  obtain ⟨_, _, hjp⟩ := (h.own p).job hp
  obtain ⟨_, _, hjq⟩ := (h.own q).job hb
  rw [hjp] at hjq
  exact hq (Job.mk.inj (Option.some.inj hjq)).1.symm

theorem job_eq_none (hb : ∀ q, (s.phase q).buf ≠ some b) : t.job b = none := by
  cases hjob : t.job b with
  | none => rfl
  | some job => exact absurd (h.jobs b job hjob) (hb job.caller)

theorem head_lt (hhead : head ∈ s.inflight) : head < NUM := by
  obtain ⟨p, r, hp, rfl⟩ := h.heads head hhead
  exact (h.request hp).lt _ List.mem_cons_self

-- Neither the channel of a process nor the history decides what the driver does next.
theorem congr (asleep : π → Option (Chan β)) (history : List (Deed π β δ)) :
    Inv { s with asleep := asleep, history := history } t :=
  { h with own := fun p => (h.own p).congr rfl fun _ hr => { hr with } }

theorem take (hne : s.devIdx ≠ s.avail.idx) : Inv s.take t := by
  have hcons : s.avail.pending s.devIdx =
      s.avail.read s.devIdx :: s.avail.pending (s.devIdx + 1) := Ring.pending_cons hne
  have hunmoved : s.take.unmoved.Perm s.unmoved := by
    rw [unmoved, unmoved, hcons, List.cons_append]
    simp only [State.take]
    rw [← List.append_assoc]
    exact List.perm_append_singleton _ _
  have hperm : s.take.inflight.Perm s.inflight := hunmoved.append_right _
  refine { h with
    own := fun p => (h.own p).congr rfl fun r hr => { hr with job := ?_, disk := ?_ }
    nodup := hperm.nodup_iff.mpr h.nodup
    heads := fun head hhead => h.heads head (hperm.mem_iff.mp hhead) }
  · simp only [hr.job, hunmoved.mem_iff]
  · exact hr.disk.trans (by simp only [hperm.mem_iff])

variable [DecidableEq π]

-- A section of process `p`, or a step for it, that leaves it in `phase`.
theorem enter (p : π) (phase : Phase β) (hphase : s'.phase = update s.phase p phase)
    (hframe : Frame I b s s' t t')
    (hbuf : (s.phase p).buf = none ∨ (s.phase p).buf = some b)
    (hothers : ∀ q ≠ p, (s.phase q).buf ≠ some b)
    (hI : ∀ i ∈ I, i ∈ (s.phase p).idx ∨ s.free i = true) (hidx : phase.idx ⊆ I)
    (hfree : ∀ i, s'.free i = true ↔ (i ∈ (s.phase p).idx ∨ s.free i = true) ∧ i ∉ phase.idx)
    (hown : Own s' t' p phase) (hjob : t'.job b = none ∨ phase.buf = some b)
    (hnodup : s'.inflight.Nodup)
    (hheads : ∀ head ∈ s'.inflight, (∃ r, phase = .waiting r ∧ r.i₀ = head) ∨
      head ∈ s.inflight ∧ ∀ r, s.phase p = .waiting r → r.i₀ ≠ head)
    (hview : s'.view = t'.view) : Inv s' t' := by
  have hp : s'.phase p = phase := by rw [hphase, update_self]
  have hq : ∀ q ≠ p, s'.phase q = s.phase q := fun q hq => by rw [hphase, update_of_ne hq]
  have hfar : ∀ q ≠ p, ∀ i, i ∈ (s.phase p).idx ∨ s.free i = true → i ∉ (s.phase q).idx := by
    rintro q hne i (hi | hi) hiq
    · exact hne (h.apart q p i hiq hi)
    · exact ((h.free i).mp hi).2 q hiq
  refine ⟨?_, ?_, ?_, ?_, hnodup, ?_, hview⟩
  · intro i
    have hlt := (h.own p).lt (i := i)
    have hold := h.free i
    rw [hfree]
    constructor
    · rintro ⟨hi, hnot⟩
      refine ⟨by grind, fun q => ?_⟩
      by_cases hne : q = p
      · rwa [hne, hp]
      · rw [hq q hne]
        exact hfar q hne i hi
    · rintro ⟨hi, hnone⟩
      refine ⟨or_iff_not_imp_left.mpr fun hnot => hold.mpr ⟨hi, fun q => ?_⟩, hp ▸ hnone p⟩
      by_cases hne : q = p
      · rwa [hne]
      · exact hq q hne ▸ hnone q
  · have hnew : ∀ q ≠ p, ∀ i ∈ (s'.phase p).idx, i ∉ (s'.phase q).idx := by
      intro q hne i hi
      rw [hp] at hi
      rw [hq q hne]
      exact hfar q hne i (hI i (hidx hi))
    have hold := h.apart
    intro q q' i
    by_cases hne : q = p <;> by_cases hne' : q' = p <;> grind
  · intro q
    by_cases hne : q = p
    · rwa [hne, hp]
    rw [hq q hne]
    refine (h.own q).frame hframe (fun i hi => ⟨fun hmem => ?_, h.busy hi⟩) (hothers q hne)
    exact hfar q hne i (hI i hmem) hi
  · intro b' job hb'
    by_cases hb : b' = b
    · subst hb
      rcases hjob with hnone | hphase
      · cases hnone.symm.trans hb'
      obtain ⟨_, _, hsome⟩ := hown.job hphase
      obtain rfl := Option.some.inj (hsome.symm.trans hb')
      rw [hp, hphase]
    rw [hframe.job b' hb] at hb'
    have huse := h.jobs b' job hb'
    rwa [hq]
    rintro rfl
    grind
  · intro head hhead
    rcases hheads head hhead with ⟨r, rfl, hr⟩ | ⟨hmem, hnot⟩
    · exact ⟨p, r, hp, hr⟩
    obtain ⟨q, r, hwait, hr⟩ := h.heads head hmem
    refine ⟨q, r, (hq q ?_).trans hwait, hr⟩
    rintro rfl
    exact hnot r hwait hr

-- A step of the device or of an interrupt for a request.
theorem touch (hp : s.phase p = .waiting r) (hphase : s'.phase = s.phase) (hfree : s'.free = s.free)
    (hframe : Frame r.idx r.buf s s' t t') (hr : Request s' t' p r) (hnodup : s'.inflight.Nodup)
    (hheads : ∀ head ∈ s'.inflight, head ∈ s.inflight) (hview : s'.view = t'.view) : Inv s' t' := by
  have hbuf : (s.phase p).buf = some r.buf := congrArg Phase.buf hp
  have hidx : (s.phase p).idx = r.idx := congrArg Phase.idx hp
  refine h.enter p (.waiting r) ?_ hframe (.inr hbuf) (fun q => h.buf_ne hbuf) ?_
    (List.Subset.refl _) ?_ hr (.inr rfl) hnodup ?_ hview
  · rw [hphase, ← hp, update_eq_self]
  · exact fun i hi => .inl (hidx ▸ hi)
  · intro i
    have hbusy := h.busy (p := p) (i := i)
    rw [hfree, hidx] at *
    change _ ↔ _ ∧ i ∉ r.idx
    grind
  · intro head hhead
    by_cases hr : r.i₀ = head
    · exact .inl ⟨r, rfl, hr⟩
    · refine .inr ⟨hheads head hhead, fun r' hr' => ?_⟩
      rwa [← Phase.waiting.inj (hp.symm.trans hr')]

variable [DecidableEq β]

theorem intr : ∃ s', virtioDiskIntr s = .ok s' ∧ s'.history = s.history ∧ Inv s' t := by
  by_cases hne : s.usedIdx = s.used.idx
  · exact ⟨s, if_pos hne, rfl, h⟩
  have hcons : s.posted = s.used.read s.usedIdx :: s.used.pending (s.usedIdx + 1) :=
    Ring.pending_cons hne
  generalize hid : s.used.read s.usedIdx = id at hcons
  have hmem : id ∈ s.posted := by simp [hcons]
  obtain ⟨p, r, hp, rfl⟩ := h.heads id (List.mem_append_right _ hmem)
  have hr := h.request hp
  have hperm : s.inflight.Perm (r.i₀ :: (s.unmoved ++ s.used.pending (s.usedIdx + 1))) := by
    rw [inflight, hcons]
    exact List.perm_middle
  obtain ⟨hfresh, hrest⟩ := List.nodup_cons.mp (hperm.nodup_iff.mp h.nodup)
  refine ⟨wakeup (.buf r.buf) { s with
    disk := update s.disk r.buf false, usedIdx := s.usedIdx + 1 }, ?_, rfl, ?_⟩
  · simp only [virtioDiskIntr, hne, hid, hr.done hmem, hr.info, ne_eq, not_true_eq_false, if_false]
  refine h.touch hp rfl rfl ?_ ?_ hrest
    (fun head hhead => hperm.mem_iff.mpr (List.mem_cons_of_mem _ hhead)) h.view
  · constructor
    case posted =>
      intro i hi
      rw [hcons, List.mem_cons, or_iff_right (Req.ne_head hi)]
      rfl
    case disk => exact fun b' hb => update_of_ne hb ..
    all_goals intros; rfl
  · refine { hr with disk := ?_, done := ?_ }
    · exact (update_self ..).trans (decide_eq_false hfresh).symm
    · exact fun hposted => absurd (List.mem_append_right _ hposted) hfresh

theorem complete {status : UInt8} {view : View β δ} (he : Reliable s (.complete head status view)) :
    ∃ s' deed t', s.complete head status view = .ok s' ∧ s'.history = s.history ++ [deed] ∧
      t.step deed = some t' ∧ Inv s' t' := by
  obtain ⟨hhead, hdevice⟩ := he
  have hunmoved : head ∈ s.unmoved := List.mem_append_right _ hhead
  obtain ⟨p, r, hp, rfl⟩ := h.heads head (List.mem_append_left _ hunmoved)
  have hr := h.request hp
  have hjob := hr.job
  rw [decide_eq_false (not_not_intro hunmoved)] at hjob
  have hrequest := hr.request_eq hr.req
  obtain ⟨rfl, hview⟩ := hdevice _ _ _ hrequest
  have hout : ∀ sector, decide ((blkReq r.write sector).type = VIRTIO_BLK_T_OUT) = r.write := by
    cases r.write <;> simp [blkReq, VIRTIO_BLK_T_IN, VIRTIO_BLK_T_OUT]
  rw [hout] at hview
  generalize hs' : ({ s with
    view := view, status := update s.status r.i₀ 0, used := s.used.push r.i₀
    taken := s.taken.erase r.i₀, history := s.history ++ [.move r.buf r.write] } :
    State π β δ) = s'
  have hmove : s.unmoved.Perm (r.i₀ :: s'.unmoved) := by
    rw [← hs']
    exact ((List.perm_cons_erase hhead).append_left _).trans List.perm_middle
  obtain ⟨hgone, hrest⟩ := List.nodup_cons.mp (hmove.nodup_iff.mp (List.nodup_append.mp h.nodup).1)
  have hposted : s'.posted = s.posted ++ [r.i₀] := by
    rw [← hs']
    apply Ring.pending_push
    have hlen := length_le_num h.nodup fun _ => h.head_lt
    have hpos := List.length_pos_of_mem hunmoved
    rw [inflight, List.length_append, posted] at hlen
    exact show (s.used.pending s.usedIdx).length < NUM by omega
  have hperm : s'.inflight.Perm s.inflight := by
    rw [inflight, hposted, ← List.append_assoc]
    exact (List.perm_append_singleton ..).trans (hmove.symm.append_right s.posted)
  refine ⟨s', .move r.buf r.write, Atomic.assign { t with
    view := t.view.move r.buf (Atomic.sector (t.view.blockno r.buf)) r.write } r.buf
      (some ⟨p, r.write, true⟩), ?_, ?_, ?_, ?_⟩
  · simp only [State.complete, hrequest, hout, hs']
  · rw [← hs']
  · simp only [Atomic.step, hjob, Option.bind_some, and_self, if_true]
  subst hs'
  refine h.touch hp rfl rfl ?_ ?_ (hperm.nodup_iff.mpr h.nodup)
    (fun head hhead => hperm.mem_iff.mp hhead) ?_
  · constructor
    case status => exact fun i hi => update_of_ne (Req.ne_head hi) ..
    case unmoved =>
      intro i hi
      rw [hmove.mem_iff, List.mem_cons, or_iff_right (Req.ne_head hi)]
    case posted =>
      intro i hi
      rw [hposted, List.mem_append, List.mem_singleton, or_iff_left (Req.ne_head hi)]
    case blockno =>
      intros
      rw [hview]
      rfl
    case job => exact fun b' hb => update_of_ne hb ..
    all_goals intros; rfl
  · refine { hr with req := ?_, job := ?_, disk := ?_, done := fun _ => update_self .. }
    · rw [hview]
      exact hr.req
    · rw [decide_eq_true hgone]
      exact update_self ..
    · exact hr.disk.trans (by simp only [hperm.mem_iff])
  · change view = View.move t.view ..
    rw [hview, ← h.view]
    rfl

theorem call (hidle : s.phase p = .idle) (hb : ∀ q, (s.phase q).buf ≠ some b) (write : Bool)
    {n : UInt32} (hn : n.toNat < 2 ^ 31) (d : δ) :
    Inv (s.call p b write n d)
      (Atomic.assign { t with view := t.view.fill b n d } b (some ⟨p, write, false⟩)) := by
  refine h.enter p (.allocating b write) (I := []) (b := b) rfl ?_
    (.inl (congrArg Phase.buf hidle)) (fun q _ => hb q) (fun i hi => by cases hi)
    (List.Subset.refl _) ?_ ⟨update_self .., ?_⟩ (.inr rfl) h.nodup ?_
    (congrArg (View.fill · b n d) h.view)
  · constructor
    case blockno | job => exact fun b' hb' => update_of_ne hb' ..
    all_goals intros; rfl
  · intro i
    simp [hidle, Phase.idx, State.call, State.note, State.enter]
  · exact (congrArg UInt32.toNat (update_self ..)).trans_lt hn
  · exact fun head hhead => .inr ⟨hhead, fun r hr => by cases hidle.symm.trans hr⟩

-- The process has its descriptors and fills them in.
theorem publish (hp : s.phase p = .allocating r.buf r.write) (hapart : r.idx.Nodup)
    (hidx : ∀ i ∈ r.idx, i < NUM ∧ s.free i = true) {free : Nat → Bool}
    (hfree : ∀ i, free i = true ↔ s.free i = true ∧ i ∉ r.idx) :
    Inv ((State.publish r { s with free := free }).enter p (.waiting r)) t := by
  have hown := h.own p
  rw [hp] at hown
  obtain ⟨hjob, hblockno⟩ := hown
  have hbuf : (s.phase p).buf = some r.buf := congrArg Phase.buf hp
  obtain ⟨hlt, hfree₀⟩ := hidx r.i₀ List.mem_cons_self
  have hfresh : r.i₀ ∉ s.inflight := by
    intro hmem
    obtain ⟨q, r', hq, heq⟩ := h.heads r.i₀ hmem
    refine ((h.free r.i₀).mp hfree₀).2 q ?_
    rw [hq, ← heq]
    exact List.mem_cons_self
  have hlen := length_le_num (List.nodup_cons.mpr ⟨hfresh, h.nodup⟩)
    (List.forall_mem_cons.mpr ⟨hlt, fun _ => h.head_lt⟩)
  rw [List.length_cons, inflight, unmoved, List.length_append, List.length_append] at hlen
  generalize hs' : (State.publish r { s with free := free }).enter p (.waiting r) = s'
  have hunmoved : s'.unmoved.Perm (r.i₀ :: s.unmoved) := by
    rw [← hs']
    change (Ring.pending (s.avail.push r.i₀) s.devIdx ++ s.taken).Perm _
    rw [Ring.pending_push r.i₀ (by omega), List.append_assoc]
    exact List.perm_middle
  have hinflight : s'.inflight.Perm (r.i₀ :: s.inflight) := by
    rw [inflight, ← hs'] at *
    exact hunmoved.append_right s.posted
  have hmem : r.i₀ ∈ s'.unmoved := hunmoved.mem_iff.mpr List.mem_cons_self
  have hdesc : s'.desc = update (update (update s.desc r.i₀ (opDesc r.i₀ r.i₁)) r.i₁
      (dataDesc r.buf r.write r.i₂)) r.i₂ (statusDesc r.i₀) := by
    rw [← hs']
    rfl
  subst hs'
  refine h.enter p (.waiting r) (I := r.idx) rfl ?_ (.inr hbuf) (fun q => h.buf_ne hbuf)
    (fun i hi => .inr (hidx i hi).2) (List.Subset.refl _) ?_ ?_ (.inr rfl)
    (hinflight.nodup_iff.mpr (List.nodup_cons.mpr ⟨hfresh, h.nodup⟩)) ?_ h.view
  · constructor
    case desc =>
      intro i hi _
      rw [hdesc]
      grind [update_apply, Req.idx]
    case ops | info | status => exact fun i hi => update_of_ne (Req.ne_head hi) ..
    case unmoved =>
      intro i hi
      rw [hunmoved.mem_iff, List.mem_cons, or_iff_right (Req.ne_head hi)]
    case disk => exact fun b' hb => update_of_ne hb ..
    all_goals intros; rfl
  · intro i
    rw [hp]
    exact (hfree i).trans (by simp [Phase.idx])
  · have happart := hapart
    rw [Req.idx] at happart
    refine ⟨⟨fun i hi => (hidx i hi).1, hapart, ?_, ?_, update_self ..⟩, ?_, update_self .., ?_, ?_, ?_⟩
    · rw [hdesc]
      grind [update_apply]
    · rw [hdesc]
      grind [update_apply]
    · exact (update_self ..).trans (by rw [sector_eq hblockno]; rfl)
    · rw [hjob, decide_eq_false (not_not_intro hmem)]
    · refine (update_self ..).trans ?_
      exact (decide_eq_true (List.mem_append_left _ hmem)).symm
    · exact fun hmem' => absurd (List.mem_append_right _ hmem') hfresh
  · intro head hhead
    rcases List.mem_cons.mp (hinflight.mem_iff.mp hhead) with rfl | hhead
    · exact .inl ⟨r, rfl, rfl⟩
    · exact .inr ⟨hhead, fun r' hr' => by cases hp.symm.trans hr'⟩

theorem finish (hp : s.phase p = .waiting r) (hdisk : s.disk r.buf = false) :
    ∃ s' t', s.finish p r = .ok s' ∧ s'.history = s.history ++ [.ret p r.buf] ∧
      t.step (.ret p r.buf) = some t' ∧ Inv s' t' := by
  have hr := h.request hp
  have hbuf : (s.phase p).buf = some r.buf := congrArg Phase.buf hp
  have hidx : (s.phase p).idx = r.idx := congrArg Phase.idx hp
  have hout : r.i₀ ∉ s.inflight := of_decide_eq_false (hr.disk.symm.trans hdisk)
  have hdone : r.i₀ ∉ s.unmoved := fun hmem => hout (List.mem_append_left _ hmem)
  have hjob := hr.job
  rw [decide_eq_true hdone] at hjob
  have hchain : Chain { s with info := update s.info r.i₀ none } r := { hr.toChain with }
  have hfreed := hchain.freeChain_eq fun i hi => h.busy (hidx ▸ hi)
  refine ⟨((release r.i₂ (release r.i₁ (release r.i₀
    { s with info := update s.info r.i₀ none }))).enter p .idle).note (.ret p r.buf),
    t.assign r.buf none, ?_, rfl, ?_, ?_⟩
  · simp only [State.finish, hdisk, hfreed]
    rfl
  · simp only [Atomic.step, hjob, Option.bind_some, and_self, if_true]
  refine h.enter p .idle (I := r.idx) rfl ?_ (.inr hbuf) (fun q => h.buf_ne hbuf)
    (fun i hi => .inl (hidx ▸ hi)) (List.nil_subset _) ?_ trivial (.inl (update_self ..)) h.nodup ?_
    h.view
  · constructor
    case desc =>
      intro i hi _
      simp only [Req.idx, State.note, State.enter, release, wakeup, update_apply] at hi ⊢
      grind
    case info => exact fun i hi => update_of_ne (Req.ne_head hi) ..
    case job => exact fun b' hb => update_of_ne hb ..
    all_goals intros; rfl
  · intro i
    rw [hidx]
    simp only [Req.idx, Phase.idx, State.note, State.enter, release, wakeup, update_apply]
    grind
  · refine fun head hhead => .inr ⟨hhead, fun r' hr' heq => hout ?_⟩
    rwa [Phase.waiting.inj (hp.symm.trans hr'), heq]

theorem retry (hp : s.phase p = .allocating b write) :
    ∃ s', s.virtioDiskRw p b write = .ok s' ∧ s'.history = s.history ∧ Inv s' t := by
  rcases allocDescs_eq 3 [] (s := s) List.nodup_nil (by simp) with
    ⟨idx, free, heq, hlen, hapart, hidx, hfree⟩ | ⟨s', heq, hs', hdesc⟩
  · obtain ⟨i₀, i₁, i₂, rfl⟩ := List.length_eq_three.mp hlen
    have hinv := h.publish (r := ⟨b, write, i₀, i₁, i₂⟩) hp hapart hidx hfree
    refine ⟨((State.publish ⟨b, write, i₀, i₁, i₂⟩ { s with free := free }).enter p
      (.waiting ⟨b, write, i₀, i₁, i₂⟩)).sleep p (.buf b), ?_, rfl, hinv.congr _ _⟩
    simp only [virtioDiskRw, alloc3Desc, heq]
    exact if_pos (update_self ..)
  · simp only [List.not_mem_nil, decide_false, Bool.or_false] at hs'
    refine ⟨s'.sleep p .free, ?_, by rw [hs']; rfl, ?_⟩
    · simp only [virtioDiskRw, alloc3Desc, heq]
      rfl
    have hbuf : (s.phase p).buf = some b := congrArg Phase.buf hp
    have hown := h.own p
    rw [hp] at hown
    rw [hs']
    refine h.enter p (.allocating b write) (I := []) ?_ ?_ (.inr hbuf)
      (fun q => h.buf_ne hbuf) (fun i hi => by cases hi) (List.Subset.refl _) ?_ hown (.inr rfl) h.nodup
      (fun head hhead => .inr ⟨hhead, fun r hr => by cases hp.symm.trans hr⟩) h.view
    · rw [← hp, update_eq_self]
      rfl
    · constructor
      case desc => exact fun i hi hbusy => hdesc i hbusy hi
      all_goals intros; rfl
    · intro i
      simp [hp, Phase.idx, State.sleep]

theorem step (e : Event π β δ) (hcaller : Orderly s e) (hdevice : Reliable s e) :
    ∃ s' t' deeds, Virtio.step s e = .ok s' ∧ s'.history = s.history ++ deeds ∧
      Trace.run Atomic.step t deeds = some t' ∧ Inv s' t' := by
  cases e with
  | rw p b write n d =>
    obtain ⟨hidle, hb, hn⟩ := hcaller
    obtain ⟨s', hstep, hhist, hinv⟩ := (h.call hidle hb write hn d).retry (update_self ..)
    refine ⟨s', _, [.call p b write n d], hstep, hhist, ?_, hinv⟩
    simp only [Trace.run, Atomic.step, h.job_eq_none hb, if_true, Option.bind_some]
  | resume p =>
    rw [Virtio.step]
    split
    case h_1 b write hp _ =>
      obtain ⟨s', hstep, hhist, hinv⟩ := h.retry hp
      exact ⟨s', t, [], hstep, by rw [hhist, List.append_nil], rfl, hinv⟩
    case h_2 r hp _ =>
      cases hdisk : s.disk r.buf with
      | true => exact ⟨_, t, [], if_pos hdisk, (List.append_nil _).symm, rfl, h.congr _ _⟩
      | false =>
        obtain ⟨s', t', hstep, hhist, hdeed, hinv⟩ := h.finish hp hdisk
        refine ⟨s', t', [.ret p r.buf], hstep, hhist, ?_, hinv⟩
        simp only [Trace.run, hdeed, Option.bind_some]
    case h_3 => exact ⟨s, t, [], rfl, (List.append_nil _).symm, rfl, h⟩
  | intr =>
    obtain ⟨s', hstep, hhist, hinv⟩ := h.intr
    exact ⟨s', t, [], hstep, by rw [hhist, List.append_nil], rfl, hinv⟩
  | take => exact ⟨s.take, t, [], rfl, (List.append_nil _).symm, rfl, h.take hdevice⟩
  | complete head status view =>
    obtain ⟨s', deed, t', hstep, hhist, hdeed, hinv⟩ := h.complete hdevice
    exact ⟨s', t', [deed], hstep, hhist, by simp only [Trace.run, hdeed, Option.bind_some], hinv⟩

end Inv

theorem boot_inv (view : View β δ) : Inv (boot view : State π β δ) (.start view) := by
  have hempty : (boot view : State π β δ).inflight = [] := by
    simp [inflight, unmoved, posted, Ring.pending, boot, Circular.ahead_self, Circular.span]
  refine ⟨?_, fun _ _ _ hi => (by cases hi), fun _ => trivial, fun _ _ h => (by cases h), ?_, ?_, rfl⟩
  · simp [boot, Phase.idx]
  · simp [hempty]
  · simp [hempty]

variable [DecidableEq π] [DecidableEq β]

-- Any number of processes in `virtio_disk_rw`, a device that completes what it has
-- taken in any order, interrupts at any time, and indices that wrap: nothing panics,
-- and what callers and medium see is a disk that moves each block at once, after the
-- call for it and before its return.
theorem virtio_disk_atomic (view : View β δ) (events : List (Event π β δ))
    (hmeets : Trace.Meets step (fun s e => Orderly s e ∧ Reliable s e) (boot view) events) :
    ∃ s t, Trace.tryRun step (boot view) events = .ok s ∧
      Trace.run Atomic.step (.start view) s.history = some t ∧
      s.view = t.view ∧ (∀ b job, t.job b = some job → (s.phase job.caller).buf = some b) ∧
      ∀ p b, (s.phase p).buf = some b → ∃ write done, t.job b = some ⟨p, write, done⟩ := by
  have hkeeps := Trace.tryRun_keeps (E := fun _ => False) (I := fun s => ∃ t,
    Trace.run Atomic.step (.start view) s.history = some t ∧ Inv s t)
    ?_ ?_ ⟨_, rfl, boot_inv view⟩ hmeets
  · cases hrun : Trace.tryRun step (boot view) events with
    | ok s =>
      obtain ⟨t, hhist, h⟩ := hkeeps.1 s hrun
      exact ⟨s, t, rfl, hhist, h.view, h.jobs, fun p b => (h.own p).job⟩
    | error f => exact (hkeeps.2 f hrun).elim
  · rintro s e s' ⟨t, hhist, h⟩ ⟨hcaller, hdevice⟩ hstep
    obtain ⟨s₁, t', deeds, hok, hdeeds, hrun, h'⟩ := h.step e hcaller hdevice
    obtain rfl := Except.ok.inj (hok.symm.trans hstep)
    refine ⟨t', ?_, h'⟩
    rw [hdeeds]
    exact Trace.run_append_eq_some.mpr ⟨t, hhist, hrun⟩
  · rintro s e f ⟨t, hhist, h⟩ ⟨hcaller, hdevice⟩ hstep
    obtain ⟨s₁, t', deeds, hok, -⟩ := h.step e hcaller hdevice
    cases hok.symm.trans hstep

def blank : View Unit Nat := ⟨fun _ => 0, fun _ => 0, fun _ => 0⟩

-- A process writes block 2, which is sectors 4 and 5, and returns.
theorem virtio_disk_atomic_write : ∃ (s : State Unit Unit Nat) (t : Atomic Unit Unit Nat),
    Trace.tryRun step (boot blank) [.rw () () true 2 7, .take,
      .complete 0 0 ((blank.fill () 2 7).move () 4 true), .intr, .resume ()] = .ok s ∧
      Trace.run Atomic.step (.start blank) s.history = some t ∧ t.view.medium 4 = 7 ∧
      s.phase () = .idle := by
  obtain ⟨s, t, hrun, hhist, hview, -⟩ := virtio_disk_atomic blank [.rw () () true 2 7, .take,
    .complete 0 0 ((blank.fill () 2 7).move () 4 true), .intr, .resume ()] (by
      refine ⟨⟨⟨rfl, fun _ h => (by cases h), by decide⟩, trivial⟩, fun s₁ h₁ => ?_⟩
      obtain rfl := Except.ok.inj h₁
      refine ⟨⟨trivial, show (0 : BitVec 16) ≠ 1 by decide⟩, fun s₂ h₂ => ?_⟩
      obtain rfl := Except.ok.inj h₂
      refine ⟨⟨trivial, List.mem_singleton.mpr rfl, ?_⟩, fun s₃ h₃ => ?_⟩
      · rintro op b j h
        cases h
        exact ⟨rfl, rfl⟩
      obtain rfl := Except.ok.inj h₃
      exact ⟨⟨trivial, trivial⟩, fun _ _ => ⟨⟨trivial, trivial⟩, fun _ _ => trivial⟩⟩)
  refine ⟨s, t, hrun, hhist, ?_, ?_⟩
  · rw [← hview, ← Except.ok.inj hrun]
    rfl
  · rw [← Except.ok.inj hrun]
    rfl

end Xv6Ringbuf.Virtio
