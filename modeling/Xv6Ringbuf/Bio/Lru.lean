import Xv6Ringbuf.Bio.List
import Xv6Ringbuf.Trace

namespace Xv6Ringbuf.Bio

open Linked Trace Function

-- Two panics, a process that has to sleep, a call that is not due, and a loop that is
-- still going when the fuel is used up.
inductive Stop where
  | noBuffers
  | brelse
  | asleep
  | notDue
  | hang
deriving DecidableEq

-- `for(b = head.link; b != &head; b = b->link)`, up to the first wanted buffer.
def scan (link : Node → Node) (want : Fin NBUF → Bool) : Nat → Node → Except Stop (Option (Fin NBUF))
  | 0, _ => .error .hang
  | _ + 1, none => .ok none
  | fuel + 1, some b => if want b then .ok (some b) else scan link want fuel (link (some b))

def addRef (b : Fin NBUF) (n : UInt32) (s : Bufs) : Bufs :=
  { s with refcnt := update s.refcnt b (s.refcnt b + n) }

-- The buffer `b` is given to another block.
def assign (b : Fin NBUF) (dev blockno : UInt32) (s : Bufs) : Bufs :=
  { s with
    dev := update s.dev b dev
    blockno := update s.blockno b blockno
    valid := update s.valid b false
    refcnt := update s.refcnt b 1 }

-- The second loop of `bget`.
def recycle (dev blockno : UInt32) (s : Bufs) : Except Stop (Fin NBUF × Bufs) := do
  match ← scan s.prev (fun b => s.refcnt b = 0) (NBUF + 1) (s.prev none) with
  | some b => return (b, assign b dev blockno s)
  | none => throw .noBuffers

-- The part of `bget` under `bcache.lock`.
def bget (dev blockno : UInt32) (s : Bufs) : Except Stop (Fin NBUF × Bufs) := do
  match ← scan s.next (fun b => s.dev b = dev ∧ s.blockno b = blockno) (NBUF + 1) (s.next none) with
  | some b => return (b, addRef b 1 s)
  | none => recycle dev blockno s

def acquiresleep (b : Fin NBUF) (s : Bufs) : Except Stop Bufs :=
  if s.locked b then .error .asleep
  else .ok { s with locked := update s.locked b true }

-- The part of `brelse` before it takes `bcache.lock`.
def releasesleep (b : Fin NBUF) (s : Bufs) : Except Stop Bufs :=
  if s.locked b then .ok { s with locked := update s.locked b false }
  else .error .brelse

-- The part of `brelse` under `bcache.lock`.
def brelse (b : Fin NBUF) (s : Bufs) : Bufs :=
  let s := addRef b (-1) s
  if s.refcnt b = 0 then (s.unlink (some b)).pushFront (some b) else s

def bpin (b : Fin NBUF) (s : Bufs) : Bufs := addRef b 1 s

def bunpin (b : Fin NBUF) (s : Bufs) : Bufs := addRef b (-1) s

inductive Event where
  | bget (dev blockno : UInt32)
  | acquiresleep (b : Fin NBUF)
  | releasesleep (b : Fin NBUF)
  | brelse (b : Fin NBUF)
  | bpin (b : Fin NBUF)
  | bunpin (b : Fin NBUF)

-- The cache, and histories: how many events there were, at which one the count of a
-- buffer last dropped to zero (0 if it never did), the processes that wait for its lock and
-- those that have unlocked it and are about to drop their reference, and its pins.
structure Cache where
  bufs : Bufs
  clock : Nat
  dropped : Fin NBUF → Nat
  waiting : Fin NBUF → Nat
  leaving : Fin NBUF → Nat
  pins : Fin NBUF → Nat

def boot : Cache := ⟨binit, 0, fun _ => 0, fun _ => 0, fun _ => 0, fun _ => 0⟩

def Cache.tick (s : Cache) (bufs : Bufs) : Cache :=
  { s with
    bufs := bufs
    clock := s.clock + 1
    dropped := fun b => if s.bufs.refcnt b ≠ 0 ∧ bufs.refcnt b = 0 then s.clock + 1 else s.dropped b }

-- A process locks the buffer that its `bget` returned, and drops a reference after it
-- has unlocked the buffer.
def step (s : Cache) : Event → Except Stop Cache
  | .bget dev blockno => do
      let (b, bufs) ← bget dev blockno s.bufs
      return { s.tick bufs with waiting := update s.waiting b (s.waiting b + 1) }
  | .acquiresleep b =>
    if s.waiting b = 0 then throw .notDue
    else do
      let bufs ← acquiresleep b s.bufs
      return { s.tick bufs with waiting := update s.waiting b (s.waiting b - 1) }
  | .releasesleep b => do
      let bufs ← releasesleep b s.bufs
      return { s.tick bufs with leaving := update s.leaving b (s.leaving b + 1) }
  | .brelse b =>
    if s.leaving b = 0 then throw .notDue
    else return { s.tick (brelse b s.bufs) with
      leaving := update s.leaving b (s.leaving b - 1) }
  | .bpin b =>
    return { s.tick (bpin b s.bufs) with pins := update s.pins b (s.pins b + 1) }
  | .bunpin b =>
    return { s.tick (bunpin b s.bufs) with pins := update s.pins b (s.pins b - 1) }

def Cache.refs (s : Cache) (b : Fin NBUF) : Nat :=
  s.waiting b + (s.bufs.locked b).toNat + s.leaving b + s.pins b

-- A `bunpin` undoes a `bpin`, of a buffer that is held; and the counts do not overflow.
def Orderly (s : Cache) : Event → Prop
  | .bget _ _ => ∀ b, s.refs b + 1 < 2 ^ 32
  | .bpin b => s.refs b + 1 < 2 ^ 32
  | .bunpin b => s.bufs.locked b = true ∧ 0 < s.pins b
  | _ => True

instance (s : Cache) (e : Event) : Decidable (Orderly s e) := by
  cases e <;> unfold Orderly <;> infer_instance

-- The count of `b` dropped before that of `c`, or neither has been used yet.
def Cache.Older (s : Cache) (b c : Fin NBUF) : Prop :=
  s.dropped b < s.dropped c ∨ s.dropped b = 0 ∧ s.dropped c = 0

section Scan

theorem scan_eq {link : Node → Node} (want : Fin NBUF → Bool) {bs : List (Fin NBUF)} {n : Node}
    {fuel : Nat} (h : Walk link n (bs.map some ++ [none])) (hfuel : bs.length + 1 ≤ fuel) :
    scan link want fuel (link n) = .ok (bs.find? want) := by
  induction bs generalizing n fuel with
  | nil =>
    obtain ⟨k, rfl⟩ := Nat.exists_eq_add_of_le' hfuel
    have hlink : link n = none := h.1
    rw [hlink]
    rfl
  | cons b bs ih =>
    obtain ⟨k, rfl⟩ := Nat.exists_eq_add_of_le' (Nat.le_of_add_left_le hfuel)
    have hlink : link n = some b := h.1
    rw [hlink, scan]
    by_cases hb : want b = true
    · rw [if_pos hb, List.find?_cons_of_pos hb]
    · rw [if_neg hb, List.find?_cons_of_neg hb]
      apply ih h.2
      rw [List.length_cons] at hfuel
      omega

theorem length_le_of_nodup {order : List (Fin NBUF)} (h : order.Nodup) : order.length ≤ NBUF := by
  have hcard := h.length_le_card
  rwa [Fintype.card_fin] at hcard

variable {s : Bufs} {order : List (Fin NBUF)}

theorem Bufs.Listed.scan_next (h : s.Listed order) (want : Fin NBUF → Bool) :
    scan s.next want (NBUF + 1) (s.next none) = .ok (order.find? want) :=
  scan_eq want h.next (Nat.add_le_add_right (length_le_of_nodup h.nodup) 1)

theorem Bufs.Listed.scan_prev (h : s.Listed order) (want : Fin NBUF → Bool) :
    scan s.prev want (NBUF + 1) (s.prev none) = .ok (order.reverse.find? want) := by
  have hprev := h.prev
  rw [← List.map_reverse] at hprev
  apply scan_eq want hprev
  rw [List.length_reverse]
  exact Nat.add_le_add_right (length_le_of_nodup h.nodup) 1

end Scan

-- What holds in every state. The unused buffers are in the order in which their counts
-- dropped, the last one first.
structure Cache.Good (s : Cache) (order : List (Fin NBUF)) : Prop where
  listed : s.bufs.Listed order
  all : ∀ b, b ∈ order
  recent : order.Pairwise fun b c => s.bufs.refcnt b = 0 → s.bufs.refcnt c = 0 → s.Older c b
  unique : ∀ b c, s.bufs.dev b ≠ 0 → s.bufs.dev b = s.bufs.dev c →
    s.bufs.blockno b = s.bufs.blockno c → b = c
  refs : ∀ b, (s.bufs.refcnt b).toNat = s.refs b
  stamps : ∀ b, s.dropped b ≤ s.clock

section Bget

variable {s : Cache} {order : List (Fin NBUF)}

theorem Cache.Good.oldest (h : s.Good order) {b : Fin NBUF}
    (hfind : (order.reverse.find? fun b => s.bufs.refcnt b = 0) = some b) :
    s.bufs.refcnt b = 0 ∧ ∀ c, c ≠ b → s.bufs.refcnt c = 0 → s.Older b c := by
  obtain ⟨hb, as, bs, hsplit, has⟩ := List.find?_eq_some_iff_append.mp hfind
  have hzero : s.bufs.refcnt b = 0 := of_decide_eq_true hb
  refine ⟨hzero, fun c hne hc => ?_⟩
  have horder : order = bs.reverse ++ b :: as.reverse := by
    rw [← List.reverse_reverse order, hsplit, List.reverse_append, List.reverse_cons, List.append_assoc]
    rfl
  have hrecent := h.recent
  have hcin := h.all c
  rw [horder] at hrecent hcin
  obtain ⟨_, _, hcross⟩ := List.pairwise_append.mp hrecent
  rcases List.mem_append.mp hcin with hin | hin
  · exact hcross c hin b List.mem_cons_self hc hzero
  · rcases List.mem_cons.mp hin with heq | hin
    · exact absurd heq hne
    · have hnot := has c (List.mem_reverse.mp hin)
      simp [hc] at hnot

theorem Cache.Good.bget_cases (h : s.Good order) (dev blockno : UInt32) :
    (∃ b, s.bufs.dev b = dev ∧ s.bufs.blockno b = blockno ∧
      bget dev blockno s.bufs = .ok (b, addRef b 1 s.bufs)) ∨
    (∀ c, ¬(s.bufs.dev c = dev ∧ s.bufs.blockno c = blockno)) ∧
      ((∃ b, s.bufs.refcnt b = 0 ∧ (∀ c, c ≠ b → s.bufs.refcnt c = 0 → s.Older b c) ∧
        bget dev blockno s.bufs = .ok (b, assign b dev blockno s.bufs)) ∨
      (∀ c, s.bufs.refcnt c ≠ 0) ∧ bget dev blockno s.bufs = .error .noBuffers) := by
  unfold bget
  rw [h.listed.scan_next]
  cases hhit : order.find? fun b => s.bufs.dev b = dev ∧ s.bufs.blockno b = blockno with
  | some b =>
    have hb := List.find?_some hhit
    rw [decide_eq_true_eq] at hb
    exact .inl ⟨b, hb.1, hb.2, rfl⟩
  | none =>
    have hmiss : ∀ c, ¬(s.bufs.dev c = dev ∧ s.bufs.blockno c = blockno) := by
      intro c hc
      exact List.find?_eq_none.mp hhit c (h.all c) (decide_eq_true hc)
    refine .inr ⟨hmiss, ?_⟩
    have hrecycle : (Except.ok none >>= fun found : Option (Fin NBUF) =>
        match found with
        | some b => pure (b, addRef b 1 s.bufs)
        | none => recycle dev blockno s.bufs) = recycle dev blockno s.bufs := rfl
    rw [hrecycle, recycle, h.listed.scan_prev]
    cases hfree : order.reverse.find? fun b => s.bufs.refcnt b = 0 with
    | some b =>
      obtain ⟨hb, holder⟩ := h.oldest hfree
      exact .inl ⟨b, hb, holder, rfl⟩
    | none =>
      refine .inr ⟨fun c hc => ?_, rfl⟩
      exact List.find?_eq_none.mp hfree c (List.mem_reverse.mpr (h.all c)) (decide_eq_true hc)

end Bget

section Step

variable {s s' : Cache} {order : List (Fin NBUF)}

theorem Cache.Good.keep (h : s.Good order) (hnext : s'.bufs.next = s.bufs.next)
    (hprev : s'.bufs.prev = s.bufs.prev) (hclock : s'.clock = s.clock + 1)
    (hdropped : ∀ b, s'.dropped b =
      if s.bufs.refcnt b ≠ 0 ∧ s'.bufs.refcnt b = 0 then s.clock + 1 else s.dropped b)
    (hzero : ∀ b, s'.bufs.refcnt b = 0 → s.bufs.refcnt b = 0)
    (hunique : ∀ b c, s'.bufs.dev b ≠ 0 → s'.bufs.dev b = s'.bufs.dev c →
      s'.bufs.blockno b = s'.bufs.blockno c → b = c)
    (hrefs : ∀ b, (s'.bufs.refcnt b).toNat = s'.refs b) : s'.Good order := by
  have hsame : ∀ b, s'.dropped b = s.dropped b := by
    intro b
    rw [hdropped, if_neg]
    rintro ⟨hne, heq⟩
    exact hne (hzero b heq)
  refine ⟨⟨h.listed.nodup, hnext ▸ h.listed.next, hprev ▸ h.listed.prev⟩, h.all, ?_, hunique, hrefs, ?_⟩
  · apply h.recent.imp
    intro b c hbc hb hc
    unfold Cache.Older at hbc ⊢
    rw [hsame, hsame]
    exact hbc (hzero b hb) (hzero c hc)
  · intro b
    rw [hsame, hclock]
    exact (h.stamps b).trans (Nat.le_succ _)

theorem refcnt_addRef (b c : Fin NBUF) (n : UInt32) (bufs : Bufs) :
    (addRef b n bufs).refcnt c = if c = b then bufs.refcnt b + n else bufs.refcnt c := by
  show update bufs.refcnt b (bufs.refcnt b + n) c = _
  rw [update_apply]

theorem Cache.Good.toNat_succ (h : s.Good order) {b : Fin NBUF} (hroom : s.refs b + 1 < 2 ^ 32) :
    (s.bufs.refcnt b + 1).toNat = s.refs b + 1 := by
  rw [UInt32.toNat_add, h.refs b]
  exact Nat.mod_eq_of_lt hroom

theorem Cache.Good.toNat_pred (h : s.Good order) {b : Fin NBUF} (hsome : 0 < s.refs b) :
    (s.bufs.refcnt b + -1).toNat = s.refs b - 1 := by
  have hlt := (s.bufs.refcnt b).toNat_lt
  have hrefs := h.refs b
  rw [UInt32.toNat_add, show (-1 : UInt32).toNat = 2 ^ 32 - 1 by rfl]
  omega

end Step

end Xv6Ringbuf.Bio
