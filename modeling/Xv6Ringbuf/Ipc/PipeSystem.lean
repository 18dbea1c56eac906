import Xv6Ringbuf.Ipc.Pipe

namespace Xv6Ringbuf.Ipc

open Function

-- A call with a user buffer that is mapped: the bytes to write, or the number of
-- bytes to read. A negative number of bytes is like none.
inductive Call where
  | write (buf : List UInt8)
  | read (n : Nat)

structure Thread where
  serial : Nat
  call : Call
  i : Nat

structure Return where
  serial : Nat
  r : Int
  bytes : List UInt8

-- The processes `ι` on one pipe. The lists are histories: the calls in the order in
-- which they started, the bytes that went in and out with the call that moved them,
-- and the calls that have returned.
structure System (ι : Type) where
  pipe : Pipe
  threads : ι → Option Thread
  calls : List Call
  accepted : List (Nat × UInt8)
  removed : List (Nat × UInt8)
  returns : List Return

-- A process starts a call; a process in a call gets the lock and keeps it until it
-- sleeps or returns; an end of the pipe is closed.
inductive Event (ι : Type) where
  | start (p : ι) (call : Call)
  | section (p : ι) (killed : Nat → Bool)
  | close (writable : Bool)

namespace System

variable {ι : Type} [DecidableEq ι]

def runCall (killed : Nat → Bool) (t : Thread) (p : Pipe) : Outcome × List UInt8 × Pipe :=
  match t.call with
  | .write buf => p.pipewrite (fun i => buf[i]?) killed buf.length t.i
  | .read n => p.piperead (fun _ => true) (killed 0) n

def settle (s : System ι) (p : ι) (t : Thread) : Outcome → List UInt8 → System ι
  | .asleep i, _ => { s with threads := update s.threads p (some { t with i := i }) }
  | .returned r, bytes =>
    { s with
      threads := update s.threads p none
      returns := s.returns ++ [⟨t.serial, r, match t.call with
        | .write _ => []
        | .read _ => bytes⟩] }

def record (s : System ι) (t : Thread) (bytes : List UInt8) : System ι :=
  match t.call with
  | .write _ => { s with accepted := s.accepted ++ bytes.map fun ch => (t.serial, ch) }
  | .read _ => { s with removed := s.removed ++ bytes.map fun ch => (t.serial, ch) }

def step (s : System ι) : Event ι → Option (System ι)
  | .start p call =>
    match s.threads p with
    | some _ => none
    | none => some { s with
        threads := update s.threads p (some ⟨s.calls.length, call, 0⟩)
        calls := s.calls ++ [call] }
  | .section p killed =>
    match s.threads p with
    | none => none
    | some t =>
      let (outcome, bytes, pipe) := runCall killed t s.pipe
      some (({ s with pipe := pipe }.record t bytes).settle p t outcome bytes)
  | .close writable => some { s with pipe := s.pipe.close writable }

def fresh (data : Fin PIPESIZE → UInt8) : System ι := ⟨.alloc data, fun _ => none, [], [], [], []⟩

def movedBy (log : List (Nat × UInt8)) (k : Nat) : List UInt8 :=
  (log.filter fun e => e.1 = k).map Prod.snd

theorem movedBy_append_self (log : List (Nat × UInt8)) (k : Nat) (bytes : List UInt8) :
    movedBy (log ++ bytes.map fun ch => (k, ch)) k = movedBy log k ++ bytes := by
  rw [movedBy, List.filter_append, List.map_append, movedBy]
  congr 1
  rw [List.filter_eq_self.mpr (by simp), List.map_map]
  exact List.map_id bytes

variable {k : Nat} {α : Type} {a b : α} {f : ι → Option α} {p q : ι}

theorem movedBy_append_of_ne (log : List (Nat × UInt8)) {k' : Nat} (h : k ≠ k') (bytes : List UInt8) :
    movedBy (log ++ bytes.map fun ch => (k', ch)) k = movedBy log k := by
  have hnone : (bytes.map fun ch => (k', ch)).filter (fun e => e.1 = k) = [] := by
    rw [List.filter_eq_nil_iff]
    intro e he
    obtain ⟨ch, _, rfl⟩ := List.mem_map.mp he
    simpa using Ne.symm h
  rw [movedBy, List.filter_append, List.map_append, hnone, List.map_nil, List.append_nil, movedBy]

theorem map_snd_append (log : List (Nat × UInt8)) (k : Nat) (bytes : List UInt8) :
    (log ++ bytes.map fun ch => (k, ch)).map Prod.snd = log.map Prod.snd ++ bytes := by
  rw [List.map_append, List.map_map]
  exact congrArg _ (List.map_id bytes)

-- What a returned call has told its caller.
def Honest (s : System ι) (ret : Return) : Prop :=
  (∀ n, s.calls[ret.serial]? = some (.read n) → movedBy s.removed ret.serial = ret.bytes ∧
      (ret.r = ret.bytes.length ∨ ret.r = -1 ∧ ret.bytes = [])) ∧
    ∀ buf, s.calls[ret.serial]? = some (.write buf) → 0 ≤ ret.r →
      movedBy s.accepted ret.serial = buf.take ret.r.toNat

-- The bytes come out in the order in which they went in, no more than fit are in the
-- pipe, each call moves its own bytes in their order, and returns what it has moved.
structure Fifo (s : System ι) : Prop where
  bounded : s.pipe.stored ≤ PIPESIZE
  order : s.removed.map Prod.snd <+: s.accepted.map Prod.snd
  own : ∀ k buf, s.calls[k]? = some (.write buf) → movedBy s.accepted k <+: buf
  honest : ∀ ret ∈ s.returns, s.Honest ret

structure Going (s : System ι) (t : Thread) : Prop where
  call : s.calls[t.serial]? = some t.call
  wrote : ∀ buf, t.call = .write buf → t.i ≤ buf.length ∧ movedBy s.accepted t.serial = buf.take t.i
  unread : ∀ n, t.call = .read n → movedBy s.removed t.serial = []

structure Inv (s : System ι) : Prop where
  bounded : s.pipe.Bounded
  stream : s.accepted.map Prod.snd = s.removed.map Prod.snd ++ s.pipe.contents
  going : ∀ p t, s.threads p = some t → s.Going t
  apart : ∀ p q t t', s.threads p = some t → s.threads q = some t' → t.serial = t'.serial → p = q
  own : ∀ k buf, s.calls[k]? = some (.write buf) → movedBy s.accepted k <+: buf
  started : ∀ e, e ∈ s.accepted ∨ e ∈ s.removed → e.1 < s.calls.length
  ended : ∀ ret ∈ s.returns, ret.serial < s.calls.length ∧ s.Honest ret ∧
    ∀ p t, s.threads p = some t → t.serial ≠ ret.serial

omit [DecidableEq ι] in
theorem inv_fresh (data : Fin PIPESIZE → UInt8) : (fresh data : System ι).Inv := by
  have hempty : (Pipe.alloc data).contents = [] := (Pipe.contents_eq_nil_iff _).mpr rfl
  refine ⟨Pipe.bounded_alloc data, ?_, ?_, ?_, ?_, ?_, ?_⟩
  · exact hempty.symm
  · intro p t h
    cases h
  · intro p q t t' h
    cases h
  · intro k buf h
    cases h
  · intro e h
    cases h with
    | inl h => cases h
    | inr h => cases h
  · intro ret h
    cases h

omit [DecidableEq ι] in
theorem Inv.fifo {s : System ι} (h : s.Inv) : s.Fifo :=
  ⟨h.bounded, ⟨s.pipe.contents, h.stream.symm⟩, h.own, fun ret hret => (h.ended ret hret).2.1⟩

theorem lt_of_getElem? {l : List α} (h : l[k]? = some a) : k < l.length :=
  (List.getElem?_eq_some_iff.mp h).1

theorem of_update_some (h : update f p (some a) q = some b) :
    q = p ∧ b = a ∨ q ≠ p ∧ f q = some b := by
  by_cases hq : q = p
  · rw [hq, update_self] at h
    exact .inl ⟨hq, (Option.some.inj h).symm⟩
  · rw [update_of_ne hq] at h
    exact .inr ⟨hq, h⟩

theorem of_update_none (h : update f p none q = some b) : q ≠ p ∧ f q = some b := by
  by_cases hq : q = p
  · rw [hq, update_self] at h
    cases h
  · rw [update_of_ne hq] at h
    exact ⟨hq, h⟩

section Steps

variable {s : System ι} (h : s.Inv)

include h

omit [DecidableEq ι] in
theorem Inv.moved_new {k : Nat} (hk : s.calls.length ≤ k) :
    movedBy s.accepted k = [] ∧ movedBy s.removed k = [] := by
  have hnone : ∀ log : List (Nat × UInt8), (∀ e ∈ log, e.1 < s.calls.length) → movedBy log k = [] := by
    intro log hlog
    rw [movedBy, List.filter_eq_nil_iff.mpr, List.map_nil]
    intro e he
    have hlt := hlog e he
    simp only [decide_eq_true_eq]
    omega
  exact ⟨hnone _ fun e he => h.started e (.inl he), hnone _ fun e he => h.started e (.inr he)⟩

theorem Inv.start (p : ι) (call : Call) :
    Inv { s with
      threads := update s.threads p (some ⟨s.calls.length, call, 0⟩)
      calls := s.calls ++ [call] } := by
  have hcalls : ∀ k < s.calls.length, (s.calls ++ [call])[k]? = s.calls[k]? :=
    fun k hk => List.getElem?_append_left hk
  obtain ⟨hwrote, hread⟩ := h.moved_new (Nat.le_refl _)
  refine ⟨h.bounded, h.stream, ?_, ?_, ?_, ?_, ?_⟩
  · intro q t ht
    rcases of_update_some ht with ⟨_, rfl⟩ | ⟨_, hq⟩
    · refine ⟨by simp, fun buf _ => ⟨Nat.zero_le _, ?_⟩, fun n _ => hread⟩
      rw [List.take_zero]
      exact hwrote
    · have hgoing := h.going q t hq
      refine ⟨?_, hgoing.wrote, hgoing.unread⟩
      rw [hcalls _ (lt_of_getElem? hgoing.call)]
      exact hgoing.call
  · intro q q' t t' ht ht' heq
    rcases of_update_some ht with ⟨hq, rfl⟩ | ⟨_, hq⟩
    · rcases of_update_some ht' with ⟨hq', rfl⟩ | ⟨_, hq'⟩
      · rw [hq, hq']
      · have hlt := lt_of_getElem? (h.going q' t' hq').call
        exact absurd heq (Nat.ne_of_gt hlt)
    · rcases of_update_some ht' with ⟨hq', rfl⟩ | ⟨_, hq'⟩
      · have hlt := lt_of_getElem? (h.going q t hq).call
        exact absurd heq (Nat.ne_of_lt hlt)
      · exact h.apart q q' t t' hq hq' heq
  · intro k buf hk
    by_cases hlt : k < s.calls.length
    · rw [hcalls k hlt] at hk
      exact h.own k buf hk
    · rw [(h.moved_new (Nat.not_lt.mp hlt)).1]
      exact List.nil_prefix
  · intro e he
    have hlt := h.started e he
    rw [List.length_append]
    omega
  · intro ret hret
    obtain ⟨hlt, hhonest, hapart⟩ := h.ended ret hret
    refine ⟨by rw [List.length_append]; omega, ?_, ?_⟩
    · unfold Honest at hhonest ⊢
      rw [hcalls _ hlt]
      exact hhonest
    · intro q t ht
      rcases of_update_some ht with ⟨_, rfl⟩ | ⟨_, hq⟩
      · exact Nat.ne_of_gt hlt
      · exact hapart q t hq

theorem Inv.idle (p : ι) : Inv { s with threads := update s.threads p none } := by
  refine ⟨h.bounded, h.stream, ?_, ?_, h.own, h.started, ?_⟩
  · intro q t ht
    have hgoing := h.going q t (of_update_none ht).2
    exact ⟨hgoing.call, hgoing.wrote, hgoing.unread⟩
  · exact fun q q' t t' ht ht' => h.apart q q' t t' (of_update_none ht).2 (of_update_none ht').2
  · intro ret hret
    obtain ⟨hlt, hhonest, hapart⟩ := h.ended ret hret
    exact ⟨hlt, hhonest, fun q t ht => hapart q t (of_update_none ht).2⟩

omit [DecidableEq ι] in
theorem Inv.returned (ret : Return) (hlt : ret.serial < s.calls.length) (hhonest : s.Honest ret)
    (hidle : ∀ p t, s.threads p = some t → t.serial ≠ ret.serial) :
    Inv { s with returns := s.returns ++ [ret] } := by
  refine ⟨h.bounded, h.stream, ?_, h.apart, h.own, h.started, ?_⟩
  · intro q t ht
    have hgoing := h.going q t ht
    exact ⟨hgoing.call, hgoing.wrote, hgoing.unread⟩
  · intro ret' hret'
    cases List.mem_append.mp hret' with
    | inl hold => exact h.ended ret' hold
    | inr hnew =>
      rw [List.mem_singleton.mp hnew]
      exact ⟨hlt, hhonest, hidle⟩

variable {t : Thread} {bytes : List UInt8} {pipe : Pipe} {n : Nat}

theorem Inv.accept {p : ι} {buf : List UInt8} (ht : s.threads p = some t) (hcall : t.call = .write buf)
    (hbounded : pipe.Bounded) (hcontents : pipe.contents = s.pipe.contents ++ bytes)
    (hle : t.i + bytes.length ≤ buf.length)
    (hbytes : buf.take t.i ++ bytes = buf.take (t.i + bytes.length)) :
    Inv { s with
      pipe := pipe
      accepted := s.accepted ++ bytes.map fun ch => (t.serial, ch)
      threads := update s.threads p (some { t with i := t.i + bytes.length }) } := by
  have hgoing := h.going p t ht
  have hlt := lt_of_getElem? hgoing.call
  have hmoved : movedBy (s.accepted ++ bytes.map fun ch => (t.serial, ch)) t.serial =
      buf.take (t.i + bytes.length) := by
    rw [movedBy_append_self, (hgoing.wrote buf hcall).2, hbytes]
  have hother : ∀ k, k ≠ t.serial →
      movedBy (s.accepted ++ bytes.map fun ch => (t.serial, ch)) k = movedBy s.accepted k :=
    fun k hk => movedBy_append_of_ne _ hk bytes
  refine ⟨hbounded, ?_, ?_, ?_, ?_, ?_, ?_⟩
  · rw [map_snd_append, h.stream, hcontents, List.append_assoc]
  · intro q t' ht'
    rcases of_update_some ht' with ⟨_, rfl⟩ | ⟨hq, hq'⟩
    · refine ⟨hgoing.call, fun buf' hbuf' => ?_, hgoing.unread⟩
      rw [show t.call = .write buf' from hbuf'] at hcall
      cases hcall
      exact ⟨hle, hmoved⟩
    · have hgoing' := h.going q t' hq'
      refine ⟨hgoing'.call, fun buf' hbuf' => ?_, hgoing'.unread⟩
      rw [hother _ fun heq => hq (h.apart q p t' t hq' ht heq)]
      exact hgoing'.wrote buf' hbuf'
  · intro q q' t₁ t₂ ht₁ ht₂ heq
    rcases of_update_some ht₁ with ⟨hq, rfl⟩ | ⟨hq, hq₁⟩
    · rcases of_update_some ht₂ with ⟨hq', rfl⟩ | ⟨hq', hq₂⟩
      · rw [hq, hq']
      · exact hq.trans (h.apart p q' t t₂ ht hq₂ heq)
    · rcases of_update_some ht₂ with ⟨hq', rfl⟩ | ⟨hq', hq₂⟩
      · exact (h.apart q p t₁ t hq₁ ht heq).trans hq'.symm
      · exact h.apart q q' t₁ t₂ hq₁ hq₂ heq
  · intro k buf' hk
    by_cases heq : k = t.serial
    · rw [heq] at hk ⊢
      rw [hgoing.call, hcall] at hk
      cases hk
      rw [hmoved]
      exact List.take_prefix _ _
    · rw [hother k heq]
      exact h.own k buf' hk
  · intro e he
    simp only [List.mem_append, List.mem_map] at he
    rcases he with (he | ⟨ch, _, rfl⟩) | he
    · exact h.started e (.inl he)
    · exact hlt
    · exact h.started e (.inr he)
  · intro ret hret
    obtain ⟨hlt', hhonest, hapart⟩ := h.ended ret hret
    have hne : ret.serial ≠ t.serial := Ne.symm (hapart p t ht)
    refine ⟨hlt', ⟨hhonest.1, fun buf' hbuf' hr => ?_⟩, ?_⟩
    · rw [hother _ hne]
      exact hhonest.2 buf' hbuf' hr
    · intro q t' ht'
      rcases of_update_some ht' with ⟨_, rfl⟩ | ⟨_, hq'⟩
      · exact hapart p t ht
      · exact hapart q t' hq'

omit [DecidableEq ι] in
theorem Inv.remove {k : Nat} (hcall : s.calls[k]? = some (.read n))
    (hidle : ∀ p t, s.threads p = some t → t.serial ≠ k) (hnew : ∀ ret ∈ s.returns, ret.serial ≠ k)
    (hbounded : pipe.Bounded) (hcontents : s.pipe.contents = bytes ++ pipe.contents) :
    Inv { s with pipe := pipe, removed := s.removed ++ bytes.map fun ch => (k, ch) } := by
  have hother : ∀ k', k' ≠ k →
      movedBy (s.removed ++ bytes.map fun ch => (k, ch)) k' = movedBy s.removed k' :=
    fun k' hk => movedBy_append_of_ne _ hk bytes
  refine ⟨hbounded, ?_, ?_, h.apart, h.own, ?_, ?_⟩
  · rw [map_snd_append, h.stream, hcontents, List.append_assoc]
  · intro q t ht
    have hgoing := h.going q t ht
    refine ⟨hgoing.call, hgoing.wrote, fun n' hn' => ?_⟩
    rw [hother _ (hidle q t ht)]
    exact hgoing.unread n' hn'
  · intro e he
    simp only [List.mem_append, List.mem_map] at he
    rcases he with he | he | ⟨ch, _, rfl⟩
    · exact h.started e (.inl he)
    · exact h.started e (.inr he)
    · exact lt_of_getElem? hcall
  · intro ret hret
    obtain ⟨hlt, hhonest, hapart⟩ := h.ended ret hret
    refine ⟨hlt, ⟨fun n' hn' => ?_, hhonest.2⟩, hapart⟩
    rw [hother _ (hnew ret hret)]
    exact hhonest.1 n' hn'

theorem Inv.asleep {p : ι} {i : Nat} (ht : s.threads p = some t) (hcall : t.call = .read n) :
    Inv { s with threads := update s.threads p (some { t with i := i }) } := by
  have hgoing := h.going p t ht
  refine ⟨h.bounded, h.stream, ?_, ?_, h.own, h.started, ?_⟩
  · intro q t' ht'
    rcases of_update_some ht' with ⟨_, rfl⟩ | ⟨_, hq⟩
    · refine ⟨hgoing.call, fun buf hbuf => ?_, hgoing.unread⟩
      rw [show t.call = .write buf from hbuf] at hcall
      cases hcall
    · have hgoing' := h.going q t' hq
      exact ⟨hgoing'.call, hgoing'.wrote, hgoing'.unread⟩
  · intro q q' t₁ t₂ ht₁ ht₂ heq
    rcases of_update_some ht₁ with ⟨hq, rfl⟩ | ⟨_, hq₁⟩
    · rcases of_update_some ht₂ with ⟨hq', rfl⟩ | ⟨_, hq₂⟩
      · rw [hq, hq']
      · exact hq.trans (h.apart p q' t t₂ ht hq₂ heq)
    · rcases of_update_some ht₂ with ⟨hq', rfl⟩ | ⟨_, hq₂⟩
      · exact (h.apart q p t₁ t hq₁ ht heq).trans hq'.symm
      · exact h.apart q q' t₁ t₂ hq₁ hq₂ heq
  · intro ret hret
    obtain ⟨hlt, hhonest, hapart⟩ := h.ended ret hret
    refine ⟨hlt, hhonest, fun q t' ht' => ?_⟩
    rcases of_update_some ht' with ⟨_, rfl⟩ | ⟨_, hq⟩
    · exact hapart p t ht
    · exact hapart q t' hq

end Steps

end System

end Xv6Ringbuf.Ipc
