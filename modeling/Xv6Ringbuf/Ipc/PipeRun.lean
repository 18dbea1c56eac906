import Xv6Ringbuf.Ipc.PipeSystem
import Xv6Ringbuf.Trace

namespace Xv6Ringbuf.Ipc

open Trace Function

namespace System

section Steps

variable {ι : Type} [DecidableEq ι] {s : System ι} (h : s.Inv)

include h

variable {p : ι} {t : Thread} {bytes : List UInt8} {pipe : Pipe} {outcome : Outcome}
  {killed : Nat → Bool}

theorem Inv.section_write {buf : List UInt8} (ht : s.threads p = some t) (hcall : t.call = .write buf)
    (hrun : runCall killed t s.pipe = (outcome, bytes, pipe)) :
    Inv (({ s with pipe := pipe }.record t bytes).settle p t outcome bytes) := by
  have hgoing := h.going p t ht
  obtain ⟨hi, _⟩ := hgoing.wrote buf hcall
  rw [runCall, hcall] at hrun
  obtain ⟨hbounded, hcontents, hcopied, hlen, houtcome⟩ :=
    Pipe.writeFrom_spec _ _ _ _ h.bounded hrun
  have hbytes : buf.take t.i ++ bytes = buf.take (t.i + bytes.length) := by
    rw [List.take_add]
    congr 1
    apply List.ext_getElem?
    intro j
    by_cases hj : j < bytes.length
    · rw [← hcopied j hj, List.getElem?_take_of_lt hj, List.getElem?_drop]
    · rw [List.getElem?_eq_none (by omega), List.getElem?_eq_none (by rw [List.length_take]; omega)]
  have haccept := h.accept ht hcall hbounded hcontents (by omega) hbytes
  have hrecord : { s with pipe := pipe }.record t bytes =
      { s with pipe := pipe, accepted := s.accepted ++ bytes.map fun ch => (t.serial, ch) } := by
    rw [record, hcall]
  rw [hrecord]
  have hreturned : ∀ r : Int, (0 ≤ r → r = ((t.i + bytes.length : Nat) : Int)) →
      Inv (({ s with
        pipe := pipe
        accepted := s.accepted ++ bytes.map fun ch => (t.serial, ch) } : System ι).settle p t
          (.returned r) bytes) := by
    intro r hr
    have hidle := haccept.idle p
    simp only [update_idem] at hidle
    have hlt := lt_of_getElem? hgoing.call
    have hret := hidle.returned ⟨t.serial, r, []⟩ hlt ?_ ?_
    · rw [settle, hcall]
      exact hret
    · refine ⟨fun n hn => ?_, fun buf' hbuf' hpos => ?_⟩
      · rw [hgoing.call, hcall] at hn
        cases hn
      · rw [hgoing.call, hcall] at hbuf'
        cases hbuf'
        rw [hr hpos, Int.toNat_natCast, movedBy_append_self, (hgoing.wrote buf hcall).2, hbytes]
    · intro q t' ht' heq
      obtain ⟨hne, hq⟩ := of_update_none ht'
      exact hne (h.apart q p t' t hq ht heq)
  rcases houtcome with rfl | rfl | rfl
  · exact hreturned (-1) fun hneg => absurd hneg (by decide)
  · exact hreturned _ fun _ => rfl
  · exact haccept

theorem Inv.section_read {n : Nat} (ht : s.threads p = some t) (hcall : t.call = .read n)
    (hrun : runCall killed t s.pipe = (outcome, bytes, pipe)) :
    Inv (({ s with pipe := pipe }.record t bytes).settle p t outcome bytes) := by
  have hgoing := h.going p t ht
  have hread : s.calls[t.serial]? = some (.read n) := by rw [hgoing.call, hcall]
  have hlt := lt_of_getElem? hread
  have hrecord : { s with pipe := pipe }.record t bytes =
      { s with pipe := pipe, removed := s.removed ++ bytes.map fun ch => (t.serial, ch) } := by
    rw [record, hcall]
  -- the call returns with these bytes
  have hreturned : ∀ r : Int, (r = bytes.length ∨ r = -1 ∧ bytes = []) → pipe.Bounded →
      s.pipe.contents = bytes ++ pipe.contents →
      Inv (({ s with pipe := pipe }.record t bytes).settle p t (.returned r) bytes) := by
    intro r hr hbounded hcontents
    have hidle : ∀ q t', update s.threads p none q = some t' → t'.serial ≠ t.serial := by
      intro q t' ht' heq
      obtain ⟨hne, hq⟩ := of_update_none ht'
      exact hne (h.apart q p t' t hq ht heq)
    have hnew : ∀ ret ∈ s.returns, ret.serial ≠ t.serial :=
      fun ret hret => Ne.symm ((h.ended ret hret).2.2 p t ht)
    have hremoved := (h.idle p).remove hread hidle hnew hbounded hcontents
    have hret := hremoved.returned ⟨t.serial, r, bytes⟩ hlt ?_ hidle
    · rw [hrecord, settle, hcall]
      exact hret
    · refine ⟨fun _ _ => ⟨?_, hr⟩, fun buf hbuf => ?_⟩
      · rw [movedBy_append_self, hgoing.unread n hcall, List.nil_append]
      · rw [hread] at hbuf
        cases hbuf
  rw [runCall, hcall] at hrun
  simp only [Pipe.piperead] at hrun
  by_cases hwait : (s.pipe.empty && s.pipe.writeopen) = true
  · rw [if_pos hwait] at hrun
    by_cases hkilled : killed 0 = true
    · rw [if_pos hkilled] at hrun
      cases hrun
      exact hreturned (-1) (.inr ⟨rfl, rfl⟩) h.bounded rfl
    · rw [if_neg hkilled] at hrun
      cases hrun
      rw [hrecord, List.map_nil, List.append_nil]
      exact h.asleep ht hcall
  · rw [if_neg hwait] at hrun
    generalize hcopy : Pipe.readFrom (fun _ => true) n 0 s.pipe = result at hrun
    obtain ⟨bytes', pipe'⟩ := result
    cases hrun
    obtain ⟨hcontents, _⟩ := Pipe.readFrom_ok (fun _ _ => rfl) hcopy
    have hlen := congrArg List.length hcontents
    rw [List.length_append, Pipe.length_contents, Pipe.length_contents] at hlen
    have hbounded := h.bounded
    rw [Pipe.Bounded] at hbounded
    exact hreturned _ (.inl rfl) (show pipe'.stored ≤ PIPESIZE by omega) hcontents

theorem Inv.step {e : Event ι} {s' : System ι} (hstep : s.step e = some s') : s'.Inv := by
  cases e with
  | start p call =>
    rw [System.step] at hstep
    cases hthread : s.threads p with
    | some t =>
      rw [hthread] at hstep
      cases hstep
    | none =>
      rw [hthread] at hstep
      cases hstep
      exact h.start p call
  | «section» p killed =>
    rw [System.step] at hstep
    cases hthread : s.threads p with
    | none =>
      rw [hthread] at hstep
      cases hstep
    | some t =>
      simp only [hthread] at hstep
      generalize hrun : runCall killed t s.pipe = result at hstep
      obtain ⟨outcome, bytes, pipe⟩ := result
      cases hstep
      cases hcall : t.call with
      | write buf => exact h.section_write hthread hcall hrun
      | read n => exact h.section_read hthread hcall hrun
  | close writable =>
    cases hstep
    have hsame : (s.pipe.close writable).contents = s.pipe.contents ∧
        (s.pipe.close writable).stored = s.pipe.stored := by
      cases writable with
      | true => exact ⟨rfl, rfl⟩
      | false => exact ⟨rfl, rfl⟩
    refine ⟨?_, ?_, ?_, h.apart, h.own, h.started, h.ended⟩
    · rw [Pipe.Bounded, hsame.2]
      exact h.bounded
    · rw [hsame.1]
      exact h.stream
    · intro p t ht
      have hgoing := h.going p t ht
      exact ⟨hgoing.call, hgoing.wrote, hgoing.unread⟩

end Steps

end System

-- Any number of processes, calls of any size, any interleaving of the sections under
-- the lock, and counters that wrap.
theorem pipe_is_fifo {ι : Type} [DecidableEq ι] (data : Fin PIPESIZE → UInt8)
    {events : List (Event ι)} {s : System ι} (hrun : run System.step (System.fresh data) events = some s) :
    s.Fifo :=
  (run_invariant (fun _ _ _ h hstep => System.Inv.step h hstep) (System.inv_fresh data) hrun).fifo

def twoCalls : List (Event Bool) :=
  [.start true (.read 2), .section true fun _ => false, .start false (.write [1, 2, 3]),
    .section false fun _ => false, .section true fun _ => false]

theorem pipe_is_fifo_two : ∃ s, run System.step (System.fresh fun _ => 0) twoCalls = some s ∧
    s.accepted = [(1, 1), (1, 2), (1, 3)] ∧ s.removed = [(0, 1), (0, 2)] ∧ s.Fifo := by
  obtain ⟨s, hs⟩ : ∃ s, run System.step (System.fresh fun _ => 0) twoCalls = some s := ⟨_, rfl⟩
  have hlists : (run System.step (System.fresh fun _ => 0) twoCalls).map
      (fun s => (s.accepted, s.removed)) = some ([(1, 1), (1, 2), (1, 3)], [(0, 1), (0, 2)]) := by
    decide +kernel
  rw [hs, Option.map_some, Option.some.injEq, Prod.mk.injEq] at hlists
  exact ⟨s, hs, hlists.1, hlists.2, pipe_is_fifo (fun _ => 0) hs⟩

end Xv6Ringbuf.Ipc
