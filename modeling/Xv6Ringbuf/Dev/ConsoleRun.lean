import Xv6Ringbuf.Dev.ConsoleRefine

namespace Xv6Ringbuf.Dev

open Trace Circular Function

def Cons.advance (cons : Cons) (k : Nat) : Cons := { cons with r := cons.r + BitVec.ofNat 32 k }

theorem advance_zero (cons : Cons) : cons.advance 0 = cons := by
  rw [Cons.advance, BitVec.add_zero]

theorem advance_succ (cons : Cons) (k : Nat) :
    Cons.advance { cons with r := cons.r + 1 } k = cons.advance (k + 1) := by
  have hsum : cons.r + 1 + BitVec.ofNat 32 k = cons.r + BitVec.ofNat 32 (k + 1) := by
    rw [BitVec.ofNat_add, add_assoc, add_comm (BitVec.ofNat 32 k)]
    rfl
  simp only [Cons.advance, hsum]

variable {cons : Cons} {t : Tty} {s s' : System} {p : Pid} {read : Read} {e : Event} {ret : Return}

theorem Matches.advance {t' : Tty} (h : Matches cons t) {k : Nat} (hk : k ≤ t.unread.length)
    (hunread : t'.unread = t.unread.drop k) (hline : t'.line = t.line) :
    Matches (cons.advance k) t' := by
  rw [h.unread, length_span] at hk
  have hless : ahead (cons.r + BitVec.ofNat 32 k) cons.w = ahead cons.r cons.w - k :=
    ahead_add_left hk
  have hroom := h.room
  refine ⟨?_, ?_, ?_, ?_⟩
  · simp only [Cons.advance]
    rw [hunread, h.unread, hless, span_congr _ _ (add_ofNat_mod size_dvd cons.r k), ← span_drop,
      Nat.add_sub_cancel' hk]
  · rw [hline]
    exact h.line
  · simp only [Cons.advance]
    omega
  · rw [hline]
    exact h.plain

-- One stretch of `consoleread` takes what `chunk` says, and the mark if it is one
-- that is taken.
theorem readLoop_eq (killed : Bool) (target room n : Nat) (got : List UInt8) (cons : Cons)
    (input : List UInt8) (hinput : span cons.buf cons.r.toNat (ahead cons.r cons.w) = input)
    (hsum : got.length + n = target) (hroom : target ≤ room) :
    readLoop killed target room n got cons =
      ⟨(chunk n input).2.fate killed, Read.gain ⟨target, room, n, got⟩ (chunk n input).1,
        cons.advance ((chunk n input).1 ++
          (Read.gain ⟨target, room, n, got⟩ (chunk n input).1).mark (chunk n input).2).length⟩ := by
  induction n generalizing got cons input with
  | zero =>
    rw [readLoop, chunk]
    simp only [Stop.fate, Read.gain, Read.mark, List.append_nil, List.length_nil, Nat.sub_zero]
    rw [advance_zero]
  | succ n ih =>
    rw [readLoop]
    by_cases hempty : cons.r = cons.w
    · rw [hempty, ahead_self, span] at hinput
      subst hinput
      rw [if_pos hempty, chunk]
      simp only [Stop.fate, Read.gain, Read.mark, List.append_nil, List.length_nil, Nat.sub_zero]
      rw [advance_zero]
    · rw [← ahead_one_add hempty, span] at hinput
      subst hinput
      rw [if_neg hempty, chunk]
      by_cases hmark : cell cons.buf cons.r.toNat = C 'D'
      · rw [if_pos hmark, if_pos hmark]
        simp only [Stop.fate, Read.gain, Read.mark, List.append_nil, List.length_nil, Nat.sub_zero,
          List.nil_append]
        by_cases hnone : got = []
        · rw [hnone, List.length_nil, Nat.zero_add] at hsum
          rw [if_neg (by omega), if_pos hnone, List.length_singleton, ← advance_succ, advance_zero]
        · have hpos : 0 < got.length := List.length_pos_iff.mpr hnone
          rw [if_pos (by omega), if_neg hnone, List.length_nil, advance_zero, add_sub_cancel_right]
      · rw [if_neg hmark, if_neg hmark, if_neg (by omega)]
        by_cases hnl : cell cons.buf cons.r.toNat = NEWLINE
        · rw [if_pos hnl, if_pos hnl]
          simp only [Stop.fate, Read.gain, Read.mark, List.append_nil, List.length_singleton,
            Nat.add_sub_cancel]
          rw [← advance_succ, advance_zero]
        · rw [if_neg hnl, if_neg hnl]
          have hnext : span cons.buf (cons.r + 1).toNat (ahead (cons.r + 1) cons.w) =
              span cons.buf (cons.r.toNat + 1) (ahead (cons.r + 1) cons.w) :=
            span_congr _ _ (add_one_mod size_dvd cons.r)
          rw [ih (got ++ [cell cons.buf cons.r.toNat]) { cons with r := cons.r + 1 } _ hnext
            (by rw [List.length_append, List.length_singleton]; omega)]
          rw [advance_succ, List.cons_append, List.length_cons]
          simp only [Read.gain, List.append_assoc, List.singleton_append, List.length_cons,
            Nat.add_sub_add_right]

-- The model of the code and the abstract console after the same events.
structure Simulates (s : System) (t : Tty) : Prop where
  cons : Matches s.cons t
  reads : s.reads = t.reads
  returns : s.returns = t.ends.map Prod.fst
  room : ∀ p read, t.reads p = some read → read.target ≤ read.room
  orderly : t.Orderly

theorem Simulates.taken_le (h : Simulates s t) :
    t.taken.length ≤ t.committed.length := by
  have hlen := h.orderly.inOrder.length_le
  rwa [List.length_map] at hlen

theorem onward_target {fate : Fate} {read' : Read} (h : (onward p fate read).1 = some read') :
    read' = read := by
  cases fate with
  | asleep => exact (Option.some.inj h).symm
  | killed | returned => cases h

theorem Simulates.consoleread_eq (h : Simulates s t) (hread : t.reads p = some read) (killed : Bool) :
    consoleread killed read s.cons = ⟨(chunk read.n t.unread).2.fate killed,
      read.gain (chunk read.n t.unread).1, s.cons.advance ((chunk read.n t.unread).1 ++
        (read.gain (chunk read.n t.unread).1).mark (chunk read.n t.unread).2).length⟩ :=
  readLoop_eq killed read.target read.room read.n read.got s.cons t.unread
    h.cons.unread.symm (h.orderly.going p read hread).length (h.room p read hread)

theorem Simulates.settle (h : Simulates s t) (hread : t.reads p = some read) (killed : Bool) :
    Simulates (s.settle p (consoleread killed read s.cons)) (t.serve p killed read) := by
  have hpart : (chunk read.n t.unread).1 ++
      (read.gain (chunk read.n t.unread).1).mark (chunk read.n t.unread).2 <+: t.unread :=
    marked_bytes (chunk_spec read.n t.unread) rfl
  rw [h.consoleread_eq hread]
  constructor
  · apply h.cons.advance hpart.length_le
    · have hlen : (t.serve p killed read).taken.length = t.taken.length +
          ((chunk read.n t.unread).1 ++
            (read.gain (chunk read.n t.unread).1).mark (chunk read.n t.unread).2).length := by
        rw [Tty.serve, List.length_append, List.length_map]
      rw [Tty.unread, hlen, ← List.drop_drop]
      rfl
    · rfl
  · rw [System.settle, Tty.serve, h.reads]
  · rw [System.settle, Tty.serve, h.returns, List.map_append, List.map_map, Function.comp_def,
      List.map_id']
  · intro q read' hread'
    rw [Tty.serve] at hread'
    by_cases hq : q = p
    · simp only [hq, update_self] at hread'
      rw [onward_target hread']
      exact h.room p read hread
    · simp only [update_of_ne hq] at hread'
      exact h.room q read' hread'
  · exact h.orderly.serve hread killed

theorem Simulates.step (h : Simulates s t) (he : e.Valid) (hstep : s.step e = some s') :
    ∃ t', t.step e = some t' ∧ Simulates s' t' := by
  cases e with
  | intr c =>
    obtain rfl := Option.some.inj hstep
    obtain ⟨hreads, hends⟩ := t.type_frame c
    refine ⟨t.type c, rfl, h.cons.intr c h.taken_le, ?_, ?_, ?_, h.orderly.type c⟩
    · rw [hreads, h.reads]
    · rw [hends, h.returns]
    · rw [hreads]
      exact h.room
  | call p n room =>
    rw [System.step, h.reads] at hstep
    cases hread : t.reads p with
    | some read =>
      rw [hread] at hstep
      cases hstep
    | none =>
      rw [hread] at hstep
      obtain rfl := Option.some.inj hstep
      refine ⟨_, Tty.step_call hread n room,
        ⟨h.cons.unread, h.cons.line, h.cons.room, h.cons.plain⟩, rfl, h.returns, ?_,
        h.orderly.call room hread he.1⟩
      · intro q read hq
        by_cases hqp : q = p
        · simp only [hqp, update_self] at hq
          rw [← Option.some.inj hq]
          exact he.2
        · simp only [update_of_ne hqp] at hq
          exact h.room q read hq
  | run p killed =>
    rw [System.step, h.reads] at hstep
    cases hread : t.reads p with
    | none =>
      rw [hread] at hstep
      cases hstep
    | some read =>
      rw [hread] at hstep
      obtain rfl := Option.some.inj hstep
      exact ⟨_, Tty.step_run hread killed, h.settle hread killed⟩

theorem onward_killed (h : t.Orderly) (hread : t.reads p = some read) (killed : Bool)
    (hret : ret ∈ (onward p ((chunk read.n t.unread).2.fate killed)
      (read.gain (chunk read.n t.unread).1)).2) (hvalue : ret.value = -1) :
    ret.pid = p ∧ killed = true := by
  have hsum := gain_target (h.going p read hread) (chunk_spec read.n t.unread).length_le
  generalize chunk read.n t.unread = part at hret hsum
  obtain ⟨bytes, stop⟩ := part
  simp only at hret hsum
  cases stop with
  | full | newline | mark =>
    obtain rfl := List.mem_singleton.mp hret
    simp only at hvalue
    omega
  | dry =>
    cases killed with
    | true =>
      obtain rfl := List.mem_singleton.mp hret
      exact ⟨rfl, rfl⟩
    | false => cases hret

theorem Simulates.aborted (h : Simulates s t) (hstep : s.step e = some s') (hret : ret ∈ s'.returns)
    (hvalue : ret.value = -1) :
    ret ∈ s.returns ∨ e = .run ret.pid true := by
  cases e with
  | intr c =>
    obtain rfl := Option.some.inj hstep
    exact .inl hret
  | call p n room =>
    rw [System.step] at hstep
    cases hread : s.reads p with
    | some read =>
      rw [hread] at hstep
      cases hstep
    | none =>
      rw [hread] at hstep
      obtain rfl := Option.some.inj hstep
      exact .inl hret
  | run p killed =>
    rw [System.step, h.reads] at hstep
    cases hread : t.reads p with
    | none =>
      rw [hread] at hstep
      cases hstep
    | some read =>
      rw [hread] at hstep
      obtain rfl := Option.some.inj hstep
      rw [System.settle, h.consoleread_eq hread] at hret
      rcases List.mem_append.mp hret with hold | hnew
      · exact .inl hold
      · obtain ⟨rfl, rfl⟩ := onward_killed h.orderly hread killed hnew hvalue
        exact .inr rfl

theorem Simulates.run {events : List Event} (h : Simulates s t) (hvalid : ∀ e ∈ events, e.Valid)
    (hrun : run System.step s events = some s') :
    ∃ t', Trace.run Tty.step t events = some t' ∧ Simulates s' t' ∧
      ∀ ret ∈ s'.returns, ret.value = -1 → ret ∈ s.returns ∨ Event.run ret.pid true ∈ events := by
  induction events generalizing s t with
  | nil =>
    obtain rfl := Option.some.inj hrun
    exact ⟨t, rfl, h, fun ret hret _ => .inl hret⟩
  | cons e events ih =>
    obtain ⟨s₁, hstep, hrest⟩ := run_cons_eq_some.mp hrun
    obtain ⟨t₁, hstep', h₁⟩ := h.step (hvalid e List.mem_cons_self) hstep
    obtain ⟨t', hrun', h', hkilled⟩ :=
      ih h₁ (fun e' he' => hvalid e' (List.mem_cons_of_mem e he')) hrest
    refine ⟨t', run_cons_eq_some.mpr ⟨t₁, hstep', hrun'⟩, h', ?_⟩
    intro ret hret hvalue
    rcases hkilled ret hret hvalue with hold | hlater
    · rcases h.aborted hstep hold hvalue with hold | hnow
      · exact .inl hold
      · exact .inr (hnow ▸ List.mem_cons_self)
    · exact .inr (List.mem_cons_of_mem e hlater)

theorem simulates_initial : Simulates .initial .initial where
  cons := ⟨rfl, rfl, by decide, fun _ h => absurd h List.not_mem_nil⟩
  reads := rfl
  returns := rfl
  room _ _ h := by cases h
  orderly := Tty.orderly_initial

def Cons.unread (cons : Cons) : List UInt8 := span cons.buf cons.r.toNat (cons.w - cons.r).toNat

def Cons.line (cons : Cons) : List UInt8 := span cons.buf cons.w.toNat (cons.e - cons.w).toNat

def Cons.InOrder (cons : Cons) : Prop :=
  cons.w - cons.r ≤ cons.e - cons.r ∧ cons.e - cons.r ≤ BitVec.ofNat 32 INPUT_BUF_SIZE

theorem Matches.inOrder (h : Matches cons t) : cons.InOrder := by
  have hsum := h.ahead_eq
  have hroom : ahead cons.r cons.w + ahead cons.w cons.e ≤ 128 := h.room
  constructor
  · rw [BitVec.le_def]
    change ahead cons.r cons.w ≤ ahead cons.r cons.e
    omega
  · rw [BitVec.le_def]
    change ahead cons.r cons.e ≤ 128
    omega

-- The ring of 128 bytes with its three indices is a queue of lines and a line that is
-- still edited, and -1 is returned only to a process that was killed.
theorem console_line_discipline (events : List Event) (hvalid : ∀ e ∈ events, e.Valid) (s : System)
    (hrun : run System.step .initial events = some s) :
    s.cons.InOrder ∧
      (∃ t, run Tty.step .initial events = some t ∧ t.Orderly ∧ s.cons.unread = t.unread ∧
        s.cons.line = t.line ∧ s.reads = t.reads ∧ s.returns = t.ends.map Prod.fst) ∧
      ∀ ret ∈ s.returns, ret.value = -1 → Event.run ret.pid true ∈ events := by
  obtain ⟨t, hrun', h, hkilled⟩ := simulates_initial.run hvalid hrun
  refine ⟨h.cons.inOrder, ⟨t, hrun', h.orderly, h.cons.unread.symm, h.cons.line.symm, h.reads,
    h.returns⟩, ?_⟩
  intro ret hret hvalue
  rcases hkilled ret hret hvalue with hold | hkill
  · cases hold
  · exact hkill

-- A line that is edited while it is typed, then an end-of-file mark, for a reader
-- that has been waiting and one that comes later.
def typedLine : List Event :=
  [.call 1 8 8, .run 1 false, .intr 97, .intr 98, .intr 127, .intr 13, .intr 4, .run 1 false,
    .call 2 5 9, .run 2 false]

theorem console_line_discipline_edited :
    ∃ s, run System.step .initial typedLine = some s ∧
      s.returns = [⟨1, ⟨8, 8, 6, [97, 10]⟩, 2⟩, ⟨2, ⟨5, 9, 5, []⟩, 0⟩] ∧ s.cons.InOrder :=
  ⟨_, rfl, by decide +kernel,
    (console_line_discipline typedLine (by simp [typedLine, Event.Valid]) _ rfl).1⟩

end Xv6Ringbuf.Dev
