import Xv6Ringbuf.User.Descriptors

namespace Xv6Ringbuf.User.Library

open Interleave

variable {ω : Type} {w : World ω} {s : Process ω} {held : List Int32} {rd : Int32}

theorem play_invalid {c : Request} (hc : c.descriptor = some rd)
    (hinvalid : User.isRdValid s.table rd ≠ 0) : c.code.play (perform w) s = (none, s.checked rd) := by
  by_cases hclose : ∃ name, c = .close rd name
  · obtain ⟨name, rfl⟩ := hclose
    rw [Request.code, ringbufClose, play_request, if_pos hinvalid]
  · obtain ⟨body, _, hplay⟩ := play_book (w := w) rd hc (not_exists.mp hclose)
    rw [hplay, if_pos hinvalid]

theorem mem_checkLog (hne : rd ≠ MAX_USR_RINGBUF) {a : Access} (ha : a ∈ checkLog rd) :
    ∃ i < 10, a = .read i := by
  rw [checkLog] at ha
  by_cases hrange : rd < 0 ∨ MAX_USR_RINGBUF < rd
  · rw [if_pos hrange] at ha
    cases ha
  · rw [if_neg hrange] at ha
    exact ⟨_, toNatClampNeg_lt ((in_range_iff hne).mp hrange).2, List.mem_singleton.mp ha⟩

theorem checkLog_bounds (hne : rd ≠ MAX_USR_RINGBUF) {i : Nat}
    (hi : .read i ∈ checkLog rd ∨ .write i ∈ checkLog rd) : i < 10 := by
  rcases hi with hi | hi
  · obtain ⟨j, hj, heq⟩ := mem_checkLog hne hi
    cases heq
    exact hj
  · obtain ⟨j, _, heq⟩ := mem_checkLog hne hi
    cases heq

theorem checked_of_held {c : Request} {result : Result} {log : List Access}
    (hc : ∀ rd, c.descriptor = some rd → rd ∈ held)
    (hlog : ∀ i, .read i ∈ log ∨ .write i ∈ log → i < 10) : Checked held ⟨c, result, log⟩ :=
  ⟨hlog, fun rd hrd hnot => absurd (hc rd hrd) hnot⟩

-- What one request has to do: all its accesses are checked, and the table agrees
-- with the descriptors that are held afterwards.
def Orderly (w : World ω) (held : List Int32) (s : Process ω) (c : Request) : Prop :=
  match c.code.play (perform w) s with
  | (none, s') => Checked held ⟨c, .exited, s'.log⟩
  | (some result, s') =>
    Checked held ⟨c, result, s'.log⟩ ∧ Agrees s'.table (track held ⟨c, result, s'.log⟩)

section Step

variable (h : Agrees s.table held) (hlog : s.log = [])

include h hlog

theorem Agrees.orderly_opens (name : List UInt8) (addr : UInt64) :
    Orderly w held s (.opens name addr) := by
  have hheld : ∀ rd, (Request.opens name addr).descriptor = some rd → rd ∈ held :=
    fun _ hrd => by cases hrd
  unfold Orderly
  obtain ⟨world, hfail | ⟨base, log, hplay, haccess⟩⟩ := play_opens (w := w) s name addr
  · rw [hfail, hlog]
    exact ⟨checked_of_held hheld (by simp), h⟩
  · rw [hplay, hlog]
    refine ⟨checked_of_held hheld ?_, ?_⟩
    · intro i hi
      simp only [List.nil_append, List.mem_append, List.mem_singleton, reduceCtorEq, false_or] at hi
      rcases hi with hi | hi
      · obtain ⟨j, hj, heq | heq⟩ := haccess _ hi
        · cases heq
          exact hj
        · cases heq
      · obtain ⟨j, hj, heq | heq⟩ := haccess _ hi
        · cases heq
        · cases heq
          exact hj
    · rcases claimEntry_cases s.table base MAX_USR_RINGBUF.toNatClampNeg 0 with
        ⟨hclaim, _⟩ | ⟨j, _, hj, _, hclaim⟩
      · rw [hclaim]
        exact h
      · rw [Nat.zero_add] at hj
        have hj' : j < 10 := hj
        have hpos : (0 : Int32) ≤ Int32.ofNat j := by
          rw [Int32.le_iff_toInt_le, Int32.toInt_ofNat_of_lt (by omega)]
          exact Int.natCast_nonneg j
        rw [hclaim]
        simp only [track, if_pos hpos]
        exact h.claim hj' base

omit h in
theorem orderly_invalid {c : Request} (hc : c.descriptor = some rd) (hne : rd ≠ MAX_USR_RINGBUF)
    (hinvalid : User.isRdValid s.table rd ≠ 0) : Orderly w held s c := by
  unfold Orderly
  rw [play_invalid hc hinvalid]
  have hreads : ∀ a ∈ (s.checked rd).log, ∃ i < 10, a = .read i := by
    intro a ha
    simp only [Process.checked, hlog, List.nil_append] at ha
    exact mem_checkLog hne ha
  refine ⟨?_, fun _ _ _ => ⟨rfl, fun a ha => ?_⟩⟩
  · intro i hi
    rcases hi with hi | hi
    · obtain ⟨j, hj, heq⟩ := hreads _ hi
      cases heq
      exact hj
    · obtain ⟨j, _, heq⟩ := hreads _ hi
      cases heq
  · obtain ⟨i, _, heq⟩ := hreads a ha
    exact ⟨i, heq⟩

theorem Agrees.orderly_close (name : List UInt8) (hne : rd ≠ MAX_USR_RINGBUF)
    (hvalid : User.isRdValid s.table rd = 0) : Orderly w held s (.close rd name) := by
  have hmem := (h.valid_iff hne).mp hvalid
  have hlt := toNatClampNeg_lt (h.range rd hmem).2
  have hheld : ∀ rd', (Request.close rd name).descriptor = some rd' → rd' ∈ held := by
    intro rd' hrd'
    cases hrd'
    exact hmem
  unfold Orderly
  obtain ⟨world, hplay | hplay⟩ := play_close (w := w) s rd name hvalid
  · rw [hplay]
    refine ⟨checked_of_held hheld ?_, h⟩
    intro i hi
    simp only [Process.checked, hlog, List.nil_append, List.mem_append, List.mem_singleton,
      reduceCtorEq, or_false, Access.read.injEq] at hi
    rcases hi with (hi | rfl) | hi
    · exact checkLog_bounds hne (.inl hi)
    · exact hlt
    · exact checkLog_bounds hne (.inr hi)
  · rw [hplay]
    refine ⟨checked_of_held hheld ?_, h.release hmem⟩
    intro i hi
    simp only [Process.checked, hlog, List.nil_append, List.mem_append, List.mem_singleton,
      reduceCtorEq, or_false, Access.read.injEq, Access.write.injEq] at hi
    rcases hi with (hi | rfl) | (hi | rfl)
    · exact checkLog_bounds hne (.inl hi)
    · exact hlt
    · exact checkLog_bounds hne (.inr hi)
    · exact hlt

theorem Agrees.orderly_book {c : Request} (hc : c.descriptor = some rd)
    (hclose : ∀ name, c ≠ .close rd name) (hne : rd ≠ MAX_USR_RINGBUF)
    (hvalid : User.isRdValid s.table rd = 0) : Orderly w held s c := by
  have hmem := (h.valid_iff hne).mp hvalid
  have hlt := toNatClampNeg_lt (h.range rd hmem).2
  have hheld : ∀ rd', c.descriptor = some rd' → rd' ∈ held := by
    intro rd' hrd'
    rw [hc] at hrd'
    cases hrd'
    exact hmem
  have hkept : ∀ result log, track held ⟨c, result, log⟩ = held := by
    intro result log
    cases c with
    | opens name addr => cases hc
    | close rd' name =>
      cases hc
      exact absurd rfl (hclose name)
    | startRead _ | startWrite _ | finishRead _ _ | finishWrite _ _ => rfl
  obtain ⟨body, hlooks, hplay⟩ := play_book (w := w) rd hc hclose
  obtain ⟨htable, log, hbody, haccess⟩ := hlooks.play (w := w) (s.checked rd)
  have hbounds : ∀ i, .read i ∈ (body.play (perform w) (s.checked rd)).2.log ∨
      .write i ∈ (body.play (perform w) (s.checked rd)).2.log → i < 10 := by
    intro i hi
    rw [hbody] at hi
    simp only [Process.checked, hlog, List.nil_append, List.mem_append] at hi
    rcases hi with (hi | hi) | (hi | hi)
    · exact checkLog_bounds hne (.inl hi)
    · rw [haccess i (.inl hi)]
      exact hlt
    · exact checkLog_bounds hne (.inr hi)
    · rw [haccess i (.inr hi)]
      exact hlt
  unfold Orderly
  rw [hplay, if_neg (not_not.mpr hvalid)]
  generalize body.play (perform w) (s.checked rd) = outcome at htable hbounds
  obtain ⟨value, s'⟩ := outcome
  cases value with
  | none => exact checked_of_held hheld hbounds
  | some result =>
    refine ⟨checked_of_held hheld hbounds, ?_⟩
    rw [hkept, htable]
    exact h

theorem Agrees.orderly (c : Request) (hne : c.descriptor ≠ some MAX_USR_RINGBUF) :
    Orderly w held s c := by
  cases hc : c.descriptor with
  | none =>
    cases c with
    | opens name addr => exact h.orderly_opens hlog name addr
    | close _ _ | startRead _ | startWrite _ | finishRead _ _ | finishWrite _ _ => cases hc
  | some rd =>
    have hne' : rd ≠ MAX_USR_RINGBUF := fun heq => hne (by rw [hc, heq])
    by_cases hvalid : User.isRdValid s.table rd = 0
    · by_cases hclose : ∃ name, c = .close rd name
      · obtain ⟨name, rfl⟩ := hclose
        exact h.orderly_close hlog name hne' hvalid
      · exact h.orderly_book hlog hc (not_exists.mp hclose) hne' hvalid
    · exact orderly_invalid hlog hc hne' hvalid

end Step

theorem Agrees.history (requests : List Request) (h : Agrees s.table held)
    (hne : ∀ d ∈ Library.history w s requests, d.request.descriptor ≠ some MAX_USR_RINGBUF) :
    ∀ before d after, Library.history w s requests = before ++ d :: after →
      Checked (before.foldl track held) d := by
  induction requests generalizing s held with
  | nil =>
    intro before d after heq
    cases List.append_eq_nil_iff.mp heq.symm with
    | intro _ hcons => cases hcons
  | cons c rest ih =>
    have hstep : c.descriptor ≠ some MAX_USR_RINGBUF → Orderly w held { s with log := [] } c :=
      Agrees.orderly (s := { s with log := [] }) h rfl c
    unfold Orderly at hstep
    rw [Library.history] at hne ⊢
    generalize c.code.play (perform w) { s with log := [] } = outcome at hstep hne
    obtain ⟨value, s'⟩ := outcome
    cases value with
    | none =>
      intro before d after heq
      have hchecked := hstep (hne ⟨c, .exited, s'.log⟩ (List.mem_singleton_self _))
      cases before with
      | nil =>
        cases heq
        exact hchecked
      | cons d' before =>
        have htail := (List.cons.inj heq).2
        cases List.append_eq_nil_iff.mp htail.symm with
        | intro _ hcons => cases hcons
    | some result =>
      intro before d after heq
      obtain ⟨hchecked, hagrees⟩ := hstep (hne ⟨c, result, s'.log⟩ List.mem_cons_self)
      cases before with
      | nil =>
        cases heq
        exact hchecked
      | cons d' before =>
        obtain ⟨rfl, htail⟩ := List.cons.inj heq
        exact ih hagrees (fun d hd => hne d (List.mem_cons_of_mem _ hd)) before d after htail

theorem reads_behind {c : Request} (hc : c.descriptor = some MAX_USR_RINGBUF) (s : Process ω) :
    .read MAX_USR_RINGBUF.toNatClampNeg ∈ (c.code.play (perform w) s).2.log := by
  have hchecked : ∀ body : Code Result,
      .read MAX_USR_RINGBUF.toNatClampNeg ∈ (body.play (perform w) (s.checked MAX_USR_RINGBUF)).2.log := by
    intro body
    obtain ⟨log, hlog⟩ := log_extends (w := w) body (s.checked MAX_USR_RINGBUF)
    rw [hlog, Process.checked, show checkLog MAX_USR_RINGBUF = [.read 10] by decide]
    simp only [List.mem_append, List.mem_singleton]
    exact .inl (.inr rfl)
  by_cases hvalid : User.isRdValid s.table MAX_USR_RINGBUF = 0
  · by_cases hclose : ∃ name, c = .close MAX_USR_RINGBUF name
    · obtain ⟨name, rfl⟩ := hclose
      rw [Request.code, ringbufClose, play_request, if_neg (not_not.mpr hvalid)]
      exact hchecked _
    · obtain ⟨body, _, hplay⟩ := play_book (w := w) MAX_USR_RINGBUF hc (not_exists.mp hclose)
      rw [hplay, if_neg (not_not.mpr hvalid)]
      exact hchecked body
  · rw [play_invalid hc hvalid]
    exact hchecked .halt

theorem log_of_mem_history {requests : List Request} {d : Done} (hd : d ∈ history w s requests) :
    ∃ s' : Process ω, d.log = (d.request.code.play (perform w) s').2.log := by
  induction requests generalizing s with
  | nil => cases hd
  | cons c rest ih =>
    rw [history] at hd
    cases hplay : c.code.play (perform w) { s with log := [] } with
    | mk value s' =>
      rw [hplay] at hd
      cases value with
      | none =>
        obtain rfl := List.mem_singleton.mp hd
        exact ⟨_, by rw [hplay]⟩
      | some result =>
        cases List.mem_cons.mp hd with
        | inl hhead =>
          rw [hhead]
          exact ⟨_, by rw [hplay]⟩
        | inr htail => exact ih htail

-- In whatever way the kernel and the other processes behave.
theorem requests_checked_iff {ω : Type} (w : World ω) (s : Process ω)
    (hstart : ∀ i < MAX_USR_RINGBUF.toNatClampNeg, (s.table i).existsFlag = 0)
    (requests : List Request) :
    (∀ before d after, history w s requests = before ++ d :: after →
        Checked (before.foldl track []) d) ↔
      ∀ d ∈ history w s requests, d.request.descriptor ≠ some MAX_USR_RINGBUF := by
  constructor
  · intro h d hd heq
    obtain ⟨before, after, hsplit⟩ := List.append_of_mem hd
    obtain ⟨s', hlog⟩ := log_of_mem_history hd
    have hmem : .read MAX_USR_RINGBUF.toNatClampNeg ∈ d.log := by
      rw [hlog]
      exact reads_behind heq s'
    have hlt := (h before d after hsplit).bounds _ (.inl hmem)
    omega
  · intro hne
    have hagrees : Agrees s.table [] := by
      refine ⟨fun i hi => ?_, fun rd hrd => by cases hrd⟩
      rw [hstart i hi]
      rfl
    exact hagrees.history requests hne

def calm : World Unit :=
  ⟨fun _ _ _ u => ((0, 0x3fffffc000), u), fun _ _ u => (0, u), fun _ _ _ u => u⟩

def processBehind (rb : UserRingBuf) : Process Unit :=
  ⟨fun i => if i = 10 then rb else ⟨0, 0, 0⟩, (), []⟩

theorem requests_checked_iff_reopened :
    Checked [] ⟨.startRead 0, .exited, [.read 0]⟩ := by
  have hhistory : history calm (processBehind ⟨0, 0, 0⟩)
      [.opens [97, 0] 0, .startRead 0, .close 0 [97, 0], .startRead 0] =
        [⟨.opens [97, 0] 0, .returned 0, [.call, .read 0, .write 0]⟩,
          ⟨.startRead 0, .window 0x3ffffdd000 0, [.read 0, .read 0, .book 0x3ffffdc000, .book 0x3ffffdc000]⟩,
          ⟨.close 0 [97, 0], .returned 0, [.read 0, .read 0, .call, .write 0]⟩] ++
          ⟨.startRead 0, .exited, [.read 0]⟩ :: [] := by
    rfl
  refine (requests_checked_iff calm (processBehind ⟨0, 0, 0⟩) ?_ _).mpr ?_ _ _ _ hhistory
  · intro i hi
    have hne : i ≠ 10 := Nat.ne_of_lt hi
    simp only [processBehind, if_neg hne]
  · rw [hhistory]
    decide

-- A descriptor that no call has returned: the check takes it, and the memory behind
-- the table says where the book page is.
theorem descriptor_behind_table :
    (history calm (processBehind ⟨0x5000, 0x4000, 1⟩) [.startRead MAX_USR_RINGBUF]).map
      (fun d => (d.result, d.log)) =
        [(.window 0x5000 0, [.read 10, .read 10, .book 0x4000, .book 0x4000])] ∧
    ¬Checked [] ⟨.startRead MAX_USR_RINGBUF, .window 0x5000 0,
      [.read 10, .read 10, .book 0x4000, .book 0x4000]⟩ := by
  refine ⟨by rfl, fun h => ?_⟩
  exact absurd (h.bounds 10 (by decide)) (by decide)

end Xv6Ringbuf.User.Library
