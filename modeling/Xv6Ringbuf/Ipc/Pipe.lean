import Xv6Ringbuf.Circular

namespace Xv6Ringbuf.Ipc

open Circular

def PIPESIZE : Nat := 512

instance : NeZero PIPESIZE := ⟨by decide⟩

-- `struct pipe`, without its lock.
structure Pipe where
  data : Fin PIPESIZE → UInt8
  nread : BitVec 32
  nwrite : BitVec 32
  readopen : Bool
  writeopen : Bool

-- A call returns, or it sleeps and goes on from here when it has the lock again.
inductive Outcome where
  | returned (r : Int)
  | asleep (i : Nat)
deriving DecidableEq

namespace Pipe

def full (p : Pipe) : Bool := p.nwrite = p.nread + BitVec.ofNat 32 PIPESIZE

def empty (p : Pipe) : Bool := p.nread = p.nwrite

def push (p : Pipe) (ch : UInt8) : Pipe :=
  { p with data := put p.data p.nwrite.toNat ch, nwrite := p.nwrite + 1 }

def pop (p : Pipe) : UInt8 × Pipe := (cell p.data p.nread.toNat, { p with nread := p.nread + 1 })

-- The loop of `pipewrite` from byte `i` on, with `left` more bytes to write. `copyin`
-- is what the copy of a byte gives, `killed` what `killed` says before it. Besides
-- the outcome it gives the bytes that went into the pipe.
def writeFrom (copyin : Nat → Option UInt8) (killed : Nat → Bool) :
    Nat → Nat → Pipe → Outcome × List UInt8 × Pipe
  | 0, i, p => (.returned i, [], p)
  | left + 1, i, p =>
    if !p.readopen || killed i then (.returned (-1), [], p)
    else if p.full then (.asleep i, [], p)
    else
      match copyin i with
      | none => (.returned i, [], p)
      | some ch =>
        let (outcome, bytes, p') := writeFrom copyin killed left (i + 1) (p.push ch)
        (outcome, ch :: bytes, p')

-- What `pipewrite` does with the lock, from its start or after a sleep.
def pipewrite (copyin : Nat → Option UInt8) (killed : Nat → Bool) (n i : Nat) (p : Pipe) :
    Outcome × List UInt8 × Pipe :=
  writeFrom copyin killed (n - i) i p

-- The copy loop of `piperead` from byte `i` on. `copyout` says whether the copy of a
-- byte succeeds. A byte is taken out before it is copied. Besides the number of
-- rounds it gives the bytes that were copied.
def readFrom (copyout : Nat → Bool) : Nat → Nat → Pipe → List UInt8 × Pipe
  | 0, _, p => ([], p)
  | left + 1, i, p =>
    if p.empty then ([], p)
    else
      let (ch, p) := p.pop
      if copyout i then
        let (bytes, p') := readFrom copyout left (i + 1) p
        (ch :: bytes, p')
      else ([], p)

def piperead (copyout : Nat → Bool) (killed : Bool) (n : Nat) (p : Pipe) :
    Outcome × List UInt8 × Pipe :=
  if p.empty && p.writeopen then
    if killed then (.returned (-1), [], p) else (.asleep 0, [], p)
  else
    let (bytes, p') := readFrom copyout n 0 p
    (.returned bytes.length, bytes, p')

-- `pipeclose`, without the page that goes with the last end.
def close (writable : Bool) (p : Pipe) : Pipe :=
  if writable then { p with writeopen := false } else { p with readopen := false }

-- A pipe as `pipealloc` leaves it. Its page may hold anything.
def alloc (data : Fin PIPESIZE → UInt8) : Pipe := ⟨data, 0, 0, true, true⟩

-- The number of bytes in the pipe, and the bytes in their order.
def stored (p : Pipe) : Nat := ahead p.nread p.nwrite

def contents (p : Pipe) : List UInt8 := span p.data p.nread.toNat p.stored

def Bounded (p : Pipe) : Prop := p.stored ≤ PIPESIZE

instance (p : Pipe) : Decidable p.Bounded := inferInstanceAs (Decidable (_ ≤ _))

theorem bounded_alloc (data : Fin PIPESIZE → UInt8) : (alloc data).Bounded := by
  rw [Bounded, stored, alloc, ahead_self]
  exact Nat.zero_le _

theorem length_contents (p : Pipe) : p.contents.length = p.stored := length_span _ _ _

theorem empty_iff (p : Pipe) : p.empty = true ↔ p.stored = 0 := by
  rw [empty, decide_eq_true_iff, stored, ahead_eq_zero]

theorem contents_eq_nil_iff (p : Pipe) : p.contents = [] ↔ p.empty = true := by
  rw [empty_iff, ← length_contents, List.length_eq_zero_iff]

theorem full_iff (p : Pipe) : p.full = true ↔ p.stored = PIPESIZE := by
  rw [full, decide_eq_true_iff, stored, ahead]
  constructor
  · intro h
    rw [h, show p.nread + BitVec.ofNat 32 PIPESIZE - p.nread = BitVec.ofNat 32 PIPESIZE by abel]
    decide
  · intro h
    have hsub : p.nwrite - p.nread = BitVec.ofNat 32 PIPESIZE := by
      apply BitVec.eq_of_toNat_eq
      rw [h]
      decide
    rw [← hsub]
    abel

theorem pipesize_dvd : PIPESIZE ∣ 2 ^ 32 := by decide

section Push

variable {p : Pipe} (hbounded : p.Bounded) (hroom : p.full = false)

include hbounded hroom

theorem stored_lt : p.stored < PIPESIZE := by
  have hne : p.stored ≠ PIPESIZE := by
    intro heq
    rw [full_iff p |>.mpr heq] at hroom
    cases hroom
  exact lt_of_le_of_ne hbounded hne

theorem stored_push (ch : UInt8) : (p.push ch).stored = p.stored + 1 := by
  have hlt := stored_lt hbounded hroom
  have hsize : PIPESIZE = 512 := rfl
  change ahead p.nread (p.nwrite + 1) = ahead p.nread p.nwrite + 1
  apply ahead_add_one
  rw [stored] at hlt
  omega

theorem bounded_push (ch : UInt8) : (p.push ch).Bounded := by
  rw [Bounded, stored_push hbounded hroom]
  exact stored_lt hbounded hroom

theorem contents_push (ch : UInt8) : (p.push ch).contents = p.contents ++ [ch] := by
  have hcell : p.nwrite.toNat % PIPESIZE = (p.nread.toNat + p.stored) % PIPESIZE :=
    (add_ahead_mod pipesize_dvd p.nread p.nwrite).symm
  rw [contents, stored_push hbounded hroom]
  change span (put p.data p.nwrite.toNat ch) p.nread.toNat (p.stored + 1) = _
  rw [put_congr p.data ch hcell, span_put_last p.data ch (stored_lt hbounded hroom)]
  rfl

end Push

section Pop

variable {p : Pipe} (hsome : p.empty = false)

include hsome

theorem stored_pop : (p.pop.2).stored + 1 = p.stored := by
  have hne : p.nread ≠ p.nwrite := by
    intro heq
    rw [empty, decide_eq_true heq] at hsome
    cases hsome
  exact ahead_one_add hne

theorem contents_pop : p.contents = p.pop.1 :: (p.pop.2).contents := by
  have hstart : (p.nread + 1).toNat % PIPESIZE = (p.nread.toNat + 1) % PIPESIZE :=
    add_one_mod pipesize_dvd p.nread
  rw [contents, ← stored_pop hsome, span]
  change cell p.data p.nread.toNat :: span p.data (p.nread.toNat + 1) (p.pop.2).stored =
    cell p.data p.nread.toNat :: span p.data (p.nread + 1).toNat (p.pop.2).stored
  rw [span_congr p.data _ hstart]

end Pop

variable {p p' : Pipe} {bytes : List UInt8} {copyout : Nat → Bool} {left i : Nat}

theorem writeFrom_spec (copyin : Nat → Option UInt8) (killed : Nat → Bool) (left i : Nat)
    {outcome : Outcome} (hbounded : p.Bounded)
    (h : writeFrom copyin killed left i p = (outcome, bytes, p')) :
    p'.Bounded ∧ p'.contents = p.contents ++ bytes ∧
      (∀ j < bytes.length, copyin (i + j) = bytes[j]?) ∧ bytes.length ≤ left ∧
      (outcome = .returned (-1) ∨ outcome = .returned ((i + bytes.length : Nat) : Int) ∨
        outcome = .asleep (i + bytes.length)) := by
  induction left generalizing i p outcome bytes p' with
  | zero =>
    cases h
    exact ⟨hbounded, by simp, by simp, Nat.le_refl 0, .inr (.inl rfl)⟩
  | succ left ih =>
    rw [writeFrom] at h
    by_cases hstop : (!p.readopen || killed i) = true
    · rw [if_pos hstop] at h
      cases h
      exact ⟨hbounded, by simp, by simp, Nat.zero_le _, .inl rfl⟩
    · rw [if_neg hstop] at h
      by_cases hfull : p.full = true
      · rw [if_pos hfull] at h
        cases h
        exact ⟨hbounded, by simp, by simp, Nat.zero_le _, .inr (.inr rfl)⟩
      · rw [if_neg hfull] at h
        cases hcopy : copyin i with
        | none =>
          simp only [hcopy] at h
          cases h
          exact ⟨hbounded, by simp, by simp, Nat.zero_le _, .inr (.inl rfl)⟩
        | some ch =>
          have hroom : p.full = false := Bool.eq_false_iff.mpr hfull
          simp only [hcopy] at h
          generalize hrest : writeFrom copyin killed left (i + 1) (p.push ch) = rest at h
          obtain ⟨outcome', bytes', p''⟩ := rest
          change (outcome', ch :: bytes', p'') = (outcome, bytes, p') at h
          cases h
          obtain ⟨hbounded', hcontents, hbytes, hlen, houtcome⟩ :=
            ih (i + 1) (bounded_push hbounded hroom ch) hrest
          have hcount : i + (ch :: bytes').length = i + 1 + bytes'.length := by
            rw [List.length_cons]
            omega
          refine ⟨hbounded', ?_, ?_, ?_, ?_⟩
          · rw [hcontents, contents_push hbounded hroom, List.append_assoc, List.singleton_append]
          · intro j hj
            cases j with
            | zero => rw [Nat.add_zero, hcopy, List.getElem?_cons_zero]
            | succ j =>
              rw [List.length_cons] at hj
              rw [List.getElem?_cons_succ, ← hbytes j (by omega),
                show i + (j + 1) = i + 1 + j by omega]
          · rw [List.length_cons]
            omega
          · rw [hcount]
            exact houtcome

theorem readFrom_ok (hcopy : ∀ j < min left p.stored, copyout (i + j) = true)
    (h : readFrom copyout left i p = (bytes, p')) :
    p.contents = bytes ++ p'.contents ∧ bytes.length = min left p.stored := by
  induction left generalizing i p bytes p' with
  | zero =>
    cases h
    exact ⟨rfl, by simp⟩
  | succ left ih =>
    rw [readFrom] at h
    by_cases hempty : p.empty = true
    · rw [if_pos hempty] at h
      cases h
      have hzero := (empty_iff p).mp hempty
      exact ⟨rfl, by simp [hzero]⟩
    · rw [if_neg hempty] at h
      have hsome : p.empty = false := Bool.eq_false_iff.mpr hempty
      have hstored := stored_pop hsome
      have hi : copyout i = true := hcopy 0 (by omega)
      simp only [hi, if_true] at h
      generalize hrest : readFrom copyout left (i + 1) p.pop.2 = rest at h
      obtain ⟨bytes', p''⟩ := rest
      change (p.pop.1 :: bytes', p'') = (bytes, p') at h
      cases h
      have hcopy' : ∀ j < min left (p.pop.2).stored, copyout (i + 1 + j) = true := by
        intro j hj
        rw [Nat.add_assoc, Nat.add_comm 1 j]
        exact hcopy (j + 1) (by omega)
      obtain ⟨hcontents, hlen⟩ := ih hcopy' hrest
      refine ⟨?_, ?_⟩
      · rw [contents_pop hsome, hcontents, List.cons_append]
      · rw [List.length_cons, hlen]
        omega

-- If the copy of byte `k` fails, `k` bytes are returned, but the next one has left
-- the pipe as well.
theorem readFrom_fails {k : Nat} (hk : k < min left p.stored) (hcopy : ∀ j < k, copyout (i + j) = true)
    (hbad : copyout (i + k) = false) (h : readFrom copyout left i p = (bytes, p')) :
    bytes.length = k ∧ p'.stored + (k + 1) = p.stored := by
  induction k generalizing left i p bytes p' with
  | zero =>
    obtain ⟨left, rfl⟩ : ∃ n, left = n + 1 := ⟨left - 1, by omega⟩
    have hempty : ¬p.empty = true := by
      rw [empty_iff]
      omega
    rw [Nat.add_zero] at hbad
    rw [readFrom, if_neg hempty] at h
    simp only [hbad, Bool.false_eq_true, if_false] at h
    cases h
    exact ⟨rfl, stored_pop (Bool.eq_false_iff.mpr hempty)⟩
  | succ k ih =>
    obtain ⟨left, rfl⟩ : ∃ n, left = n + 1 := ⟨left - 1, by omega⟩
    have hempty : ¬p.empty = true := by
      rw [empty_iff]
      omega
    have hstored := stored_pop (Bool.eq_false_iff.mpr hempty)
    have hi : copyout i = true := hcopy 0 (by omega)
    rw [readFrom, if_neg hempty] at h
    simp only [hi, if_true] at h
    generalize hrest : readFrom copyout left (i + 1) p.pop.2 = rest at h
    obtain ⟨bytes', p''⟩ := rest
    change (p.pop.1 :: bytes', p'') = (bytes, p') at h
    cases h
    obtain ⟨hlen, hleft⟩ := ih (by omega)
      (fun j hj => by rw [Nat.add_assoc, Nat.add_comm 1 j]; exact hcopy (j + 1) (by omega))
      (by rw [Nat.add_assoc, Nat.add_comm 1 k]; exact hbad) hrest
    refine ⟨?_, by omega⟩
    rw [List.length_cons, hlen]

end Pipe

end Xv6Ringbuf.Ipc
