import Xv6Ringbuf.Fs.LogLemmas

namespace Xv6Ringbuf.Fs

open Interleave Crash Function

-- The state in which `commit` finds the system: the header in memory lists the
-- blocks with pending contents, and the log on the disk is empty.
structure Transaction (log : Log) (t : Logical) : Prop where
  count : 0 ≤ log.lh.n.toInt
  bound : log.lh.n.toInt ≤ LOGSIZE
  room : log.lh.n.toInt ≤ log.size.toInt - 1
  distinct : ∀ i j : Fin LOGSIZE, (i : Int) < log.lh.n.toInt → (j : Int) < log.lh.n.toInt →
    log.lh.block i = log.lh.block j → i = j
  home : ∀ i : Fin LOGSIZE, (i : Int) < log.lh.n.toInt → log.lh.block i ∉ log.area
  pending : ∀ b, (t.pending b).isSome ↔
    ∃ i : Fin LOGSIZE, (i : Int) < log.lh.n.toInt ∧ log.lh.block i = b
  held : ∀ b, t.held b = none
  written : t.written = []
  empty : headCount (t.disk log.start) = 0

variable {log : Log} {t : Logical} {b : Blockno} {i : Fin LOGSIZE}

theorem Transaction.size_pos (h : Transaction log t) :
    0 < log.size.toInt := by
  have hcount := h.count
  have hroom := h.room
  omega

theorem Transaction.pending_area (h : Transaction log t) :
    ∀ b ∈ log.area, t.pending b = none := by
  intro b hb
  cases hpending : t.pending b with
  | none => rfl
  | some data =>
    obtain ⟨i, hi, rfl⟩ := (h.pending b).mp (by simp [hpending])
    exact absurd hb (h.home i hi)

theorem Transaction.contents_of_unlisted (h : Transaction log t)
    (hb : ∀ i : Fin LOGSIZE, (i : Int) < log.lh.n.toInt → log.lh.block i ≠ b) :
    t.contents b = t.disk b := by
  cases hpending : t.pending b with
  | none => simp [Logical.contents, hpending]
  | some data =>
    obtain ⟨i, hi, heq⟩ := (h.pending b).mp (by simp [hpending])
    exact absurd heq (hb i hi)

theorem entryIndex_spec (lh : Logheader) (b : Blockno) (rounds i : Nat)
    (h : i + rounds ≤ LOGSIZE) :
    entryIndex lh b rounds i = i + rounds ∧
        (∀ j : Fin LOGSIZE, i ≤ j → j < i + rounds → lh.block j ≠ b) ∨
      ∃ j : Fin LOGSIZE, j < i + rounds ∧ entryIndex lh b rounds i = j ∧ lh.block j = b := by
  induction rounds generalizing i with
  | zero => exact .inl ⟨rfl, fun j hij hj => by omega⟩
  | succ rounds ih =>
    have hi : i < LOGSIZE := by omega
    rw [entryIndex, dif_pos hi]
    by_cases hblock : lh.block ⟨i, hi⟩ = b
    · rw [if_pos hblock]
      exact .inr ⟨⟨i, hi⟩, by simp only; omega, rfl, hblock⟩
    · rw [if_neg hblock]
      rcases ih (i + 1) (by omega) with ⟨hindex, hother⟩ | ⟨j, hj, hindex, hblock'⟩
      · refine .inl ⟨by omega, ?_⟩
        intro j hij hj heq
        by_cases hji : (j : Nat) = i
        · exact hblock (by rw [← heq, show j = ⟨i, hi⟩ from Fin.ext hji])
        · exact hother j (by omega) (by omega) heq
      · exact .inr ⟨j, by omega, hindex, hblock'⟩

def Logical.put (t : Logical) (b : Blockno) (data : Block) : Logical :=
  { t with pending := update t.pending b (some data) }

theorem Transaction.absorb (h : Transaction log t) (hi : (i : Int) < log.lh.n.toInt) (data : Block) :
    Transaction log (t.put (log.lh.block i) data) := by
  refine ⟨h.count, h.bound, h.room, h.distinct, h.home, ?_, h.held, h.written, h.empty⟩
  intro b
  by_cases hb : b = log.lh.block i
  · simp only [Logical.put, hb, update_self, Option.isSome_some, true_iff]
    exact ⟨i, hi, rfl⟩
  · simp only [Logical.put, update_of_ne hb]
    exact h.pending b

def Logheader.append (lh : Logheader) (i : Fin LOGSIZE) (b : Blockno) : Logheader :=
  ⟨lh.n + 1, update lh.block i b⟩

theorem Transaction.append (h : Transaction log t) (hi : (i : Int) = log.lh.n.toInt)
    (hroom : log.lh.n.toInt < log.size.toInt - 1) (hb : b ∉ log.area)
    (hnew : ∀ j : Fin LOGSIZE, (j : Int) < log.lh.n.toInt → log.lh.block j ≠ b) (data : Block) :
    Transaction { log with lh := log.lh.append i b } (t.put b data) := by
  have hcount := h.count
  have hlogsize : LOGSIZE = 30 := rfl
  have hn : (log.lh.n + 1).toInt = log.lh.n.toInt + 1 := by
    rw [Int32.toInt_add]
    change (log.lh.n.toInt + 1).bmod (2 ^ 32) = _
    apply Int.bmod_eq_of_le <;> omega
  have hblock : ∀ j : Fin LOGSIZE, (j : Int) < (log.lh.append i b).n.toInt →
      j = i ∧ (log.lh.append i b).block j = b ∨
        (j : Int) < log.lh.n.toInt ∧ (log.lh.append i b).block j = log.lh.block j := by
    intro j hj
    simp only [Logheader.append, hn] at hj ⊢
    by_cases hji : j = i
    · exact .inl ⟨hji, by rw [hji, update_self]⟩
    · refine .inr ⟨?_, update_of_ne hji _ _⟩
      have hval : (j : Nat) ≠ i := fun heq => hji (Fin.ext heq)
      omega
  refine ⟨?_, ?_, ?_, ?_, ?_, ?_, h.held, h.written, h.empty⟩
  · simp only [Logheader.append, hn]
    omega
  · simp only [Logheader.append, hn]
    omega
  · simp only [Logheader.append, hn]
    omega
  · intro j k hj hk heq
    rcases hblock j hj with ⟨hji, hjb⟩ | ⟨hj, hjb⟩
    · rcases hblock k hk with ⟨hki, _⟩ | ⟨hk, hkb⟩
      · rw [hji, hki]
      · exact absurd (hkb.symm.trans (heq.symm.trans hjb)) (hnew k hk)
    · rcases hblock k hk with ⟨_, hkb⟩ | ⟨hk, hkb⟩
      · exact absurd (hjb.symm.trans (heq.trans hkb)) (hnew j hj)
      · exact h.distinct j k hj hk (hjb.symm.trans (heq.trans hkb))
  · intro j hj
    rcases hblock j hj with ⟨_, hjb⟩ | ⟨hj, hjb⟩
    · rw [hjb]
      exact hb
    · rw [hjb]
      exact h.home j hj
  · intro c
    by_cases hc : c = b
    · simp only [Logical.put, hc, update_self, Option.isSome_some, true_iff]
      refine ⟨i, ?_, update_self ..⟩
      simp only [Logheader.append, hn]
      omega
    · simp only [Logical.put, update_of_ne hc, h.pending c]
      constructor
      · rintro ⟨j, hj, heq⟩
        have hji : j ≠ i := by
          rintro rfl
          omega
        refine ⟨j, ?_, ?_⟩
        · simp only [Logheader.append, hn]
          omega
        · simp only [Logheader.append, update_of_ne hji, heq]
      · rintro ⟨j, hj, heq⟩
        rcases hblock j hj with ⟨_, hjb⟩ | ⟨hj, hjb⟩
        · exact absurd (heq.symm.trans hjb) hc
        · exact ⟨j, hj, hjb.symm.trans heq⟩

theorem logWrite_safe (h : Transaction log t) (hb : b ∉ log.area) (hbound : log.lh.n.toInt < LOGSIZE)
    (hroom : log.lh.n.toInt < log.size.toInt - 1) (hop : 1 ≤ log.outstanding) (data : Block) :
    LSafe (fun t' => t'.disk = t.disk)
      (fun log' t' => Transaction log' (t.put b data) ∧ ∃ pending,
        t' = ⟨t.disk, pending, update t.held b (some data), t.written⟩ ∧
        (pending b).isSome ∧ ∀ c, c ≠ b → pending c = t.pending c)
      (logWrite log b) ⟨t.disk, t.pending, update t.held b (some data), t.written⟩ := by
  have hcount := h.count
  have hlogsize : LOGSIZE = 30 := rfl
  have hrounds : (log.lh.rounds : Int) = log.lh.n.toInt := by
    unfold Logheader.rounds
    omega
  have hsize : (log.size - 1).toInt = log.size.toInt - 1 := by
    have hlt := log.size.toInt_lt
    rw [Int32.toInt_sub]
    change (log.size.toInt - 1).bmod (2 ^ 32) = _
    apply Int.bmod_eq_of_le <;> omega
  have hfull : ¬((LOGSIZE : Int) ≤ log.lh.n.toInt ∨ log.size - 1 ≤ log.lh.n) := by
    rw [Int32.le_iff_toInt_le, hsize]
    omega
  unfold logWrite
  rw [if_neg hfull, if_neg (Int32.not_lt.mpr hop)]
  rcases entryIndex_spec log.lh b log.lh.rounds 0 (by omega) with
    ⟨hindex, hnew⟩ | ⟨j, hj, hindex, hblock⟩
  · have hlast : log.lh.rounds < LOGSIZE := by omega
    have hother : ∀ j : Fin LOGSIZE, (j : Int) < log.lh.n.toInt → log.lh.block j ≠ b :=
      fun j hj => hnew j (by omega) (by omega)
    have hpending : t.pending b = none := by
      cases hp : t.pending b with
      | none => rfl
      | some old =>
        obtain ⟨j, hj, heq⟩ := (h.pending b).mp (by simp [hp])
        exact absurd heq (hother j hj)
    simp only [hindex, Nat.zero_add, dif_pos hlast, if_true]
    refine bpin_safe ?_ (update_self ..) hpending ⟨?_, ?_, _, rfl, ?_, ?_⟩
    · rfl
    · rfl
    · exact h.append hrounds hroom hb hother data
    · simp
    · exact fun c hc => update_of_ne hc _ _
  · have hjn : (j : Int) < log.lh.n.toInt := by omega
    have hsame : update log.lh.block j b = log.lh.block := by
      rw [← hblock, update_eq_self]
    simp only [hindex, dif_pos j.2, if_neg (show ¬(j : Nat) = log.lh.rounds by omega), hsame]
    refine ⟨rfl, ?_, t.pending, rfl, ?_, fun _ _ => rfl⟩
    · rw [← hblock]
      exact h.absorb hjn data
    · exact (h.pending b).mpr ⟨j, hjn, hblock⟩

end Xv6Ringbuf.Fs
