import Xv6Ringbuf.Grep.Match

namespace Xv6Ringbuf.Grep

def NEWLINE : UInt8 := 10

def BUFSIZE : Nat := 1024

def strchr (c : UInt8) : List UInt8 → Option Nat
  | [] => none
  | x :: s => if x = 0 then none else if x = c then some 0 else (strchr c s).map (· + 1)

theorem strchr_lt {c : UInt8} {s : List UInt8} {q : Nat} (h : strchr c s = some q) : q < s.length := by
  induction s generalizing q with
  | nil => cases h
  | cons x s ih =>
    rw [strchr] at h
    by_cases hzero : x = 0
    · rw [if_pos hzero] at h
      cases h
    · rw [if_neg hzero] at h
      by_cases hc : x = c
      · rw [if_pos hc] at h
        cases h
        exact Nat.succ_pos _
      · rw [if_neg hc] at h
        obtain ⟨i, hi, rfl⟩ := Option.map_eq_some_iff.mp h
        exact Nat.succ_lt_succ (ih hi)

def emit (line : List UInt8) : List UInt8 := line ++ [NEWLINE]

-- The inner loop from `p` on: what it writes, and what is left of the buffer.
def scanLines (pattern p : List UInt8) : List UInt8 × List UInt8 :=
  match _hq : strchr NEWLINE p with
  | none => ([], p)
  | some q =>
    let rest := scanLines pattern (p.drop (q + 1))
    (if matchRe pattern (p.take q) then emit (p.take q) ++ rest.1 else rest.1, rest.2)
termination_by p.length
decreasing_by
  rw [List.length_drop]
  have := strchr_lt _hq
  omega

-- A read of at most `room` bytes returns at least one byte of those left, if it can.
def readLen (want room left : Nat) : Nat := min (max 1 want) (min room left)

-- `want k` is how much the `k`-th read would like to return.
def grepLoop (pattern : List UInt8) (want : Nat → Nat) (k : Nat) (buf input : List UInt8) :
    List UInt8 :=
  if 0 < readLen (want k) (BUFSIZE - buf.length - 1) input.length then
    let n := readLen (want k) (BUFSIZE - buf.length - 1) input.length
    let scanned := scanLines pattern (buf ++ input.take n)
    scanned.1 ++ grepLoop pattern want (k + 1) scanned.2 (input.drop n)
  else []
termination_by input.length
decreasing_by
  rw [List.length_drop]
  have : readLen (want k) (BUFSIZE - buf.length - 1) input.length ≤ input.length :=
    (min_le_right _ _).trans (min_le_right _ _)
  omega

def grep (pattern : List UInt8) (want : Nat → Nat) (input : List UInt8) : List UInt8 :=
  grepLoop pattern want 0 [] input

-- The newline-terminated lines of a text, without their newlines.
def terminated (text : List UInt8) : List (List UInt8) := (text.splitOn NEWLINE).dropLast

def unterminated (text : List UInt8) : List UInt8 := (text.splitOn NEWLINE).getLastD []

def printed (pattern : List UInt8) (lines : List (List UInt8)) : List UInt8 :=
  (lines.filter fun line => matchRe pattern line).flatMap emit

section Splitting

variable {w s : List UInt8}

theorem splitOn_free (hw : NEWLINE ∉ w) : w.splitOn NEWLINE = [w] := by
  apply List.splitOnP_eq_singleton
  intro x hx
  exact beq_false_of_ne fun h => hw (h ▸ hx)

theorem splitOn_line (hw : NEWLINE ∉ w) (s : List UInt8) :
    (w ++ NEWLINE :: s).splitOn NEWLINE = w :: s.splitOn NEWLINE := by
  apply List.splitOnP_append_cons_of_forall_mem
  · intro x hx
    exact beq_false_of_ne fun h => hw (h ▸ hx)
  · exact beq_self_eq_true _

theorem terminated_free (hw : NEWLINE ∉ w) : terminated w = [] := by
  rw [terminated, splitOn_free hw, List.dropLast_singleton]

theorem unterminated_free (hw : NEWLINE ∉ w) : unterminated w = w := by
  rw [unterminated, splitOn_free hw]
  rfl

theorem terminated_line (hw : NEWLINE ∉ w) (s : List UInt8) :
    terminated (w ++ NEWLINE :: s) = w :: terminated s := by
  have hne : s.splitOn NEWLINE ≠ [] := List.splitOnP_ne_nil _ _
  rw [terminated, splitOn_line hw, List.dropLast_cons_of_ne_nil hne, terminated]

theorem unterminated_line (hw : NEWLINE ∉ w) (s : List UInt8) :
    unterminated (w ++ NEWLINE :: s) = unterminated s := by
  have hne : s.splitOn NEWLINE ≠ [] := List.splitOnP_ne_nil _ _
  obtain ⟨line, lines, hlines⟩ := List.exists_cons_of_ne_nil hne
  rw [unterminated, splitOn_line hw, unterminated, hlines]
  rfl

theorem newline_cases (text : List UInt8) :
    NEWLINE ∉ text ∨ ∃ w s, NEWLINE ∉ w ∧ text = w ++ NEWLINE :: s := by
  by_cases h : NEWLINE ∈ text
  · obtain ⟨w, s, rfl, hw⟩ := List.eq_append_cons_of_mem h
    exact .inr ⟨w, s, hw, rfl⟩
  · exact .inl h

@[elab_as_elim]
theorem lines_induction {motive : List UInt8 → Prop} (free : ∀ w, NEWLINE ∉ w → motive w)
    (line : ∀ w s, NEWLINE ∉ w → motive s → motive (w ++ NEWLINE :: s)) (text : List UInt8) :
    motive text := by
  induction hn : text.length using Nat.strong_induction_on generalizing text with
  | _ n ih =>
    rcases newline_cases text with hfree | ⟨w, s, hw, rfl⟩
    · exact free text hfree
    · refine line w s hw (ih s.length ?_ s rfl)
      rw [← hn, List.length_append, List.length_cons]
      omega

theorem terminated_append (text more : List UInt8) :
    terminated (text ++ more) = terminated text ++ terminated (unterminated text ++ more) := by
  induction text using lines_induction with
  | free w hfree => rw [terminated_free hfree, unterminated_free hfree, List.nil_append]
  | line w s hw ih =>
    rw [List.append_assoc, List.cons_append, terminated_line hw, terminated_line hw,
      unterminated_line hw, ih, List.cons_append]

theorem unterminated_spec (text : List UInt8) :
    NEWLINE ∉ unterminated text ∧ unterminated text <:+ text := by
  induction text using lines_induction with
  | free w hfree =>
    rw [unterminated_free hfree]
    exact ⟨hfree, List.suffix_refl _⟩
  | line w s hw ih =>
    rw [unterminated_line hw]
    exact ⟨ih.1, ih.2.trans ((List.suffix_cons _ _).trans (List.suffix_append _ _))⟩

theorem length_terminated_lt {text line : List UInt8} (h : line ∈ terminated text) :
    line.length < text.length := by
  induction text using lines_induction with
  | free w hfree =>
    rw [terminated_free hfree] at h
    cases h
  | line w s hw ih =>
    rw [terminated_line hw] at h
    rw [List.length_append, List.length_cons]
    rcases List.mem_cons.mp h with rfl | h
    · omega
    · have := ih h
      omega

theorem takeWhile_terminated_of_long (hw : NEWLINE ∉ w) (s : List UInt8) :
    (terminated (w ++ s)).takeWhile (fun line => line.length < w.length) = [] := by
  rcases newline_cases s with hfree | ⟨v, t, hv, rfl⟩
  · rw [terminated_free fun h => (List.mem_append.mp h).elim hw hfree, List.takeWhile_nil]
  · rw [← List.append_assoc, terminated_line fun h => (List.mem_append.mp h).elim hw hv]
    apply List.takeWhile_cons_of_neg
    simp

end Splitting

section Loop

theorem strchr_free {w : List UInt8} (hw : NEWLINE ∉ w) : strchr NEWLINE w = none := by
  induction w with
  | nil => rfl
  | cons x w ih =>
    obtain ⟨hx, hw⟩ := not_or.mp (mt List.mem_cons.mpr hw)
    rw [strchr, if_neg (Ne.symm hx), ih hw]
    exact ite_self _

theorem strchr_line {w : List UInt8} (hw : NEWLINE ∉ w) (hzero : 0 ∉ w) (s : List UInt8) :
    strchr NEWLINE (w ++ NEWLINE :: s) = some w.length := by
  induction w with
  | nil =>
    have hne : NEWLINE ≠ 0 := by decide
    rw [List.nil_append, strchr, if_neg hne, if_pos rfl]
    rfl
  | cons x w ih =>
    obtain ⟨hx, hw⟩ := not_or.mp (mt List.mem_cons.mpr hw)
    obtain ⟨hx', hzero⟩ := not_or.mp (mt List.mem_cons.mpr hzero)
    rw [List.cons_append, strchr, if_neg (Ne.symm hx'), if_neg (Ne.symm hx), ih hw hzero]
    rfl

theorem printed_cons (pattern line : List UInt8) (lines : List (List UInt8)) :
    printed pattern (line :: lines) =
      if matchRe pattern line then emit line ++ printed pattern lines else printed pattern lines := by
  unfold printed
  by_cases h : matchRe pattern line = true
  · rw [List.filter_cons_of_pos h, if_pos h, List.flatMap_cons]
  · rw [List.filter_cons_of_neg h, if_neg h]

theorem printed_append (pattern : List UInt8) (lines more : List (List UInt8)) :
    printed pattern (lines ++ more) = printed pattern lines ++ printed pattern more := by
  unfold printed
  rw [List.filter_append, List.flatMap_append]

theorem printed_eq_nil {pattern : List UInt8} {lines : List (List UInt8)} :
    printed pattern lines = [] ↔ ∀ line ∈ lines, matchRe pattern line = false := by
  rw [printed, List.flatMap_eq_nil_iff]
  constructor
  · intro h line hline
    by_contra hmatch
    have hnil := h line (List.mem_filter.mpr ⟨hline, by simpa using hmatch⟩)
    exact List.append_ne_nil_of_right_ne_nil _ (List.cons_ne_nil _ _) hnil
  · intro h line hline
    obtain ⟨hline, hmatch⟩ := List.mem_filter.mp hline
    rw [h line hline] at hmatch
    cases hmatch

theorem scanLines_eq (pattern : List UInt8) {p : List UInt8} (hzero : 0 ∉ p) :
    scanLines pattern p = (printed pattern (terminated p), unterminated p) := by
  induction p using lines_induction with
  | free w hfree =>
    rw [scanLines, terminated_free hfree, unterminated_free hfree]
    split
    · rfl
    · next q hq =>
        rw [strchr_free hfree] at hq
        cases hq
  | line w s hw ih =>
    obtain ⟨hzerow, hzeros⟩ := not_or.mp (mt List.mem_append.mpr hzero)
    rw [scanLines, terminated_line hw, unterminated_line hw, printed_cons]
    split
    · next hq =>
        rw [strchr_line hw hzerow] at hq
        cases hq
    · next q hq =>
        rw [strchr_line hw hzerow] at hq
        cases hq
        have hdrop : (w ++ NEWLINE :: s).drop (w.length + 1) = s := by
          rw [List.drop_append]
          simp
        rw [hdrop, List.take_left, ih fun h => hzeros (List.mem_cons_of_mem _ h)]

-- The rounds of the outer loop: the buffer holds the start of a line, and the output still
-- to come is that of the lines up to the first one that fills the buffer.
theorem grepLoop_eq (pattern : List UInt8) (want : Nat → Nat) (k : Nat) {buf input : List UInt8}
    (hfree : NEWLINE ∉ buf) (hlen : buf.length < BUFSIZE) (hzero : 0 ∉ buf ++ input) :
    grepLoop pattern want k buf input =
      printed pattern ((terminated (buf ++ input)).takeWhile fun line => line.length < BUFSIZE - 1) := by
  induction hn : input.length using Nat.strong_induction_on generalizing k buf input with
  | _ n ih =>
    subst hn
    rw [grepLoop]
    by_cases hread : 0 < readLen (want k) (BUFSIZE - buf.length - 1) input.length
    · rw [if_pos hread]
      generalize hlength : readLen (want k) (BUFSIZE - buf.length - 1) input.length = len at hread
      have hroom : len ≤ BUFSIZE - buf.length - 1 := by
        rw [← hlength]
        exact (min_le_right _ _).trans (min_le_left _ _)
      have hleft : len ≤ input.length := by
        rw [← hlength]
        exact (min_le_right _ _).trans (min_le_right _ _)
      have hinput : (buf ++ input.take len) ++ input.drop len = buf ++ input := by
        rw [List.append_assoc, List.take_append_drop]
      have hzerobuf : 0 ∉ buf ++ input.take len := fun h => hzero (by
        rw [← hinput]
        exact List.mem_append_left _ h)
      have hbuflen : (buf ++ input.take len).length ≤ BUFSIZE - 1 := by
        rw [List.length_append, List.length_take]
        omega
      obtain ⟨hfree', hsuffix⟩ := unterminated_spec (buf ++ input.take len)
      have hlines : ∀ line ∈ terminated (buf ++ input.take len),
          decide (line.length < BUFSIZE - 1) = true := by
        intro line hline
        have := length_terminated_lt hline
        rw [decide_eq_true_eq]
        omega
      have hlen' : (unterminated (buf ++ input.take len)).length < BUFSIZE := by
        have := hsuffix.length_le
        omega
      have hzero' : 0 ∉ unterminated (buf ++ input.take len) ++ input.drop len := fun h => hzero (by
        rw [← hinput]
        rcases List.mem_append.mp h with h | h
        · exact List.mem_append_left _ (hsuffix.subset h)
        · exact List.mem_append_right _ h)
      have hshorter : (input.drop len).length < input.length := by
        rw [List.length_drop]
        omega
      simp only [scanLines_eq pattern hzerobuf]
      rw [ih _ hshorter (k + 1) hfree' hlen' hzero' rfl, ← hinput,
        terminated_append (buf ++ input.take len), List.takeWhile_append_of_pos hlines, printed_append]
    · -- nothing read: the input is used up, or the buffer is full
      rw [if_neg hread]
      rw [readLen, Nat.not_lt, Nat.le_zero, Nat.min_eq_zero_iff, Nat.min_eq_zero_iff] at hread
      rcases hread with hone | hfull | hdone
      · omega
      · have hbuf : buf.length = BUFSIZE - 1 := by omega
        rw [← hbuf, takeWhile_terminated_of_long hfree]
        rfl
      · rw [List.eq_nil_of_length_eq_zero hdone, List.append_nil, terminated_free hfree]
        rfl

end Loop

theorem grep_eq (pattern : List UInt8) (want : Nat → Nat) {input : List UInt8} (hzero : 0 ∉ input) :
    grep pattern want input =
      printed pattern ((terminated input).takeWhile fun line => line.length < BUFSIZE - 1) :=
  grepLoop_eq pattern want 0 List.not_mem_nil (by decide) hzero

-- The output is that of all the lines exactly if no line matches from the first one on that
-- does not fit the buffer.
theorem grep_prints_matching_lines_iff (pattern : List UInt8) (want : Nat → Nat) (input : List UInt8)
    (hzero : 0 ∉ input) :
    grep pattern want input = printed pattern (terminated input) ↔
      ∀ line ∈ (terminated input).dropWhile fun line => line.length < BUFSIZE - 1,
        matchRe pattern line = false := by
  have hsplit : printed pattern (terminated input) = grep pattern want input ++
      printed pattern ((terminated input).dropWhile fun line => line.length < BUFSIZE - 1) := by
    rw [grep_eq pattern want hzero, ← printed_append, List.takeWhile_append_dropWhile]
  rw [hsplit, List.self_eq_append_right, printed_eq_nil]

theorem grep_prints_matching_lines_two :
    grep [97] (fun _ => 2) [97, 10, 98, 10] = printed [97] (terminated [97, 10, 98, 10]) := by
  apply (grep_prints_matching_lines_iff [97] (fun _ => 2) [97, 10, 98, 10] (by decide)).mpr
  rw [show terminated [97, 10, 98, 10] = [[97], [98]] from rfl]
  intro line hline
  cases hline

def longLine : List UInt8 := List.replicate 1023 97

theorem matchRe_longLine : matchRe [97] longLine = true := by
  have hhere : ∀ text, matchhere [97] (97 :: text) = true := fun text => by
    have hone : (97 :: text).headD 0 ≠ 0 := by
      rw [List.headD_cons]
      decide
    rw [matchhere_cons (by decide), if_neg (by decide), if_neg (by decide),
      if_pos ⟨hone, .inr rfl⟩, matchhere, if_pos List.headD_nil]
  rw [longLine, List.replicate_succ, matchRe, if_neg (by decide), matchFrom, hhere, Bool.true_or]

-- The buffer has 1024 bytes and a read leaves one of them for the final 0. With 1023
-- bytes and no newline the next read asks for none, and `grep` takes that for the end.
theorem grep_stops_at_long_line :
    0 ∉ longLine ++ [NEWLINE] ∧ grep [97] (fun _ => 512) (longLine ++ [NEWLINE]) = [] ∧
      printed [97] (terminated (longLine ++ [NEWLINE])) = longLine ++ [NEWLINE] := by
  have hnewline : NEWLINE ∉ longLine := fun h => absurd (List.eq_of_mem_replicate h) (by decide)
  have hzero : 0 ∉ longLine ++ [NEWLINE] := by
    intro h
    rcases List.mem_append.mp h with h | h
    · exact absurd (List.eq_of_mem_replicate h) (by decide)
    · exact absurd h (by decide)
  have hlines : terminated (longLine ++ [NEWLINE]) = [longLine] := by
    rw [terminated_line hnewline, terminated_free List.not_mem_nil]
  have hlength : longLine.length = 1023 := List.length_replicate
  refine ⟨hzero, ?_, ?_⟩
  · rw [grep_eq _ _ hzero, hlines, List.takeWhile_cons_of_neg]
    · rfl
    · rw [hlength]
      decide
  · rw [hlines, printed_cons, if_pos matchRe_longLine]
    exact List.append_nil _

end Xv6Ringbuf.Grep
