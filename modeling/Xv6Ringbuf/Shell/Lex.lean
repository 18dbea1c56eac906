import Xv6Ringbuf.Shell.Simulate

namespace Xv6Ringbuf.Shell

def isWhite (c : UInt8) : Bool := whitespace.contains c

def isWord (c : UInt8) : Bool := !whitespace.contains c && !symbols.contains c

section Symbols

variable {c : UInt8}

theorem byte_of_symOf {s : Sym} (h : symOf c = some s) : s.byte = c := by
  have hfound := List.find?_some h
  exact of_decide_eq_true hfound

theorem symOf_byte (s : Sym) : symOf s.byte = some s := by cases s <;> rfl

theorem symOf_eq_none : symOf c = none ↔ ∀ s : Sym, s.byte ≠ c := by
  constructor
  · intro h s hs
    rw [← hs, symOf_byte] at h
    cases h
  · intro h
    cases hc : symOf c with
    | none => rfl
    | some s => exact absurd (byte_of_symOf hc) (h s)

theorem mem_symbols : symbols.contains c = true ↔ ∃ s : Sym, s.byte = c := by
  constructor
  · intro h
    have hmem := List.contains_iff_mem.mp h
    simp only [symbols, List.mem_cons, List.not_mem_nil, or_false] at hmem
    rcases hmem with rfl | rfl | rfl | rfl | rfl | rfl | rfl
    · exact ⟨.less, rfl⟩
    · exact ⟨.bar, rfl⟩
    · exact ⟨.greater, rfl⟩
    · exact ⟨.amp, rfl⟩
    · exact ⟨.semi, rfl⟩
    · exact ⟨.lparen, rfl⟩
    · exact ⟨.rparen, rfl⟩
  · rintro ⟨s, rfl⟩
    cases s <;> rfl

theorem isWord_iff : isWord c = true ↔ isWhite c = false ∧ symOf c = none := by
  rw [isWord, Bool.and_eq_true, Bool.not_eq_true', Bool.not_eq_true', symOf_eq_none, isWhite]
  refine and_congr_right fun _ => ?_
  rw [← Bool.not_eq_true, mem_symbols, not_exists]

end Symbols

section Scan

theorem drop_takeWhile_length {α : Type} (p : α → Bool) (l : List α) :
    l.drop (l.takeWhile p).length = l.dropWhile p := by
  have happend : l.takeWhile p ++ l.dropWhile p = l := List.takeWhile_append_dropWhile
  calc l.drop (l.takeWhile p).length
      = (l.takeWhile p ++ l.dropWhile p).drop (l.takeWhile p).length := by rw [happend]
    _ = l.dropWhile p := List.drop_left

theorem scan_eq (p : UInt8 → Bool) (text : Text) (fuel s : Nat) (hfuel : fuel = text.length - s) :
    scan p text fuel s = s + ((text.drop s).takeWhile p).length := by
  induction fuel generalizing s with
  | zero =>
    rw [scan, List.drop_of_length_le (by omega), List.takeWhile_nil, List.length_nil, Nat.add_zero]
  | succ fuel ih =>
    have hs : s < text.length := by omega
    have hchar : charAt text s = text[s] := by
      rw [charAt, List.getD_eq_getElem?_getD, List.getElem?_eq_getElem hs, Option.getD_some]
    rw [scan, List.drop_eq_getElem_cons hs, hchar]
    by_cases hp : p text[s] = true
    · rw [if_pos ⟨hs, hp⟩, ih (s + 1) (by omega), List.takeWhile_cons_of_pos hp, List.length_cons]
      omega
    · rw [if_neg (fun h => hp h.2), List.takeWhile_cons_of_neg hp, List.length_nil, Nat.add_zero]

theorem skipWhite_eq (line : Text) (s : Nat) :
    skipWhite line s = s + ((line.drop s).takeWhile isWhite).length := scan_eq isWhite line _ s rfl

theorem skipWord_eq (line : Text) (s : Nat) :
    skipWord line s = s + ((line.drop s).takeWhile isWord).length := scan_eq isWord line _ s rfl

theorem drop_skipWhite (line : Text) (s : Nat) :
    line.drop (skipWhite line s) = (line.drop s).dropWhile isWhite := by
  rw [skipWhite_eq, ← List.drop_drop, drop_takeWhile_length]

theorem drop_skipWord (line : Text) (s : Nat) :
    line.drop (skipWord line s) = (line.drop s).dropWhile isWord := by
  rw [skipWord_eq, ← List.drop_drop, drop_takeWhile_length]

theorem scanned_le {line : Text} {s : Nat} (p : UInt8 → Bool) (hs : s ≤ line.length) :
    s + ((line.drop s).takeWhile p).length ≤ line.length := by
  have hle := (List.takeWhile_prefix p (l := line.drop s)).length_le
  rw [List.length_drop] at hle
  omega

end Scan

section Tokens

variable {c : UInt8}

theorem lex_white (hc : isWhite c = true) (word l : Text) :
    lex word (c :: l) = flush word ++ lex [] l := by
  rw [lex.eq_def]
  exact if_pos hc

theorem lex_sym {s : Sym} (hc : isWhite c = false) (hs : symOf c = some s) (hne : s ≠ .greater)
    (word l : Text) :
    lex word (c :: l) = flush word ++ .sym s :: lex [] l := by
  have hwhite : ¬whitespace.contains c = true := by
    rw [← isWhite, hc]
    exact Bool.false_ne_true
  rw [lex.eq_def]
  simp only [if_neg hwhite, hs]

theorem lex_word (hc : isWord c = true) (word l : Text) :
    lex word (c :: l) = lex (word ++ [c]) l := by
  obtain ⟨hwhite, hsym⟩ := isWord_iff.mp hc
  have hwhite' : ¬whitespace.contains c = true := by
    rw [← isWhite, hwhite]
    exact Bool.false_ne_true
  rw [lex.eq_def]
  simp only [if_neg hwhite', hsym]

theorem lex_greater (word l : Text) :
    lex word (Sym.greater.byte :: l) = flush word ++
      if l.head? = some Sym.greater.byte then .append :: lex [] l.tail
      else .sym .greater :: lex [] l := by
  have hwhite : ¬whitespace.contains Sym.greater.byte = true := by decide
  rw [lex.eq_def]
  simp only [if_neg hwhite, symOf_byte]
  cases l with
  | nil => rfl
  | cons d l =>
    by_cases hd : d = Sym.greater.byte
    · simp only [List.head?_cons, hd, if_true, List.tail_cons]
    · have hne : ¬(d :: l).head? = some Sym.greater.byte := by
        rw [List.head?_cons]
        exact fun h => hd (Option.some.inj h)
      simp only [if_neg hd, if_neg hne]

theorem lex_dropWhile_white (l : Text) : lex [] (l.dropWhile isWhite) = lex [] l := by
  induction l with
  | nil => rfl
  | cons c l ih =>
    by_cases hc : isWhite c = true
    · rw [List.dropWhile_cons_of_pos hc, ih, lex_white hc]
      rfl
    · rw [List.dropWhile_cons_of_neg hc]

theorem lex_flush (hc : isWord c = false) (word l : Text) :
    lex word (c :: l) = flush word ++ lex [] (c :: l) := by
  cases hwhite : isWhite c with
  | true =>
    rw [lex_white hwhite, lex_white hwhite]
    rfl
  | false =>
    cases hs : symOf c with
    | none =>
      rw [isWord_iff.mpr ⟨hwhite, hs⟩] at hc
      cases hc
    | some s =>
      by_cases hne : s = .greater
      · subst hne
        rw [← byte_of_symOf hs, lex_greater, lex_greater]
        rfl
      · rw [lex_sym hwhite hs hne, lex_sym hwhite hs hne]
        rfl

theorem lex_run (word l : Text) :
    lex word l = flush (word ++ l.takeWhile isWord) ++ lex [] (l.dropWhile isWord) := by
  induction l generalizing word with
  | nil =>
    rw [List.takeWhile_nil, List.append_nil, List.dropWhile_nil]
    exact (List.append_nil _).symm
  | cons c l ih =>
    cases hc : isWord c with
    | true =>
      rw [lex_word hc, ih, List.takeWhile_cons_of_pos hc, List.dropWhile_cons_of_pos hc,
        List.append_assoc, List.singleton_append]
    | false =>
      have hneg : ¬isWord c = true := by
        rw [hc]
        exact Bool.false_ne_true
      rw [lex_flush hc, List.takeWhile_cons_of_neg hneg, List.dropWhile_cons_of_neg hneg,
        List.append_nil]

theorem length_flush_le (word : Text) : (flush word).length ≤ 1 := by
  rw [flush]
  split
  · exact Nat.zero_le 1
  · exact Nat.le_refl 1

theorem length_lex_le (n : Nat) (word l : Text) (hl : l.length ≤ n) :
    (lex word l).length ≤ (flush word).length + l.length := by
  induction n generalizing word l with
  | zero =>
    rw [List.length_eq_zero_iff.mp (Nat.le_zero.mp hl)]
    exact Nat.le_refl _
  | succ n ih =>
    cases l with
    | nil => exact Nat.le_refl _
    | cons c l =>
      rw [List.length_cons] at hl ⊢
      have hrest : (lex [] l).length ≤ l.length := by
        have h := ih [] l (by omega)
        rwa [show (flush []).length = 0 from rfl, Nat.zero_add] at h
      cases hwhite : isWhite c with
      | true =>
        rw [lex_white hwhite, List.length_append]
        omega
      | false =>
        cases hs : symOf c with
        | none =>
          have h := ih (word ++ [c]) l (by omega)
          have hone := length_flush_le (word ++ [c])
          rw [lex_word (isWord_iff.mpr ⟨hwhite, hs⟩)]
          omega
        | some s =>
          by_cases hne : s = .greater
          · subst hne
            have htail : (lex [] l.tail).length ≤ l.tail.length := by
              have h := ih [] l.tail (by rw [List.length_tail]; omega)
              rwa [show (flush []).length = 0 from rfl, Nat.zero_add] at h
            rw [List.length_tail] at htail
            rw [← byte_of_symOf hs, lex_greater, List.length_append]
            split
            · rw [List.length_cons]
              omega
            · rw [List.length_cons]
              omega
          · rw [lex_sym hwhite hs hne, List.length_append, List.length_cons]
            omega

end Tokens

end Xv6Ringbuf.Shell
