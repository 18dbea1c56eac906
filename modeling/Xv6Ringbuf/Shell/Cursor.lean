import Xv6Ringbuf.Shell.Lex

namespace Xv6Ringbuf.Shell

def Spans (line : Text) (place : Nat × Nat) (word : Text) : Prop :=
  (line.drop place.1).takeWhile isWord = word ∧ place.2 = place.1 + word.length

def At (line : Text) (s : Nat) (ts : List (Token Text)) : Prop :=
  s ≤ line.length ∧ lex [] (line.drop s) = ts

variable {line : Text}

variable {s : Nat} {ts : List (Token Text)}

theorem At.skip (h : At line s ts) :
    At line (skipWhite line s) ts := by
  refine ⟨?_, ?_⟩
  · rw [skipWhite_eq]
    exact scanned_le isWhite h.1
  · rw [drop_skipWhite, lex_dropWhile_white]
    exact h.2

theorem skipped_cases (hline : ∀ c ∈ line, c ≠ 0) (s : Nat) :
    (line.drop (skipWhite line s) = [] ∧ charAt line (skipWhite line s) = 0) ∨
      ∃ c rest, line.drop (skipWhite line s) = c :: rest ∧ charAt line (skipWhite line s) = c ∧
        c ≠ 0 ∧ isWhite c = false ∧ line.drop (skipWhite line s + 1) = rest ∧
        skipWhite line s < line.length := by
  have hhead : charAt line (skipWhite line s) = (line.drop (skipWhite line s)).head?.getD 0 := by
    rw [charAt, List.getD_eq_getElem?_getD, List.head?_drop]
  cases hrest : line.drop (skipWhite line s) with
  | nil =>
    left
    rw [hrest] at hhead
    exact ⟨rfl, hhead⟩
  | cons c rest =>
    right
    rw [hrest] at hhead
    have hmem : c ∈ line := List.mem_of_mem_drop (hrest ▸ List.mem_cons_self)
    have hnext : line.drop (skipWhite line s + 1) = rest := by
      rw [← List.drop_drop, hrest, List.drop_one, List.tail_cons]
    refine ⟨c, rest, rfl, hhead, hline c hmem, ?_, hnext, ?_⟩
    · have hdrop : (line.drop s).dropWhile isWhite = c :: rest := by rw [← drop_skipWhite, hrest]
      have hne : (line.drop s).dropWhile isWhite ≠ [] := by
        rw [hdrop]
        exact List.cons_ne_nil c rest
      have hnot := List.head_dropWhile_not isWhite hne
      simp only [hdrop, List.head_cons] at hnot
      exact hnot
    · by_contra hge
      rw [List.drop_of_length_le (by omega)] at hrest
      cases hrest

theorem byte_injective {s s' : Sym} (h : s.byte = s'.byte) : s = s' := by
  have hsym := symOf_byte s
  rw [h, symOf_byte] at hsym
  exact (Option.some.inj hsym).symm

theorem contains_byte (toks : List Sym) (s : Sym) :
    (toks.map Sym.byte).contains s.byte = toks.any fun s' => s = s' := by
  rw [Bool.eq_iff_iff, List.contains_iff_mem, List.mem_map, List.any_eq_true]
  constructor
  · rintro ⟨s', hs', hbyte⟩
    exact ⟨s', hs', decide_eq_true (byte_injective hbyte).symm⟩
  · rintro ⟨s', hs', heq⟩
    exact ⟨s', hs', by rw [of_decide_eq_true heq]⟩

theorem peek_eq (hline : ∀ c ∈ line, c ≠ 0) (toks : List Sym) (h : At line s ts) :
    (peek line toks s).1 = ts.head?.any fun t => toks.any (starts t) := by
  have hts := h.skip.2
  rw [peek]
  rcases skipped_cases hline s with ⟨hnil, hzero⟩ | ⟨c, rest, hrest, hc, hne, hwhite, _, _⟩
  · rw [hnil] at hts
    rw [← hts, hzero]
    rfl
  · rw [hrest] at hts
    simp only [hc, bne_iff_ne.mpr hne, Bool.true_and]
    cases hs : symOf c with
    | none =>
      have hword := isWord_iff.mpr ⟨hwhite, hs⟩
      have hrun : flush ([] ++ (c :: rest).takeWhile isWord) =
          [.word ((c :: rest).takeWhile isWord)] := by
        rw [List.nil_append, List.takeWhile_cons_of_pos hword]
        rfl
      rw [← hts, lex_run, hrun, List.singleton_append, List.head?_cons, Option.any_some]
      have hnone : toks.any (starts (.word ((c :: rest).takeWhile isWord) : Token Text)) = false :=
        List.any_eq_false.mpr fun _ _ hstarts => Bool.false_ne_true hstarts
      rw [hnone]
      apply Bool.eq_false_iff.mpr
      intro hmem
      obtain ⟨s', _, hbyte⟩ := List.mem_map.mp (List.contains_iff_mem.mp hmem)
      exact symOf_eq_none.mp hs s' hbyte
    | some sym =>
      rw [← byte_of_symOf hs, contains_byte]
      by_cases hgreater : sym = .greater
      · subst hgreater
        rw [← byte_of_symOf hs, lex_greater] at hts
        by_cases hdouble : rest.head? = some Sym.greater.byte
        · rw [if_pos hdouble] at hts
          rw [← hts]
          show toks.any (fun s' => Sym.greater = s') = toks.any fun s' => s' = Sym.greater
          simp only [eq_comm]
        · rw [if_neg hdouble] at hts
          rw [← hts]
          rfl
      · rw [lex_sym hwhite hs hgreater] at hts
        rw [← hts]
        rfl

theorem lexeme_at (hline : ∀ c ∈ line, c ≠ 0) (h : At line s ts) :
    Option.Rel (Token.Rel (Spans line)) (lexeme line (skipWhite line s)).1 ts.head? ∧
      At line (lexeme line (skipWhite line s)).2 ts.tail := by
  have hat := h.skip
  have hts := hat.2
  rw [lexeme]
  rcases skipped_cases hline s with ⟨hnil, hzero⟩ | ⟨c, rest, hrest, hc, hne, hwhite, hnext, hlt⟩
  · rw [if_pos hzero]
    rw [hnil] at hts
    rw [← hts]
    exact ⟨.none, hat.1, by rw [hnil]; rfl⟩
  · rw [hc, if_neg hne]
    rw [hrest] at hts
    cases hs : symOf c with
    | none =>
      have hword := isWord_iff.mpr ⟨hwhite, hs⟩
      have hrun : flush ([] ++ (c :: rest).takeWhile isWord) =
          [.word ((c :: rest).takeWhile isWord)] := by
        rw [List.nil_append, List.takeWhile_cons_of_pos hword]
        rfl
      rw [lex_run, hrun, List.singleton_append] at hts
      rw [← hts]
      refine ⟨.some (.word ⟨by rw [hrest], ?_⟩), ?_, ?_⟩
      · simp only [skipWord_eq, hrest]
      · simp only [skipWord_eq]
        exact scanned_le isWord hat.1
      · simp only [drop_skipWord, hrest, List.tail_cons]
    | some sym =>
      by_cases hgreater : sym = .greater
      · subst hgreater
        obtain rfl := byte_of_symOf hs
        rw [lex_greater] at hts
        have hsecond : charAt line (skipWhite line s + 1) = rest.head?.getD 0 := by
          rw [charAt, List.getD_eq_getElem?_getD, ← List.head?_drop, hnext]
        by_cases hdouble : rest.head? = some Sym.greater.byte
        · rw [if_pos hdouble] at hts
          have hchar : charAt line (skipWhite line s + 1) = Sym.greater.byte := by
            rw [hsecond, hdouble]
            rfl
          rw [← hts]
          simp only [if_pos hchar]
          refine ⟨.some .append, ?_, ?_⟩
          · by_contra hge
            rw [List.drop_of_length_le (by omega)] at hnext
            rw [← hnext] at hdouble
            cases hdouble
          · rw [show skipWhite line s + 2 = skipWhite line s + 1 + 1 from rfl, ← List.drop_drop,
              hnext, List.drop_one]
            rfl
        · rw [if_neg hdouble] at hts
          have hchar : ¬charAt line (skipWhite line s + 1) = Sym.greater.byte := by
            rw [hsecond]
            intro heq
            cases hhead : rest.head? with
            | none =>
              rw [hhead] at heq
              exact absurd heq (by decide)
            | some d =>
              rw [hhead] at heq hdouble
              exact hdouble (congrArg some heq)
          rw [← hts]
          simp only [if_neg hchar]
          exact ⟨.some (.sym .greater), hlt, by rw [hnext]; rfl⟩
      · rw [lex_sym hwhite hs hgreater] at hts
        have hrest' : lex [] (line.drop (skipWhite line s + 1)) = lex [] rest := by rw [hnext]
        rw [← hts]
        cases sym with
        | greater => exact absurd rfl hgreater
        | less => exact ⟨.some (.sym .less), hlt, hrest'⟩
        | bar => exact ⟨.some (.sym .bar), hlt, hrest'⟩
        | amp => exact ⟨.some (.sym .amp), hlt, hrest'⟩
        | semi => exact ⟨.some (.sym .semi), hlt, hrest'⟩
        | lparen => exact ⟨.some (.sym .lparen), hlt, hrest'⟩
        | rparen => exact ⟨.some (.sym .rparen), hlt, hrest'⟩

theorem cursor_rel (hline : ∀ c ∈ line, c ≠ 0) :
    Lexer.Rel (cursor line) stream (At line) (Spans line) where
  peek toks _ _ h := ⟨peek_eq hline toks h, h.skip⟩
  gettoken _ _ h := ⟨(lexeme_at hline h).1, (lexeme_at hline h).2.skip⟩

theorem At.end_iff (hline : ∀ c ∈ line, c ≠ 0) (h : At line s ts) :
    skipWhite line s = line.length ↔ ts = [] := by
  have hts := h.skip.2
  constructor
  · intro hend
    rw [hend, List.drop_length] at hts
    exact hts.symm
  · intro hnil
    rcases skipped_cases hline s with ⟨hrest, _⟩ | ⟨c, rest, hrest, _, _, hwhite, _, _⟩
    · have hle := h.skip.1
      have hge := List.drop_eq_nil_iff.mp hrest
      omega
    · -- a character that is not white space begins a token
      rw [hrest, hnil] at hts
      cases hs : symOf c with
      | none =>
        rw [lex_run, List.nil_append, List.takeWhile_cons_of_pos (isWord_iff.mpr ⟨hwhite, hs⟩)] at hts
        cases hts
      | some sym =>
        by_cases hgreater : sym = .greater
        · subst hgreater
          rw [← byte_of_symOf hs, lex_greater] at hts
          split at hts
          · cases hts
          · cases hts
        · rw [lex_sym hwhite hs hgreater] at hts
          cases hts

end Xv6Ringbuf.Shell
