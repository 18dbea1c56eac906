import Xv6Ringbuf.Shell.Grammar

namespace Xv6Ringbuf.Shell

open Machine

def syntaxErrors : List String :=
  ["syntax", "missing file for redirection", "syntax - missing )", "too many args"]

-- How a parser that is given `fuel` may end without a command: the fuel was not
-- more than `n`, or there is an error in the input.
def Refuses (n fuel : Nat) (e : Stop) : Prop :=
  (e = .hang ∧ fuel ≤ n) ∨ ∃ message ∈ syntaxErrors, e = .panic message

theorem Refuses.mono {n n' fuel fuel' : Nat} {e : Stop} (h : Refuses n fuel e)
    (hn : fuel ≤ n → fuel' ≤ n') : Refuses n' fuel' e := by
  rcases h with ⟨he, hle⟩ | herror
  · exact .inl ⟨he, hn hle⟩
  · exact .inr herror

theorem refuses_panic {n fuel : Nat} {message : String} (h : message ∈ syntaxErrors) :
    Refuses n fuel (.panic message) := .inr ⟨message, h, rfl⟩

-- The input is read up to `ts'`, and what has been read is in `G`.
def Reads {β : Type} (G : List (Token Text) → β → Prop) (ts : List (Token Text)) (value : β)
    (ts' : List (Token Text)) : Prop := ∃ read, ts = read ++ ts' ∧ G read value

theorem operator_of_peek {t : Token Text} (h : [Sym.less, .greater].any (starts t)) (word : Text) :
    ∃ mode fd, Operator t mode fd ∧ redircmd (some t) word = [⟨word, mode, fd⟩] := by
  cases t with
  | word w => cases h
  | append => exact ⟨_, _, .append, rfl⟩
  | sym s =>
    cases s with
    | less => exact ⟨_, _, .input, rfl⟩
    | greater => exact ⟨_, _, .output, rfl⟩
    | bar | lparen | rparen | semi | amp => cases h

theorem parseredirs_sound (fuel : Nat) (ts : List (Token Text)) :
    wp (parseredirs stream fuel) ts (Reads Redirs ts) (Refuses ts.length fuel) := by
  induction fuel generalizing ts with
  | zero => exact .inl ⟨rfl, Nat.zero_le _⟩
  | succ fuel ih =>
    rw [parseredirs]
    apply look_wp
    · rintro t ts rfl hop
      apply next_wp
      apply next_wp
      have hmissing : wp (throw (.panic "missing file for redirection") >>= fun a => do
          let rs ← parseredirs stream fuel
          pure (redircmd (some t) a ++ rs)) ts.tail (Reads Redirs (t :: ts))
          (Refuses (t :: ts).length (fuel + 1)) := by
        apply wp_bind
        exact wp_throw (refuses_panic (by decide))
      cases ts with
      | nil => exact hmissing
      | cons file ts =>
        cases file with
        | sym s => exact hmissing
        | append => exact hmissing
        | word a =>
          obtain ⟨mode, fd, hoperator, hredir⟩ := operator_of_peek hop a
          apply wp_bind
          apply wp_pure
          apply wp_bind
          apply (ih ts).mono
          · rintro rs ts' ⟨read, rfl, hredirs⟩
            apply wp_pure
            refine ⟨t :: .word a :: read, rfl, ?_⟩
            rw [List.head?_cons, hredir]
            exact .cons hoperator hredirs
          · intro e he
            apply he.mono
            intro hle
            rw [List.length_cons, List.length_cons]
            omega
    · intro _
      exact wp_pure ⟨[], rfl, .nil⟩

theorem parseargs_sound (fuel argc : Nat) (ts : List (Token Text)) :
    wp (parseargs stream fuel argc) ts
      (Reads (fun read parts => Args read parts.1 parts.2 ∧
        (argc < MAXARGS → argc + parts.1.length ≤ MAXARGS - 1)) ts) (Refuses ts.length fuel) := by
  induction fuel generalizing argc ts with
  | zero => exact .inl ⟨rfl, Nat.zero_le _⟩
  | succ fuel ih =>
    have hnone : Reads (fun read parts => Args read parts.1 parts.2 ∧
        (argc < MAXARGS → argc + parts.1.length ≤ MAXARGS - 1)) ts ([], []) ts :=
      ⟨[], rfl, .nil, fun hlt => Nat.le_sub_one_of_lt hlt⟩
    rw [parseargs]
    apply look_wp
    · intro _ _ _ _
      exact wp_pure hnone
    · intro _
      apply next_wp
      cases ts with
      | nil => exact wp_pure hnone
      | cons t ts =>
        cases t with
        | sym s => exact wp_throw (refuses_panic (by decide))
        | append => exact wp_throw (refuses_panic (by decide))
        | word a =>
          show wp (if argc + 1 ≥ MAXARGS then throw (.panic "too many args") else do
            let rs ← parseredirs stream fuel
            let rest ← parseargs stream fuel (argc + 1)
            pure (a :: rest.1, rs ++ rest.2)) ts _ _
          by_cases hmany : argc + 1 ≥ MAXARGS
          · rw [if_pos hmany]
            exact wp_throw (refuses_panic (by decide))
          · rw [if_neg hmany]
            apply wp_bind
            apply (parseredirs_sound fuel ts).mono
            · rintro rs ts₁ ⟨read, rfl, hredirs⟩
              apply wp_bind
              apply (ih (argc + 1) ts₁).mono
              · rintro ⟨words, rs'⟩ ts₂ ⟨read', rfl, hargs, hwords⟩
                apply wp_pure
                refine ⟨.word a :: (read ++ read'), ?_, .cons hredirs hargs, ?_⟩
                · rw [List.cons_append, List.append_assoc]
                · intro _
                  have hle : argc + 1 + words.length ≤ MAXARGS - 1 :=
                    hwords (Nat.lt_of_not_le hmany)
                  simp only [List.length_cons]
                  omega
              · intro e he
                apply he.mono
                intro hle
                rw [List.length_cons, List.length_append]
                omega
            · intro e he
              apply he.mono
              intro hle
              rw [List.length_cons]
              omega

theorem parsebacks_sound (fuel : Nat) (cmd : Cmd Text) (ts : List (Token Text)) :
    wp (parsebacks stream fuel cmd) ts
      (Reads (fun read cmd' => ∃ k, read = amps k ∧ cmd' = backs k cmd) ts)
      (Refuses ts.length fuel) := by
  induction fuel generalizing cmd ts with
  | zero => exact .inl ⟨rfl, Nat.zero_le _⟩
  | succ fuel ih =>
    rw [parsebacks]
    apply look_wp
    · rintro t ts rfl hamp
      obtain rfl := sym_of_peek (by decide) hamp
      apply next_wp
      apply (ih (.back cmd) ts).mono
      · rintro cmd' ts' ⟨_, rfl, k, rfl, rfl⟩
        exact ⟨amps (k + 1), rfl, k + 1, rfl, rfl⟩
      · intro e he
        apply he.mono
        intro hle
        rw [List.length_cons]
        omega
    · intro _
      exact wp_pure ⟨[], rfl, 0, rfl, rfl⟩

-- The four procedures call each other. A call with one unit of fuel less reads
-- either a part that comes earlier in the grammar or fewer tokens.
def Sound (part : Part) (extra : Nat) (parser : Nat → M Stop (List (Token Text)) (Cmd Text))
    (fuel : Nat) : Prop :=
  ∀ ts, wp (parser fuel) ts (Reads (Derives part) ts) (Refuses (4 * ts.length + extra) fuel)

def SoundBlock (fuel : Nat) : Prop :=
  ∀ ts, wp (parseblock stream fuel) (.sym .lparen :: ts)
    (Reads (Derives .exec) (.sym .lparen :: ts)) (Refuses (4 * ts.length + 5) fuel)

section Steps

variable {fuel : Nat}

theorem parseline_step (hpipe : Sound .pipe 3 (parsepipe stream) fuel)
    (hline : Sound .line 4 (parseline stream) fuel) : Sound .line 4 (parseline stream) (fuel + 1) := by
  intro ts
  rw [parseline]
  apply wp_bind
  apply (hpipe ts).mono
  · rintro cmd ts₁ ⟨read, rfl, hread⟩
    apply wp_bind
    apply (parsebacks_sound fuel cmd ts₁).mono
    · rintro _ ts₂ ⟨_, rfl, k, rfl, rfl⟩
      apply look_wp
      · rintro t ts₃ rfl hsemi
        obtain rfl := sym_of_peek (by decide) hsemi
        apply next_wp
        apply wp_bind
        apply (hline ts₃).mono
        · rintro cmd' ts₄ ⟨read', rfl, hread'⟩
          apply wp_pure
          refine ⟨read ++ (amps k ++ .sym .semi :: read'), ?_, .list k hread hread'⟩
          rw [List.append_assoc, List.append_assoc, List.cons_append]
        · intro e he
          apply he.mono
          intro hle
          rw [List.length_append, List.length_append, List.length_cons]
          omega
      · intro _
        apply wp_pure
        exact ⟨read ++ amps k, by rw [List.append_assoc], .single k hread⟩
    · intro e he
      apply he.mono
      intro hle
      rw [List.length_append]
      omega
  · intro e he
    apply he.mono
    omega

theorem parsepipe_step (hexec : Sound .exec 2 (parseexec stream) fuel)
    (hpipe : Sound .pipe 3 (parsepipe stream) fuel) : Sound .pipe 3 (parsepipe stream) (fuel + 1) := by
  intro ts
  rw [parsepipe]
  apply wp_bind
  apply (hexec ts).mono
  · rintro cmd ts₁ ⟨read, rfl, hread⟩
    apply look_wp
    · rintro t ts₂ rfl hbar
      obtain rfl := sym_of_peek (by decide) hbar
      apply next_wp
      apply wp_bind
      apply (hpipe ts₂).mono
      · rintro cmd' ts₃ ⟨read', rfl, hread'⟩
        apply wp_pure
        refine ⟨read ++ .sym .bar :: read', ?_, .pipe hread hread'⟩
        rw [List.append_assoc, List.cons_append]
      · intro e he
        apply he.mono
        intro hle
        rw [List.length_append, List.length_cons]
        omega
    · intro _
      exact wp_pure ⟨read, rfl, .last hread⟩
  · intro e he
    apply he.mono
    omega

theorem parseblock_step (hline : Sound .line 4 (parseline stream) fuel) : SoundBlock (fuel + 1) := by
  intro ts
  rw [parseblock]
  apply look_wp
  · intro _ _ _ _
    apply next_wp
    apply wp_bind
    apply (hline ts).mono
    · rintro cmd ts₁ ⟨read, rfl, hread⟩
      apply look_wp
      · rintro t ts₂ rfl hparen
        obtain rfl := sym_of_peek (by decide) hparen
        apply next_wp
        apply wp_bind
        apply (parseredirs_sound fuel ts₂).mono
        · rintro rs ts₃ ⟨read', rfl, hredirs⟩
          apply wp_pure
          refine ⟨.sym .lparen :: (read ++ .sym .rparen :: read'), ?_, .block hread hredirs⟩
          rw [List.cons_append, List.append_assoc, List.cons_append]
        · intro e he
          apply he.mono
          intro hle
          rw [List.length_append, List.length_cons]
          omega
      · intro _
        exact wp_throw (refuses_panic (by decide))
    · intro e he
      apply he.mono
      omega
  · intro hnot
    have hfalse := hnot _ _ rfl
    cases hfalse

theorem parseexec_step (hblock : SoundBlock fuel) : Sound .exec 2 (parseexec stream) (fuel + 1) := by
  intro ts
  rw [parseexec]
  apply look_wp
  · rintro t ts₁ rfl hparen
    obtain rfl := sym_of_peek (by decide) hparen
    apply (hblock ts₁).mono (fun _ _ h => h)
    intro e he
    apply he.mono
    intro hle
    rw [List.length_cons]
    omega
  · intro _
    apply wp_bind
    apply (parseredirs_sound fuel ts).mono
    · rintro rs ts₁ ⟨read, rfl, hredirs⟩
      apply wp_bind
      apply (parseargs_sound fuel 0 ts₁).mono
      · rintro ⟨words, rs'⟩ ts₂ ⟨read', rfl, hargs, hwords⟩
        apply wp_pure
        refine ⟨read ++ read', by rw [List.append_assoc], .simple hredirs hargs ?_⟩
        have hle := hwords (by decide)
        rwa [Nat.zero_add] at hle
      · intro e he
        apply he.mono
        intro hle
        rw [List.length_append]
        omega
    · intro e he
      apply he.mono
      omega

end Steps

theorem parse_sound (fuel : Nat) :
    Sound .line 4 (parseline stream) fuel ∧ Sound .pipe 3 (parsepipe stream) fuel ∧
      SoundBlock fuel ∧ Sound .exec 2 (parseexec stream) fuel := by
  induction fuel with
  | zero =>
    have hzero : ∀ n, Refuses n 0 .hang := fun n => .inl ⟨rfl, Nat.zero_le n⟩
    exact ⟨fun _ => hzero _, fun _ => hzero _, fun _ => hzero _, fun _ => hzero _⟩
  | succ fuel ih =>
    obtain ⟨hline, hpipe, hblock, hexec⟩ := ih
    exact ⟨parseline_step hpipe hline, parsepipe_step hexec hpipe, parseblock_step hline,
      parseexec_step hblock⟩

end Xv6Ringbuf.Shell
