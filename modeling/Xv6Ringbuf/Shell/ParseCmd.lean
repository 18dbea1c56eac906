import Xv6Ringbuf.Shell.Sound
import Xv6Ringbuf.Shell.Complete
import Xv6Ringbuf.Shell.Terminate

namespace Xv6Ringbuf.Shell

open Machine

variable {line : Text}

theorem at_start (line : Text) : At line 0 (tokens line) := ⟨Nat.zero_le _, rfl⟩

theorem length_tokens_le (line : Text) : (tokens line).length ≤ line.length := by
  have hle := length_lex_le line.length [] line (Nat.le_refl _)
  rw [show (flush []).length = 0 from rfl, Nat.zero_add] at hle
  exact hle

theorem parseline_agree (hline : ∀ c ∈ line, c ≠ 0) (fuel : Nat) :
    Agree (At line) (Cmd.Rel (Spans line)) ((parseline (cursor line) fuel).run 0)
      ((parseline stream fuel).run (tokens line)) :=
  (parse_matched (cursor_rel hline) fuel).1 0 (tokens line) (at_start line)

variable {ts : List (Token Text)} {fuel : Nat}

theorem parseline_ends (hfuel : 4 * ts.length + 4 < fuel) :
    (∃ cmd rest read, (parseline stream fuel).run ts = .ok (cmd, rest) ∧ ts = read ++ rest ∧
        Derives .line read cmd) ∨
      ∃ message ∈ syntaxErrors, (parseline stream fuel).run ts = .error (.panic message) := by
  have hsound := (parse_sound fuel).1 ts
  cases hrun : (parseline stream fuel).run ts with
  | ok r =>
    obtain ⟨cmd, rest⟩ := r
    obtain ⟨read, hread, hderives⟩ := hsound.ok hrun
    exact .inl ⟨cmd, rest, read, rfl, hread, hderives⟩
  | error e =>
    cases hsound.error hrun with
    | inl hhang => omega
    | inr hpanic =>
      obtain ⟨message, hmem, rfl⟩ := hpanic
      exact .inr ⟨message, hmem, rfl⟩

theorem Derives.parseline {cmd : Cmd Text} (h : Derives .line ts cmd)
    (hfuel : 4 * ts.length + 4 < fuel) :
    (Shell.parseline stream fuel).run ts = .ok (cmd, []) := by
  have hgives := h.complete [] fuel (fun _ _ heq => by cases heq) hfuel
  rw [Gives, List.append_nil] at hgives
  obtain ⟨cmd', rest, hrun, rfl, rfl⟩ := hgives.returns
  exact hrun

theorem parsecmd_ok {s : Nat} {cmd : Cmd (Nat × Nat)}
    (hrun : (parseline (cursor line) fuel).run 0 = .ok (cmd, s)) :
    parsecmd fuel line = if skipWhite line s ≠ line.length then .error (.panic "syntax")
      else .ok (cmd, nulterminate cmd (line ++ [0])) := by
  rw [parsecmd, hrun]
  rfl

theorem parsecmd_error {e : Stop} (hrun : (parseline (cursor line) fuel).run 0 = .error e) :
    parsecmd fuel line = .error e := by
  rw [parsecmd, hrun]
  rfl

-- `line` is a string, and a string has no zero before its end.
theorem parsecmd_grammar (line : Text) (hline : ∀ c ∈ line, c ≠ 0) (fuel : Nat)
    (hfuel : 4 * line.length + 4 < fuel) :
    (∃ cmd buf, parsecmd fuel line = .ok (cmd, buf) ∧
        ∀ tree, Derives .line (tokens line) tree ↔ tree = readBack buf cmd) ∨
      ∃ message ∈ syntaxErrors, parsecmd fuel line = .error (.panic message) ∧
        ∀ tree, ¬Derives .line (tokens line) tree := by
  have hlen := length_tokens_le line
  have hderived : ∀ tree, Derives .line (tokens line) tree →
      (parseline stream fuel).run (tokens line) = .ok (tree, []) :=
    fun tree h => h.parseline (by omega)
  have hagree := parseline_agree hline fuel
  cases parseline_ends (show 4 * (tokens line).length + 4 < fuel by omega) with
  | inr hpanic =>
    obtain ⟨message, hmem, hrun⟩ := hpanic
    right
    generalize hchars : (parseline (cursor line) fuel).run 0 = r at hagree
    rw [hrun] at hagree
    cases hagree
    refine ⟨message, hmem, parsecmd_error hchars, ?_⟩
    intro tree htree
    rw [hderived tree htree] at hrun
    cases hrun
  | inl hok =>
    obtain ⟨tree, rest, read, hrun, hread, htree⟩ := hok
    generalize hchars : (parseline (cursor line) fuel).run 0 = r at hagree
    rw [hrun] at hagree
    cases hagree with
    | ok hcmd hat =>
      rename_i cmd s
      rw [parsecmd_ok hchars]
      by_cases hend : skipWhite line s = line.length
      · -- all of the line was read
        left
        rw [if_neg (not_not.mpr hend)]
        rw [(hat.end_iff hline).mp hend, List.append_nil] at hread
        refine ⟨cmd, _, rfl, ?_⟩
        intro other
        rw [readBack_eq hline hcmd]
        constructor
        · intro hother
          rw [hderived other hother] at hrun
          cases hrun
          rfl
        · rintro rfl
          rw [hread]
          exact htree
      · right
        rw [if_pos hend]
        refine ⟨"syntax", by decide, rfl, ?_⟩
        intro other hother
        rw [hderived other hother] at hrun
        cases hrun
        exact hend ((hat.end_iff hline).mpr rfl)

theorem parsecmd_grammar_redirected :
    (∃ cmd buf, parsecmd 29 [0x61, 0x20, 0x3c, 0x62, 0x3b, 0x63] = .ok (cmd, buf) ∧
        ∀ tree, Derives .line (tokens [0x61, 0x20, 0x3c, 0x62, 0x3b, 0x63]) tree ↔
          tree = readBack buf cmd) ∨
      ∃ message ∈ syntaxErrors,
        parsecmd 29 [0x61, 0x20, 0x3c, 0x62, 0x3b, 0x63] = .error (.panic message) ∧
          ∀ tree, ¬Derives .line (tokens [0x61, 0x20, 0x3c, 0x62, 0x3b, 0x63]) tree :=
  parsecmd_grammar [0x61, 0x20, 0x3c, 0x62, 0x3b, 0x63] (by decide +kernel) 29 (by decide)

example : (parsecmd 29 [0x61, 0x20, 0x3c, 0x62, 0x3b, 0x63]).map (fun r => readBack r.2 r.1) =
    .ok (.list (.redir (.exec [[0x61]]) ⟨[0x62], O_RDONLY, 0⟩) (.exec [[0x63]])) := by
  decide +kernel

end Xv6Ringbuf.Shell
