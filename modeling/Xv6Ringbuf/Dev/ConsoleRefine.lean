import Xv6Ringbuf.Dev.TtyOrder

namespace Xv6Ringbuf.Dev

open Trace Circular

theorem size_dvd : INPUT_BUF_SIZE ∣ 2 ^ 32 := by decide

-- The ring holds the committed input that nobody has taken, then the line.
structure Matches (cons : Cons) (t : Tty) : Prop where
  unread : t.unread = span cons.buf cons.r.toNat (ahead cons.r cons.w)
  line : t.line = span cons.buf cons.w.toNat (ahead cons.w cons.e)
  room : ahead cons.r cons.w + ahead cons.w cons.e ≤ INPUT_BUF_SIZE
  plain : ∀ c ∈ t.line, c ≠ NEWLINE

section Typing

variable {cons : Cons} {t : Tty}

theorem Matches.ahead_eq (h : Matches cons t) :
    ahead cons.r cons.e = ahead cons.r cons.w + ahead cons.w cons.e := by
  have hroom : ahead cons.r cons.w + ahead cons.w cons.e ≤ 128 := h.room
  apply ahead_trans
  omega

theorem Matches.held_eq (h : Matches cons t) : t.held = ahead cons.r cons.e := by
  rw [h.ahead_eq, Tty.held, h.unread, h.line, length_span, length_span]

theorem erase_eq (cons : Cons) :
    ∃ uart, erase cons = { cons with e := cons.e - 1, uart := uart } :=
  ⟨cons.uart ++ [8, 32, 8], rfl⟩

theorem consputc_eq (c : Nat) (cons : Cons) :
    ∃ uart, consputc c cons = { cons with uart := uart } := by
  by_cases hback : c = BACKSPACE
  · exact ⟨_, by rw [consputc, if_pos hback]⟩
  · exact ⟨_, by rw [consputc, if_neg hback]⟩

theorem line_last (cons : Cons) (hne : cons.e ≠ cons.w) :
    span cons.buf cons.w.toNat (ahead cons.w cons.e) =
      span cons.buf cons.w.toNat (ahead cons.w (cons.e - 1)) ++
        [cell cons.buf (cons.e - 1).toNat] := by
  rw [← ahead_sub_one hne.symm, span_last, cell_congr cons.buf (add_ahead_mod size_dvd _ _)]

theorem killLine_eq (fuel : Nat) (cons : Cons) (hfuel : ahead cons.w cons.e = fuel)
    (hplain : ∀ c ∈ span cons.buf cons.w.toNat (ahead cons.w cons.e), c ≠ NEWLINE) :
    ∃ uart, killLine fuel cons = { cons with e := cons.w, uart := uart } := by
  induction fuel generalizing cons with
  | zero =>
    have heq : cons.w = cons.e := ahead_eq_zero.mp hfuel
    refine ⟨cons.uart, ?_⟩
    rw [killLine]
    cases cons
    exact congrArg (Cons.mk _ _ _ · _) heq.symm
  | succ fuel ih =>
    have hne : cons.e ≠ cons.w := by
      intro heq
      rw [heq, ahead_self] at hfuel
      omega
    rw [line_last cons hne] at hplain
    have hlast : cell cons.buf (cons.e - 1).toNat ≠ NEWLINE :=
      hplain _ (List.mem_append_right _ List.mem_cons_self)
    have hless : ahead cons.w (cons.e - 1) = fuel := by
      have hsub := ahead_sub_one hne.symm
      omega
    obtain ⟨uart, herase⟩ := erase_eq cons
    rw [killLine, if_pos ⟨hne, hlast⟩, herase]
    exact ih { cons with e := cons.e - 1, uart := uart } hless
      (fun c hc => hplain c (List.mem_append_left _ hc))

theorem Matches.kill (h : Matches cons t) :
    Matches (killLine (cons.e - cons.w).toNat cons) { t with line := [] } := by
  obtain ⟨uart, heq⟩ := killLine_eq _ cons rfl (h.line ▸ h.plain)
  change Matches (killLine (ahead cons.w cons.e) cons) _
  rw [heq]
  refine ⟨h.unread, ?_, ?_, fun c hc => absurd hc List.not_mem_nil⟩
  · simp only [ahead_self, span]
  · have hroom := h.room
    simp only [ahead_self]
    omega

theorem Matches.erase (h : Matches cons t) :
    Matches (if cons.e ≠ cons.w then erase cons else cons) { t with line := t.line.dropLast } := by
  by_cases hne : cons.e ≠ cons.w
  · obtain ⟨uart, heq⟩ := erase_eq cons
    have hless := ahead_sub_one hne.symm
    have hroom := h.room
    rw [if_pos hne, heq]
    refine ⟨h.unread, ?_, by simp only; omega, ?_⟩
    · simp only
      rw [h.line, line_last cons hne, List.dropLast_concat]
    · intro c hc
      exact h.plain c (List.mem_of_mem_dropLast hc)
  · have heq : cons.w = cons.e := (not_not.mp hne).symm
    have hnil : t.line = [] := by rw [h.line, heq, ahead_self, span]
    have hsame : ({ t with line := t.line.dropLast } : Tty) = t := by rw [hnil, List.dropLast_nil, ← hnil]
    rw [if_neg hne, hsame]
    exact h

-- The ring after a character has been stored behind the line.
structure Stored (cons stored : Cons) (t : Tty) (c : UInt8) : Prop where
  r : stored.r = cons.r
  w : stored.w = cons.w
  line : ahead stored.w stored.e = ahead cons.w cons.e + 1
  inLine : span stored.buf stored.w.toNat (ahead stored.w stored.e) = t.line ++ [c]
  inRing : span stored.buf stored.r.toNat (ahead stored.r stored.w) = t.unread

theorem Matches.store (h : Matches cons t) (c : UInt8) (uart : List UInt8)
    (hfree : ahead cons.r cons.e < INPUT_BUF_SIZE) :
    Stored cons (store c { cons with uart := uart }) t c := by
  have hsum : ahead cons.r cons.w + ahead cons.w cons.e < 128 := by
    rw [← h.ahead_eq]
    exact hfree
  have hline : ahead cons.w (cons.e + 1) = ahead cons.w cons.e + 1 := ahead_add_one (by omega)
  have hputLine : put cons.buf cons.e.toNat c =
      put cons.buf (cons.w.toNat + ahead cons.w cons.e) c :=
    put_congr cons.buf c (add_ahead_mod size_dvd _ _).symm
  have hputRing : put cons.buf cons.e.toNat c =
      put cons.buf (cons.r.toNat + (ahead cons.r cons.w + ahead cons.w cons.e)) c := by
    rw [← h.ahead_eq]
    exact put_congr cons.buf c (add_ahead_mod size_dvd _ _).symm
  refine ⟨rfl, rfl, hline, ?_, ?_⟩
  · simp only [Dev.store]
    rw [hline, hputLine, h.line, span_put_last _ _ (show _ < 128 by omega)]
  · simp only [Dev.store]
    rw [hputRing, span_put_of_le _ _ (by omega) (by show _ < _ + 128; omega), h.unread]

section Enter

variable {stored : Cons} {c : UInt8} (h : Matches cons t) (hstored : Stored cons stored t c)
  (hfree : ahead cons.r cons.e < INPUT_BUF_SIZE)

include h hstored hfree

theorem Stored.ahead_eq : ahead stored.r stored.e = t.held + 1 := by
  have hfree' : ahead cons.r cons.e < 128 := hfree
  have hheld := h.held_eq
  have hsum := h.ahead_eq
  have hline := hstored.line
  have hr : ahead stored.r stored.w = ahead cons.r cons.w := by rw [hstored.r, hstored.w]
  have htrans : ahead stored.r stored.e = ahead stored.r stored.w + ahead stored.w stored.e :=
    ahead_trans (by omega)
  omega

theorem Stored.edited (hnl : c ≠ NEWLINE) : Matches stored { t with line := t.line ++ [c] } := by
  have hfree' : ahead cons.r cons.e < 128 := hfree
  refine ⟨hstored.inRing.symm, hstored.inLine.symm, ?_, ?_⟩
  · rw [hstored.line, hstored.r, hstored.w, ← Nat.add_assoc, ← h.ahead_eq]
    exact hfree
  · intro d hd
    rcases List.mem_append.mp hd with hd | hd
    · exact h.plain d hd
    · rw [List.mem_singleton.mp hd]
      exact hnl

theorem Stored.committed (hle : t.taken.length ≤ t.committed.length) :
    Matches { stored with w := stored.e } (Tty.commit { t with line := t.line ++ [c] }) := by
  have hfree' : ahead cons.r cons.e < 128 := hfree
  have hheld := h.held_eq
  have hahead := hstored.ahead_eq h hfree
  have hsplit : ahead stored.r stored.e = ahead stored.r stored.w + ahead stored.w stored.e := by
    apply ahead_trans
    rw [hstored.line, hstored.r, hstored.w, ← Nat.add_assoc, ← h.ahead_eq]
    omega
  refine ⟨?_, ?_, ?_, fun d hd => absurd hd List.not_mem_nil⟩
  · have hunread : (Tty.commit { t with line := t.line ++ [c] }).unread =
        t.unread ++ (t.line ++ [c]) := List.drop_append_of_le_length hle
    simp only
    rw [hunread, hsplit, span_add, hstored.inRing, span_congr _ _ (add_ahead_mod size_dvd _ _),
      hstored.inLine]
  · simp only [ahead_self, span, Tty.commit]
  · simp only [ahead_self]
    show _ ≤ 128
    omega

end Enter

theorem Matches.enter (h : Matches cons t) (c : UInt8)
    (hle : t.taken.length ≤ t.committed.length) (hfree : ahead cons.r cons.e < INPUT_BUF_SIZE) :
    Matches (enter c cons) (t.add c) := by
  obtain ⟨uart, hputc⟩ := consputc_eq c.toNat cons
  have hstored := h.store c uart hfree
  rw [Dev.enter, hputc, Tty.add]
  generalize Dev.store c { cons with uart := uart } = stored at hstored
  have hahead : (stored.e - stored.r).toNat = ({ t with line := t.line ++ [c] } : Tty).held := by
    rw [show (stored.e - stored.r).toNat = ahead stored.r stored.e from rfl,
      hstored.ahead_eq h hfree, Tty.held, Tty.held, List.length_append, List.length_singleton,
      Nat.add_assoc]
    rfl
  simp only [hahead]
  by_cases hcommit : c = NEWLINE ∨ c = C 'D' ∨
      ({ t with line := t.line ++ [c] } : Tty).held = INPUT_BUF_SIZE
  · rw [if_pos hcommit, if_pos hcommit]
    exact hstored.committed h hfree hle
  · rw [if_neg hcommit, if_neg hcommit]
    exact hstored.edited h hfree (fun hnl => hcommit (.inl hnl))

theorem Matches.intr (h : Matches cons t) (c : UInt8)
    (hle : t.taken.length ≤ t.committed.length) : Matches (consoleintr c cons) (t.type c) := by
  rw [consoleintr, Tty.type]
  by_cases hprint : c = C 'P'
  · rw [if_pos hprint, if_pos (Or.inr hprint)]
    exact h
  rw [if_neg hprint]
  by_cases hzero : c = 0
  · subst hzero
    rw [if_pos (Or.inl rfl), if_neg (by decide), if_neg (by decide), if_neg (fun hc => hc.1 rfl)]
    exact h
  rw [if_neg (show ¬(c = 0 ∨ c = C 'P') from fun hc => hc.elim hzero hprint)]
  by_cases hkill : c = C 'U'
  · rw [if_pos hkill, if_pos hkill]
    exact h.kill
  rw [if_neg hkill, if_neg hkill]
  by_cases herase : c = C 'H' ∨ c = DELETE
  · rw [if_pos herase, if_pos herase]
    exact h.erase
  rw [if_neg herase, if_neg herase, h.held_eq]
  by_cases hfree : ahead cons.r cons.e < INPUT_BUF_SIZE
  · rw [if_pos ⟨hzero, hfree⟩, if_pos hfree]
    exact h.enter _ hle hfree
  · rw [if_neg (fun hc => hfree hc.2), if_neg hfree]
    exact h

end Typing

end Xv6Ringbuf.Dev
