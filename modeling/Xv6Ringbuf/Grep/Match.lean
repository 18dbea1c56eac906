import Mathlib

namespace Xv6Ringbuf.Grep

open Computability

def STAR : UInt8 := 42

def DOT : UInt8 := 46

def DOLLAR : UInt8 := 36

def CARET : UInt8 := 94

-- A string in memory ends at its first NUL, or with the list.
def cstring (s : List UInt8) : List UInt8 := s.takeWhile fun c => c ≠ 0

mutual

def matchhere (re text : List UInt8) : Bool :=
  if re.headD 0 = 0 then true
  else if re.tail.headD 0 = STAR then matchstar (re.headD 0) re.tail.tail text
  else if re.headD 0 = DOLLAR ∧ re.tail.headD 0 = 0 then decide (text.headD 0 = 0)
  else if text.headD 0 ≠ 0 ∧ (re.headD 0 = DOT ∨ re.headD 0 = text.headD 0) then
    matchhere re.tail text.tail
  else false
termination_by (re.length, text.length, 0)
decreasing_by
  all_goals
    cases re with
    | nil => simp at *
    | cons c re =>
      apply Prod.Lex.left
      simp

def matchstar (c : UInt8) (re text : List UInt8) : Bool :=
  if matchhere re text then true
  else if text.headD 0 ≠ 0 ∧ (text.headD 0 = c ∨ c = DOT) then matchstar c re text.tail
  else false
termination_by (re.length, text.length, 1)
decreasing_by
  · exact Prod.Lex.right _ (Prod.Lex.right _ Nat.one_pos)
  · cases text with
    | nil => simp at *
    | cons x text =>
      apply Prod.Lex.right
      apply Prod.Lex.left
      simp

end

def matchFrom (re : List UInt8) : List UInt8 → Bool
  | [] => matchhere re []
  | x :: text => matchhere re (x :: text) || (x ≠ 0 && matchFrom re text)

def matchRe (re text : List UInt8) : Bool :=
  if re.headD 0 = CARET then matchhere re.tail text else matchFrom re text

-- The items of a pattern: a character, or any number of them.
inductive Item where
  | one (c : UInt8)
  | star (c : UInt8)

-- The characters that `c` stands for.
def Accepts (c x : UInt8) : Prop := c = DOT ∨ x = c

def chars (c : UInt8) : Language UInt8 := { w | ∃ x, w = [x] ∧ Accepts c x }

def Item.lang : Item → Language UInt8
  | .one c => chars c
  | .star c => (chars c)∗

-- A pattern, and whether it holds at the end of the text only.
structure Pattern where
  items : List Item
  toEnd : Bool

def Pattern.lang (pat : Pattern) : Language UInt8 := (pat.items.map Item.lang).prod

def Pattern.cons (item : Item) (pat : Pattern) : Pattern := ⟨item :: pat.items, pat.toEnd⟩

-- The pattern, read from left to right.
def read : List UInt8 → Pattern
  | [] => ⟨[], false⟩
  | [c] => if c = DOLLAR then ⟨[], true⟩ else ⟨[.one c], false⟩
  | c :: d :: re => if d = STAR then (read re).cons (.star c) else (read (d :: re)).cons (.one c)

-- A part `w` of the text, between `u` and `v`, is what the pattern describes.
def Found (re text : List UInt8) : Prop :=
  ∃ u w v, text = u ++ w ++ v ∧
    if re.headD 0 = CARET then u = [] ∧ w ∈ (read re.tail).lang ∧ ((read re.tail).toEnd → v = [])
    else w ∈ (read re).lang ∧ ((read re).toEnd → v = [])

def Pattern.At (pat : Pattern) (text : List UInt8) : Prop :=
  ∃ w v, text = w ++ v ∧ w ∈ pat.lang ∧ (pat.toEnd → v = [])

section Strings

theorem cstring_cons {c : UInt8} (h : c ≠ 0) (s : List UInt8) : cstring (c :: s) = c :: cstring s := by
  rw [cstring, List.takeWhile_cons_of_pos (by simpa using h), cstring]

theorem cstring_zero (s : List UInt8) : cstring (0 :: s) = [] := by
  rw [cstring, List.takeWhile_cons_of_neg (by simp)]

theorem cstring_of_head {s : List UInt8} (h : s.headD 0 ≠ 0) :
    ∃ c s', c ≠ 0 ∧ s = c :: s' ∧ cstring s = c :: cstring s' := by
  cases s with
  | nil => exact absurd rfl h
  | cons c s => exact ⟨c, s, h, rfl, cstring_cons h s⟩

theorem cstring_eq_nil {s : List UInt8} : cstring s = [] ↔ s.headD 0 = 0 := by
  cases s with
  | nil => exact ⟨fun _ => rfl, fun _ => rfl⟩
  | cons c s =>
    by_cases h : c = 0
    · rw [h, cstring_zero]
      exact ⟨fun _ => rfl, fun _ => rfl⟩
    · rw [cstring_cons h]
      exact ⟨fun hnil => (List.cons_ne_nil _ _ hnil).elim, fun hzero => absurd hzero h⟩

end Strings

section Language

variable {c : UInt8} {pat : Pattern} {text : List UInt8}

theorem mem_kstar_chars {w : List UInt8} :
    w ∈ (chars c)∗ ↔ ∀ x ∈ w, Accepts c x := by
  rw [Language.mem_kstar]
  constructor
  · rintro ⟨parts, rfl, hparts⟩ x hx
    obtain ⟨part, hpart, hmem⟩ := List.mem_flatten.mp hx
    obtain ⟨y, rfl, hy⟩ := hparts part hpart
    rw [List.mem_singleton] at hmem
    rw [hmem]
    exact hy
  · intro h
    refine ⟨w.map fun x => [x], by rw [← List.flatMap_def, List.flatMap_singleton'], fun part hpart => ?_⟩
    obtain ⟨x, hx, rfl⟩ := List.mem_map.mp hpart
    exact ⟨x, rfl, h x hx⟩

theorem lang_cons (item : Item) (pat : Pattern) : (pat.cons item).lang = item.lang * pat.lang := by
  rw [Pattern.lang, Pattern.cons, List.map_cons, List.prod_cons, Pattern.lang]

theorem at_cons {item : Item} :
    (pat.cons item).At text ↔ ∃ u v, text = u ++ v ∧ u ∈ item.lang ∧ pat.At v := by
  constructor
  · rintro ⟨w, v, rfl, hw, hend⟩
    rw [lang_cons, Language.mem_mul] at hw
    obtain ⟨a, ha, b, hb, rfl⟩ := hw
    exact ⟨a, b ++ v, by rw [List.append_assoc], ha, b, v, rfl, hb, hend⟩
  · rintro ⟨a, _, rfl, ha, b, v, rfl, hb, hend⟩
    refine ⟨a ++ b, v, by rw [List.append_assoc], ?_, hend⟩
    rw [lang_cons]
    exact Language.mem_mul.mpr ⟨a, ha, b, hb, rfl⟩

theorem at_nil (toEnd : Bool) (text : List UInt8) :
    Pattern.At ⟨[], toEnd⟩ text ↔ (toEnd = true → text = []) := by
  constructor
  · rintro ⟨w, v, rfl, hw, hend⟩ htrue
    have hw : w = [] := hw
    rw [hw, hend htrue, List.append_nil]
  · intro h
    exact ⟨[], text, rfl, rfl, h⟩

theorem at_one :
    (pat.cons (.one c)).At text ↔ ∃ x v, text = x :: v ∧ Accepts c x ∧ pat.At v := by
  rw [at_cons]
  constructor
  · rintro ⟨_, v, rfl, ⟨x, rfl, hx⟩, hv⟩
    exact ⟨x, v, rfl, hx, hv⟩
  · rintro ⟨x, v, rfl, hx, hv⟩
    exact ⟨[x], v, rfl, ⟨x, rfl, hx⟩, hv⟩

theorem at_star :
    (pat.cons (.star c)).At text ↔ ∃ u v, text = u ++ v ∧ (∀ x ∈ u, Accepts c x) ∧ pat.At v := by
  rw [at_cons]
  constructor
  · rintro ⟨u, v, heq, hu, hv⟩
    exact ⟨u, v, heq, mem_kstar_chars.mp hu, hv⟩
  · rintro ⟨u, v, heq, hu, hv⟩
    exact ⟨u, v, heq, mem_kstar_chars.mpr hu, hv⟩

theorem at_star_step :
    (pat.cons (.star c)).At text ↔
      pat.At text ∨ ∃ x v, text = x :: v ∧ Accepts c x ∧ (pat.cons (.star c)).At v := by
  rw [at_star]
  constructor
  · rintro ⟨u, v, rfl, hu, hv⟩
    cases u with
    | nil => exact .inl hv
    | cons x u =>
      refine .inr ⟨x, u ++ v, rfl, hu x List.mem_cons_self, at_star.mpr ⟨u, v, rfl, ?_, hv⟩⟩
      exact fun y hy => hu y (List.mem_cons_of_mem _ hy)
  · rintro (h | ⟨x, t, rfl, hx, ht⟩)
    · exact ⟨[], text, rfl, fun x hx => (List.not_mem_nil hx).elim, h⟩
    · obtain ⟨u, v, rfl, hu, hv⟩ := at_star.mp ht
      refine ⟨x :: u, v, rfl, fun y hy => ?_, hv⟩
      rcases List.mem_cons.mp hy with rfl | hy
      · exact hx
      · exact hu y hy

theorem read_one {re : List UInt8} (hstar : re.headD 0 ≠ STAR) (hend : ¬(c = DOLLAR ∧ re = [])) :
    read (c :: re) = (read re).cons (.one c) := by
  cases re with
  | nil =>
    have hc : c ≠ DOLLAR := fun h => hend ⟨h, rfl⟩
    simp only [read, if_neg hc, Pattern.cons]
  | cons d re =>
    have hd : d ≠ STAR := hstar
    simp only [read, if_neg hd]

end Language

theorem matchstar_iff {c : UInt8} {re : List UInt8} {pat : Pattern}
    (hhere : ∀ text, matchhere re text = true ↔ pat.At (cstring text)) (text : List UInt8) :
    matchstar c re text = true ↔ (pat.cons (.star c)).At (cstring text) := by
  induction text with
  | nil =>
    rw [matchstar, at_star_step, ← hhere]
    by_cases h : matchhere re [] = true
    · simp [h]
    · simp [h, cstring]
  | cons x text ih =>
    rw [matchstar, at_star_step, ← hhere]
    by_cases h : matchhere re (x :: text) = true
    · simp [h]
    · rw [if_neg h, or_iff_right h]
      by_cases hnext : (x :: text).headD 0 ≠ 0 ∧ ((x :: text).headD 0 = c ∨ c = DOT)
      · have hzero : x ≠ 0 := hnext.1
        rw [if_pos hnext, List.tail_cons, ih, cstring_cons hzero]
        constructor
        · intro hrest
          exact ⟨x, _, rfl, hnext.2.symm, hrest⟩
        · rintro ⟨_, _, heq, _, hrest⟩
          obtain ⟨rfl, rfl⟩ := List.cons.inj heq
          exact hrest
      · rw [if_neg hnext]
        constructor
        · intro hfalse
          cases hfalse
        · rintro ⟨y, v, heq, hy, _⟩
          by_cases hzero : x = 0
          · rw [hzero, cstring_zero] at heq
            cases heq
          · rw [cstring_cons hzero] at heq
            obtain ⟨rfl, _⟩ := List.cons.inj heq
            exact absurd ⟨hzero, hy.symm⟩ hnext

theorem matchhere_cons {c : UInt8} (hc : c ≠ 0) (re text : List UInt8) :
    matchhere (c :: re) text =
      if re.headD 0 = STAR then matchstar c re.tail text
      else if c = DOLLAR ∧ re.headD 0 = 0 then decide (text.headD 0 = 0)
      else if text.headD 0 ≠ 0 ∧ (c = DOT ∨ c = text.headD 0) then matchhere re text.tail
      else false := by
  have hhead : ¬(c :: re).headD 0 = 0 := hc
  rw [matchhere, if_neg hhead]
  rfl

-- By induction over the length of the pattern. The cases are the order-sensitive tests
-- of the code.
theorem matchhere_iff (re text : List UInt8) :
    matchhere re text = true ↔ (read (cstring re)).At (cstring text) := by
  induction hn : re.length using Nat.strong_induction_on generalizing re text with
  | _ n ih =>
    subst hn
    by_cases hnil : re.headD 0 = 0
    · rw [matchhere, if_pos hnil, cstring_eq_nil.mpr hnil, read, at_nil]
      simp
    · obtain ⟨c, re, hc, rfl, hre⟩ := cstring_of_head hnil
      rw [matchhere_cons hc, hre]
      by_cases hstar : re.headD 0 = STAR
      · -- the character is starred
        obtain ⟨d, re, hd, rfl, hre'⟩ := cstring_of_head (s := re) (by rw [hstar]; decide)
        have hd : d = STAR := hstar
        rw [if_pos hstar, hre', read, if_pos hd]
        exact matchstar_iff (fun text => ih re.length (by simp) re text rfl) text
      · rw [if_neg hstar]
        by_cases hend : c = DOLLAR ∧ re.headD 0 = 0
        · rw [if_pos hend, cstring_eq_nil.mpr hend.2, hend.1, read, if_pos rfl, at_nil, cstring_eq_nil]
          simp
        · have hhead : (cstring re).headD 0 ≠ STAR := by
            cases hre' : cstring re with
            | nil => decide
            | cons d rest =>
              have hne : re.headD 0 ≠ 0 := fun hzero => by
                rw [cstring_eq_nil.mpr hzero] at hre'
                cases hre'
              obtain ⟨d', re', _, rfl, hd'⟩ := cstring_of_head hne
              rw [hre'] at hd'
              obtain ⟨rfl, _⟩ := List.cons.inj hd'
              exact hstar
          rw [if_neg hend, read_one hhead (by rw [cstring_eq_nil]; exact hend), at_one]
          by_cases hone : text.headD 0 ≠ 0 ∧ (c = DOT ∨ c = text.headD 0)
          · obtain ⟨x, text, hx, rfl, htext⟩ := cstring_of_head hone.1
            rw [if_pos hone, htext, List.tail_cons, ih re.length (by simp) re text rfl]
            constructor
            · intro hrest
              exact ⟨x, _, rfl, hone.2.imp_right Eq.symm, hrest⟩
            · rintro ⟨_, _, heq, _, hrest⟩
              obtain ⟨rfl, rfl⟩ := List.cons.inj heq
              exact hrest
          · rw [if_neg hone]
            constructor
            · intro hfalse
              cases hfalse
            · rintro ⟨x, v, heq, hx, _⟩
              have hne : text.headD 0 ≠ 0 := fun hzero => by
                rw [cstring_eq_nil.mpr hzero] at heq
                cases heq
              obtain ⟨x', text, _, rfl, htext⟩ := cstring_of_head hne
              rw [htext] at heq
              obtain ⟨rfl, _⟩ := List.cons.inj heq
              exact absurd ⟨hne, hx.imp_right Eq.symm⟩ hone

theorem matchFrom_iff (re text : List UInt8) :
    matchFrom re text = true ↔ ∃ u v, cstring text = u ++ v ∧ (read (cstring re)).At v := by
  induction text with
  | nil =>
    rw [matchFrom, matchhere_iff]
    constructor
    · intro h
      exact ⟨[], [], rfl, h⟩
    · rintro ⟨u, v, heq, h⟩
      obtain ⟨rfl, rfl⟩ := List.append_eq_nil_iff.mp heq.symm
      exact h
  | cons x text ih =>
    rw [matchFrom, Bool.or_eq_true, matchhere_iff, Bool.and_eq_true, ih]
    by_cases hzero : x = 0
    · subst hzero
      rw [cstring_zero]
      constructor
      · rintro (h | h)
        · exact ⟨[], [], rfl, h⟩
        · simp at h
      · rintro ⟨u, v, heq, h⟩
        obtain ⟨rfl, rfl⟩ := List.append_eq_nil_iff.mp heq.symm
        exact .inl h
    · rw [cstring_cons hzero]
      constructor
      · rintro (h | ⟨_, u, v, heq, h⟩)
        · exact ⟨[], _, rfl, h⟩
        · exact ⟨x :: u, v, by rw [heq, List.cons_append], h⟩
      · rintro ⟨u, v, heq, h⟩
        cases u with
        | nil =>
          rw [List.nil_append] at heq
          rw [heq]
          exact .inl h
        | cons y u =>
          obtain ⟨_, heq⟩ := List.cons.inj heq
          exact .inr ⟨by simpa using hzero, u, v, heq, h⟩

theorem headD_cstring (s : List UInt8) : (cstring s).headD 0 = s.headD 0 := by
  by_cases h : s.headD 0 = 0
  · rw [cstring_eq_nil.mpr h, h]
    rfl
  · obtain ⟨c, s', _, rfl, hs⟩ := cstring_of_head h
    rw [hs]
    rfl

-- The matcher finds what its patterns describe.
theorem match_iff_found (re text : List UInt8) :
    matchRe re text = true ↔ Found (cstring re) (cstring text) := by
  rw [matchRe, Found]
  simp only [headD_cstring]
  by_cases hcaret : re.headD 0 = CARET
  · obtain ⟨c, re, hc, rfl, hre⟩ := cstring_of_head (s := re) (by rw [hcaret]; decide)
    rw [if_pos hcaret, List.tail_cons, matchhere_iff, hre]
    simp only [if_pos hcaret, List.tail_cons]
    constructor
    · rintro ⟨w, v, heq, hw, hend⟩
      exact ⟨[], w, v, heq, rfl, hw, hend⟩
    · rintro ⟨_, w, v, heq, rfl, hw, hend⟩
      exact ⟨w, v, heq, hw, hend⟩
  · rw [if_neg hcaret, matchFrom_iff]
    simp only [if_neg hcaret]
    constructor
    · rintro ⟨u, _, heq, w, v, rfl, hw, hend⟩
      exact ⟨u, w, v, by rw [heq, List.append_assoc], hw, hend⟩
    · rintro ⟨u, w, v, heq, hw, hend⟩
      exact ⟨u, w ++ v, by rw [heq, List.append_assoc], w, v, rfl, hw, hend⟩

end Xv6Ringbuf.Grep
