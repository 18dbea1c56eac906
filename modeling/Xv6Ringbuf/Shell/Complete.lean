import Xv6Ringbuf.Shell.Sound

namespace Xv6Ringbuf.Shell

open Machine

section Branches

variable {α β : Type} {ts : List (Token α)} {E : Stop → Prop} {Q : β → List (Token α) → Prop}
  {toks : List Sym} {x y : M Stop (List (Token α)) β}

theorem look_yes_wp {t : Token α} (h : toks.any (starts t) = true) (hx : wp x (t :: ts) Q E) :
    wp (look stream toks >>= fun found => if found then x else y) (t :: ts) Q E := by
  apply look_wp
  · intro _ _ _ _
    exact hx
  · intro hnot
    rw [hnot t ts rfl] at h
    cases h

theorem look_no_wp (h : ∀ t rest, ts = t :: rest → toks.any (starts t) = false) (hy : wp y ts Q E) :
    wp (look stream toks >>= fun found => if found then x else y) ts Q E := by
  apply look_wp
  · intro t rest heq hfound
    rw [h t rest heq] at hfound
    cases hfound
  · intro _
    exact hy

end Branches

def Before (syms : List Sym) (ts : List (Token Text)) : Prop :=
  ∀ t rest, ts = t :: rest → ∃ s ∈ syms, t = .sym s

variable {syms toks : List Sym} {ts read : List (Token Text)} {rs : List (Redir Text)} {fuel : Nat}
  {words : List Text}

theorem Before.mono {syms' : List Sym} (h : Before syms ts) (hsub : syms ⊆ syms') : Before syms' ts := by
  intro t rest heq
  obtain ⟨s, hs, ht⟩ := h t rest heq
  exact ⟨s, hsub hs, ht⟩

theorem before_cons {s : Sym} (hs : s ∈ syms) (ts : List (Token Text)) :
    Before syms (.sym s :: ts) := by
  intro t rest heq
  exact ⟨s, hs, (List.cons.inj heq).1.symm⟩

def Avoids (toks : List Sym) (ts : List (Token Text)) : Prop :=
  ∀ t rest, ts = t :: rest → toks.any (starts t) = false

theorem Before.avoids (h : Before syms ts)
    (hdisjoint : ∀ s ∈ syms, toks.any (starts (.sym s : Token Text)) = false) : Avoids toks ts := by
  intro t rest heq
  obtain ⟨s, hs, rfl⟩ := h t rest heq
  exact hdisjoint s hs

def Gives {β : Type} (parser : M Stop (List (Token Text)) β) (read : List (Token Text)) (value : β)
    (ts : List (Token Text)) : Prop :=
  wp parser (read ++ ts) (fun value' ts' => value' = value ∧ ts' = ts) fun _ => False

theorem Operator.peek {op : Token Text} {mode fd : Nat} (h : Operator op mode fd) :
    [Sym.less, .greater].any (starts op) = true ∧
      ∀ word, redircmd (some op) word = [⟨word, mode, fd⟩] := by
  cases h with
  | input => exact ⟨rfl, fun _ => rfl⟩
  | output => exact ⟨rfl, fun _ => rfl⟩
  | append => exact ⟨rfl, fun _ => rfl⟩

theorem parseredirs_complete (h : Redirs read rs) (hts : Avoids [.less, .greater] ts)
    (hfuel : read.length < fuel) : Gives (parseredirs stream fuel) read rs ts := by
  induction h generalizing fuel with
  | nil =>
    obtain ⟨fuel, rfl⟩ := Nat.exists_eq_succ_of_ne_zero (Nat.ne_of_gt hfuel)
    rw [Gives, parseredirs]
    exact look_no_wp hts (wp_pure ⟨rfl, rfl⟩)
  | @cons op mode fd word read rs hop hrest ih =>
    obtain ⟨hpeek, hredir⟩ := hop.peek
    rw [List.length_cons, List.length_cons] at hfuel
    obtain ⟨fuel, rfl⟩ := Nat.exists_eq_succ_of_ne_zero (show fuel ≠ 0 by omega)
    rw [Gives, parseredirs]
    apply look_yes_wp hpeek
    apply next_wp
    apply next_wp
    apply wp_bind
    apply wp_pure
    refine wp_call (ih (show read.length < fuel by omega)) ?_
    rintro _ _ ⟨rfl, rfl⟩
    apply wp_pure
    rw [List.head?_cons, hredir word]
    exact ⟨rfl, rfl⟩

theorem word_avoids (toks : List Sym) (word : Text) (ts : List (Token Text)) :
    Avoids toks (.word word :: ts) := by
  intro t rest heq
  rw [← (List.cons.inj heq).1]
  exact List.any_eq_false.mpr fun _ _ h => Bool.false_ne_true h

theorem Args.avoids (h : Args read words rs) (hts : Avoids toks ts) :
    Avoids toks (read ++ ts) := by
  cases h with
  | nil => exact hts
  | cons hredirs hrest => exact word_avoids toks _ _

theorem parseargs_complete (h : Args read words rs) (hts : Before [.bar, .rparen, .amp, .semi] ts)
    {argc : Nat} (hfuel : read.length < fuel) (hwords : argc + words.length ≤ MAXARGS - 1) :
    Gives (parseargs stream fuel argc) read (words, rs) ts := by
  induction h generalizing fuel argc with
  | nil =>
    obtain ⟨fuel, rfl⟩ := Nat.exists_eq_succ_of_ne_zero (Nat.ne_of_gt hfuel)
    rw [Gives, parseargs]
    apply look_wp
    · intro _ _ _ _
      exact wp_pure ⟨rfl, rfl⟩
    · intro hnot
      apply next_wp
      cases ts with
      | nil => exact wp_pure ⟨rfl, rfl⟩
      | cons t ts =>
        -- such a token would have ended the loop
        obtain ⟨s, hs, rfl⟩ := hts t ts rfl
        have hfalse := hnot _ _ rfl
        simp only [List.mem_cons, List.not_mem_nil, or_false] at hs
        rcases hs with rfl | rfl | rfl | rfl <;> cases hfalse
  | @cons word read read' words rs rs' hredirs hrest ih =>
    rw [List.length_cons, List.length_append] at hfuel
    rw [List.length_cons] at hwords
    obtain ⟨fuel, rfl⟩ := Nat.exists_eq_succ_of_ne_zero (show fuel ≠ 0 by omega)
    have hfew : ¬argc + 1 ≥ MAXARGS := by
      have hmax : MAXARGS - 1 < MAXARGS := by decide
      omega
    rw [Gives, parseargs]
    apply look_no_wp
    · exact word_avoids _ word _
    · apply next_wp
      show wp (if argc + 1 ≥ MAXARGS then throw (.panic "too many args") else do
        let rs ← parseredirs stream fuel
        let rest ← parseargs stream fuel (argc + 1)
        pure (word :: rest.1, rs ++ rest.2)) (read ++ read' ++ ts) _ _
      rw [if_neg hfew, List.append_assoc]
      apply wp_bind
      have havoids : Avoids [.less, .greater] (read' ++ ts) :=
        hrest.avoids (hts.avoids (by decide))
      apply (parseredirs_complete hredirs havoids (show read.length < fuel by omega)).mono _
        (fun _ he => he)
      rintro _ _ ⟨rfl, rfl⟩
      apply wp_bind
      apply (ih (show read'.length < fuel by omega) (show argc + 1 + words.length ≤ _ by omega)).mono
        _ (fun _ he => he)
      rintro _ _ ⟨rfl, rfl⟩
      exact wp_pure ⟨rfl, rfl⟩

theorem parsebacks_complete (k : Nat) (cmd : Cmd Text) (hts : Avoids [.amp] ts) (hfuel : k < fuel) :
    Gives (parsebacks stream fuel cmd) (amps k) (backs k cmd) ts := by
  induction k generalizing cmd fuel with
  | zero =>
    obtain ⟨fuel, rfl⟩ := Nat.exists_eq_succ_of_ne_zero (Nat.ne_of_gt hfuel)
    rw [Gives, parsebacks]
    exact look_no_wp hts (wp_pure ⟨rfl, rfl⟩)
  | succ k ih =>
    obtain ⟨fuel, rfl⟩ := Nat.exists_eq_succ_of_ne_zero (show fuel ≠ 0 by omega)
    rw [Gives, parsebacks]
    apply look_yes_wp rfl
    apply next_wp
    exact ih (.back cmd) (show k < fuel by omega)

theorem Redirs.avoids_lparen (h : Redirs read rs) (hts : Avoids [.lparen] ts) :
    Avoids [.lparen] (read ++ ts) := by
  cases h with
  | nil => exact hts
  | cons hop hrest =>
    intro t rest heq
    rw [← (List.cons.inj heq).1]
    cases hop with
    | input => rfl
    | output => rfl
    | append => rfl

def follow : Part → List Sym
  | .line => [.rparen]
  | .pipe => [.rparen, .amp, .semi]
  | .exec => [.bar, .rparen, .amp, .semi]

def parser : Part → Nat → M Stop (List (Token Text)) (Cmd Text)
  | .line => parseline stream
  | .pipe => parsepipe stream
  | .exec => parseexec stream

def extra : Part → Nat
  | .line => 4
  | .pipe => 3
  | .exec => 2

def Complete (part : Part) (read : List (Token Text)) (cmd : Cmd Text) : Prop :=
  ∀ ts fuel, Before (follow part) ts → 4 * read.length + extra part < fuel →
    Gives (parser part fuel) read cmd ts

section Cases

variable {read read' : List (Token Text)} {cmd cmd' : Cmd Text}

theorem Complete.block {rs : List (Redir Text)} (hline : Complete .line read cmd)
    (hredirs : Redirs read' rs) :
    Complete .exec (.sym .lparen :: (read ++ .sym .rparen :: read')) (wrap cmd rs) := by
  intro ts fuel hts hfuel
  rw [extra, List.length_cons, List.length_append, List.length_cons] at hfuel
  obtain ⟨fuel, rfl⟩ := Nat.exists_eq_succ_of_ne_zero (show fuel ≠ 0 by omega)
  obtain ⟨fuel, rfl⟩ := Nat.exists_eq_succ_of_ne_zero (show fuel ≠ 0 by omega)
  rw [Gives, parser, parseexec, List.cons_append, List.append_assoc, List.cons_append]
  apply look_yes_wp rfl
  rw [parseblock]
  apply look_yes_wp rfl
  apply next_wp
  apply wp_bind
  apply (hline (.sym .rparen :: (read' ++ ts)) fuel (before_cons List.mem_cons_self _)
    (by rw [extra]; omega)).mono _ (fun _ he => he)
  rintro _ _ ⟨rfl, rfl⟩
  apply look_yes_wp rfl
  apply next_wp
  apply wp_bind
  apply (parseredirs_complete hredirs (hts.avoids (by decide)) (show read'.length < fuel by omega)).mono
    _ (fun _ he => he)
  rintro _ _ ⟨rfl, rfl⟩
  exact wp_pure ⟨rfl, rfl⟩

theorem complete_simple {words : List Text} {rs rs' : List (Redir Text)} (hredirs : Redirs read rs)
    (hargs : Args read' words rs') (hwords : words.length ≤ MAXARGS - 1) :
    Complete .exec (read ++ read') (wrap (.exec words) (rs ++ rs')) := by
  intro ts fuel hts hfuel
  rw [extra, List.length_append] at hfuel
  obtain ⟨fuel, rfl⟩ := Nat.exists_eq_succ_of_ne_zero (show fuel ≠ 0 by omega)
  rw [Gives, parser, parseexec, List.append_assoc]
  apply look_no_wp
  · exact hredirs.avoids_lparen (hargs.avoids (hts.avoids (by decide)))
  · apply wp_bind
    apply (parseredirs_complete hredirs (hargs.avoids (hts.avoids (by decide)))
      (show read.length < fuel by omega)).mono _ (fun _ he => he)
    rintro _ _ ⟨rfl, rfl⟩
    apply wp_bind
    apply (parseargs_complete hargs hts (show read'.length < fuel by omega)
      (by rw [Nat.zero_add]; exact hwords)).mono _ (fun _ he => he)
    rintro _ _ ⟨rfl, rfl⟩
    exact wp_pure ⟨rfl, rfl⟩

theorem Complete.last (hexec : Complete .exec read cmd) : Complete .pipe read cmd := by
  intro ts fuel hts hfuel
  rw [extra] at hfuel
  obtain ⟨fuel, rfl⟩ := Nat.exists_eq_succ_of_ne_zero (show fuel ≠ 0 by omega)
  rw [Gives, parser, parsepipe]
  refine wp_call (hexec ts fuel (hts.mono (by decide)) (by rw [extra]; omega)) ?_
  rintro _ _ ⟨rfl, rfl⟩
  exact look_no_wp (hts.avoids (by decide)) (wp_pure ⟨rfl, rfl⟩)

theorem Complete.pipe (hexec : Complete .exec read cmd) (hpipe : Complete .pipe read' cmd') :
    Complete .pipe (read ++ .sym .bar :: read') (.pipe cmd cmd') := by
  intro ts fuel hts hfuel
  rw [extra, List.length_append, List.length_cons] at hfuel
  obtain ⟨fuel, rfl⟩ := Nat.exists_eq_succ_of_ne_zero (show fuel ≠ 0 by omega)
  rw [Gives, parser, parsepipe, List.append_assoc, List.cons_append]
  refine wp_call (hexec _ fuel (before_cons (by decide) _) (by rw [extra]; omega)) ?_
  rintro _ _ ⟨rfl, rfl⟩
  apply look_yes_wp rfl
  apply next_wp
  refine wp_call (hpipe ts fuel hts (by rw [extra]; omega)) ?_
  rintro _ _ ⟨rfl, rfl⟩
  exact wp_pure ⟨rfl, rfl⟩

theorem length_amps (k : Nat) : (amps k).length = k := List.length_replicate

theorem before_amps (k : Nat) {ts : List (Token Text)} (hts : Before (follow .pipe) ts) :
    Before (follow .pipe) (amps k ++ ts) := by
  cases k with
  | zero => exact hts
  | succ k => exact before_cons (by decide) _

theorem Complete.single (k : Nat) (hpipe : Complete .pipe read cmd) :
    Complete .line (read ++ amps k) (backs k cmd) := by
  intro ts fuel hts hfuel
  rw [extra, List.length_append, length_amps] at hfuel
  obtain ⟨fuel, rfl⟩ := Nat.exists_eq_succ_of_ne_zero (show fuel ≠ 0 by omega)
  rw [Gives, parser, parseline, List.append_assoc]
  apply wp_bind
  apply (hpipe (amps k ++ ts) fuel (before_amps k (hts.mono (by decide)))
    (by rw [extra]; omega)).mono _ (fun _ he => he)
  rintro _ _ ⟨rfl, rfl⟩
  refine wp_call (parsebacks_complete k _ (hts.avoids (by decide)) (show k < fuel by omega)) ?_
  rintro _ _ ⟨rfl, rfl⟩
  exact look_no_wp (hts.avoids (by decide)) (wp_pure ⟨rfl, rfl⟩)

theorem Complete.list (k : Nat) (hpipe : Complete .pipe read cmd) (hline : Complete .line read' cmd') :
    Complete .line (read ++ (amps k ++ .sym .semi :: read')) (.list (backs k cmd) cmd') := by
  intro ts fuel hts hfuel
  rw [extra, List.length_append, List.length_append, List.length_cons, length_amps] at hfuel
  obtain ⟨fuel, rfl⟩ := Nat.exists_eq_succ_of_ne_zero (show fuel ≠ 0 by omega)
  rw [Gives, parser, parseline, List.append_assoc, List.append_assoc, List.cons_append]
  refine wp_call (hpipe _ fuel (before_amps k (before_cons (by decide) _)) (by rw [extra]; omega)) ?_
  rintro _ _ ⟨rfl, rfl⟩
  apply wp_bind
  have hbefore : Before [.semi] (.sym .semi :: (read' ++ ts)) := before_cons List.mem_cons_self _
  have hsemi : Avoids [.amp] (.sym .semi :: (read' ++ ts)) := hbefore.avoids (by decide)
  apply (parsebacks_complete k _ hsemi (show k < fuel by omega)).mono _ (fun _ he => he)
  rintro _ _ ⟨rfl, rfl⟩
  apply look_yes_wp rfl
  apply next_wp
  refine wp_call (hline ts fuel hts (by rw [extra]; omega)) ?_
  rintro _ _ ⟨rfl, rfl⟩
  exact wp_pure ⟨rfl, rfl⟩

end Cases

theorem Derives.complete {part : Part} {read : List (Token Text)} {cmd : Cmd Text}
    (h : Derives part read cmd) : Complete part read cmd := by
  induction h with
  | block _ hredirs ih => exact ih.block hredirs
  | simple hredirs hargs hwords => exact complete_simple hredirs hargs hwords
  | last _ ih => exact ih.last
  | pipe _ _ ih ih' => exact ih.pipe ih'
  | single k _ ih => exact ih.single k
  | list k _ _ ih ih' => exact ih.list k ih'

end Xv6Ringbuf.Shell
