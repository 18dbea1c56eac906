import Xv6Ringbuf.Shell.Simulate
import Xv6Ringbuf.Shell.Cursor

namespace Xv6Ringbuf.Shell

section Places

variable {α β : Type}

def Cmd.words : Cmd α → List α
  | .exec argv => argv
  | .redir cmd r => cmd.words ++ [r.file]
  | .pipe left right => left.words ++ right.words
  | .list left right => left.words ++ right.words
  | .back cmd => cmd.words

def Cmd.map (f : α → β) : Cmd α → Cmd β
  | .exec argv => .exec (argv.map f)
  | .redir cmd r => .redir (cmd.map f) ⟨f r.file, r.mode, r.fd⟩
  | .pipe left right => .pipe (left.map f) (right.map f)
  | .list left right => .list (left.map f) (right.map f)
  | .back cmd => .back (cmd.map f)

variable {S : α → β → Prop}

variable {cmd : Cmd α} {cmd' : Cmd β} {f : α → β}

theorem Cmd.Rel.words (h : Cmd.Rel S cmd cmd') :
    ∀ a ∈ cmd.words, ∃ b, S a b := by
  induction h with
  | exec hargv =>
    intro a ha
    obtain ⟨i, hi, rfl⟩ := List.getElem_of_mem ha
    exact ⟨_, hargv.get hi (hargv.length_eq ▸ hi)⟩
  | redir _ hr ih =>
    intro a ha
    cases List.mem_append.mp ha with
    | inl hcmd => exact ih a hcmd
    | inr hfile =>
      cases hr with
      | mk hfile' mode fd =>
        rw [List.mem_singleton.mp hfile]
        exact ⟨_, hfile'⟩
  | pipe _ _ ih ih' | list _ _ ih ih' =>
    intro a ha
    cases List.mem_append.mp ha with
    | inl hleft => exact ih a hleft
    | inr hright => exact ih' a hright
  | back _ ih => exact ih

theorem forall₂_map_eq {as : List α} {bs : List β} (h : List.Forall₂ S as bs)
    (hf : ∀ a ∈ as, ∀ b, S a b → f a = b) : as.map f = bs := by
  induction h with
  | nil => rfl
  | cons hhead _ ih =>
    rw [List.map_cons, hf _ List.mem_cons_self _ hhead,
      ih fun a ha => hf a (List.mem_cons_of_mem _ ha)]

theorem Cmd.Rel.map_eq (h : Cmd.Rel S cmd cmd') (hf : ∀ a ∈ cmd.words, ∀ b, S a b → f a = b) :
    cmd.map f = cmd' := by
  induction h with
  | exec hargv => rw [Cmd.map, forall₂_map_eq hargv hf]
  | redir _ hr ih =>
    cases hr with
    | mk hfile mode fd =>
      rw [Cmd.map, ih fun a ha => hf a (List.mem_append_left _ ha),
        hf _ (List.mem_append_right _ (List.mem_singleton_self _)) _ hfile]
  | pipe _ _ ih ih' | list _ _ ih ih' =>
    rw [Cmd.map, ih fun a ha => hf a (List.mem_append_left _ ha),
      ih' fun a ha => hf a (List.mem_append_right _ ha)]
  | back _ ih => rw [Cmd.map, ih hf]

end Places

def cstr (buf : Text) (q : Nat) : Text := (buf.drop q).takeWhile (· ≠ 0)

def readBack (buf : Text) (cmd : Cmd (Nat × Nat)) : Cmd Text := cmd.map fun place => cstr buf place.1

def putNul (buf : Text) (ends : List Nat) : Text := ends.foldl (fun buf i => buf.set i 0) buf

theorem nulterminate_eq (cmd : Cmd (Nat × Nat)) (buf : Text) :
    nulterminate cmd buf = putNul buf (cmd.words.map Prod.snd) := by
  induction cmd generalizing buf with
  | exec argv => rw [nulterminate, Cmd.words, putNul, List.foldl_map]
  | redir cmd r ih => rw [nulterminate, ih, Cmd.words, List.map_append, putNul, putNul, List.foldl_append]; rfl
  | pipe left right ih ih' | list left right ih ih' =>
    rw [nulterminate, ih, ih', Cmd.words, List.map_append, putNul, putNul, putNul, List.foldl_append]
  | back cmd ih => rw [nulterminate, ih, Cmd.words]

variable {ends : List Nat} {i : Nat}

theorem putNul_of_notMem (h : i ∉ ends) (buf : Text) :
    (putNul buf ends)[i]? = buf[i]? := by
  induction ends generalizing buf with
  | nil => rfl
  | cons e ends ih =>
    rw [putNul, List.foldl_cons, ← putNul, ih (List.not_mem_of_not_mem_cons h),
      List.getElem?_set_ne (Ne.symm (List.ne_of_not_mem_cons h))]

theorem putNul_of_mem (h : i ∈ ends) (buf : Text) {c : UInt8} (hc : (putNul buf ends)[i]? = some c) :
    c = 0 := by
  induction ends generalizing buf with
  | nil => cases h
  | cons e ends ih =>
    rw [putNul, List.foldl_cons, ← putNul] at hc
    by_cases hmem : i ∈ ends
    · exact ih hmem _ hc
    · obtain rfl : i = e := (List.mem_cons.mp h).resolve_right hmem
      rw [putNul_of_notMem hmem, List.getElem?_set_self'] at hc
      obtain ⟨_, _, rfl⟩ := Option.map_eq_some_iff.mp hc
      rfl

theorem cstr_eq {buf word : Text} {q : Nat} (hbody : ∀ i < word.length, buf[q + i]? = word[i]?)
    (hword : ∀ c ∈ word, c ≠ 0) (hend : ∀ c, buf[q + word.length]? = some c → c = 0) :
    cstr buf q = word := by
  induction word generalizing q with
  | nil =>
    rw [cstr, List.takeWhile_eq_nil_iff]
    intro hpos hne
    have hzero := hend _ (List.getElem?_eq_getElem (show q + 0 < buf.length by grind))
    grind
  | cons c word ih =>
    have hhead : buf[q]? = some c := hbody 0 (Nat.zero_lt_succ _)
    obtain ⟨hlt, hget⟩ := List.getElem?_eq_some_iff.mp hhead
    have htail : cstr buf (q + 1) = word := by
      apply ih
      · intro i hi
        rw [Nat.add_assoc, Nat.add_comm 1 i]
        exact hbody (i + 1) (Nat.succ_lt_succ hi)
      · intro d hd
        exact hword d (List.mem_cons_of_mem _ hd)
      · intro d hd
        rw [Nat.add_assoc, Nat.add_comm 1] at hd
        exact hend d hd
    rw [cstr, List.drop_eq_getElem_cons hlt, hget,
      List.takeWhile_cons_of_pos (by simpa using hword c List.mem_cons_self)]
    exact congrArg (c :: ·) htail

section Words

variable {text : Text} {place : Nat × Nat} {word : Text}

theorem Spans.split (h : Spans text place word) :
    word ++ (text.drop place.1).dropWhile isWord = text.drop place.1 := by
  rw [← h.1, List.takeWhile_append_dropWhile]

theorem Spans.body (h : Spans text place word) {i : Nat} (hi : i < word.length) :
    text[place.1 + i]? = word[i]? := by
  rw [← List.getElem?_drop, ← h.split, List.getElem?_append_left hi]

theorem Spans.isWord (h : Spans text place word) {c : UInt8} (hc : c ∈ word) :
    Shell.isWord c = true := by
  rw [← h.1] at hc
  exact List.mem_takeWhile_imp hc

theorem Spans.stops (h : Spans text place word) {c : UInt8} (hc : text[place.2]? = some c) :
    Shell.isWord c = false := by
  have hnot := List.head?_dropWhile_not Shell.isWord (text.drop place.1)
  rw [h.2, ← List.getElem?_drop, ← h.split, List.getElem?_append_right (Nat.le_refl _),
    Nat.sub_self, ← List.head?_eq_getElem?] at hc
  rw [hc] at hnot
  exact hnot

end Words

-- No character of a word is overwritten, since words end where no word is, and the
-- character behind each word is. So each place reads as its word.
theorem readBack_eq {text : Text} {cmd : Cmd (Nat × Nat)} {cmd' : Cmd Text}
    (htext : ∀ c ∈ text, c ≠ 0) (h : Cmd.Rel (Spans text) cmd cmd') :
    readBack (nulterminate cmd (text ++ [0])) cmd = cmd' := by
  apply h.map_eq
  intro place hplace word hspans
  rw [nulterminate_eq]
  have hbuf : ∀ i < word.length, (text ++ [0])[place.1 + i]? = word[i]? := by
    intro i hi
    have hget := hspans.body hi
    rw [List.getElem?_eq_getElem hi] at hget
    rw [List.getElem?_append_left (List.getElem?_eq_some_iff.mp hget).1, hget,
      List.getElem?_eq_getElem hi]
  apply cstr_eq
  · intro i hi
    have hfree : place.1 + i ∉ cmd.words.map Prod.snd := by
      intro hmem
      obtain ⟨other, hother, hend⟩ := List.mem_map.mp hmem
      obtain ⟨word', hspans'⟩ := h.words other hother
      have hget := hspans.body hi
      rw [← hend, List.getElem?_eq_getElem hi] at hget
      have hyes := hspans.isWord (List.getElem_mem hi)
      rw [hspans'.stops hget] at hyes
      cases hyes
    rw [putNul_of_notMem hfree, hbuf i hi]
  · intro c hc
    have hmem : c ∈ text.drop place.1 := by
      rw [← hspans.split]
      exact List.mem_append_left _ hc
    exact htext c (List.mem_of_mem_drop hmem)
  · intro c hc
    rw [← hspans.2] at hc
    exact putNul_of_mem (List.mem_map_of_mem hplace) _ hc

end Xv6Ringbuf.Shell
