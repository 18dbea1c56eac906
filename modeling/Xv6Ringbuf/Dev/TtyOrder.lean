import Xv6Ringbuf.Dev.Chunk

namespace Xv6Ringbuf.Dev

open Trace Function

-- What one stretch of a call of `p` does: it takes `bytes`, and `mark` if that is
-- an end-of-file mark that it takes, and goes on or returns.
section Serve

variable {t : Tty} {p : Pid} {killed : Bool} {read : Read}

variable {input bytes marks : List UInt8} {stop : Stop} {t' : Tty}

theorem marked_bytes {n : Nat} {got : List UInt8} (h : Chunk n input bytes stop)
    (hread : read.got = got ++ bytes) :
    bytes ++ read.mark stop <+: input := by
  cases stop with
  | full | newline | dry =>
    rw [Read.mark, List.append_nil]
    exact h.within
  | mark =>
    rw [Read.mark]
    by_cases hnone : read.got = []
    · have hbytes : bytes = [] := (List.append_eq_nil_iff.mp (hread ▸ hnone)).2
      obtain ⟨_, _, hnext⟩ := h.mark rfl
      rw [if_pos hnone, hbytes, List.nil_append]
      rw [hbytes, List.length_nil] at hnext
      cases input with
      | nil => cases hnext
      | cons c input =>
        rw [List.getElem?_cons_zero] at hnext
        rw [Option.some.inj hnext]
        exact ⟨input, rfl⟩
    · rw [if_neg hnone, List.append_nil]
      exact h.within

theorem append_drop_prefix {α : Type} {xs ys zs : List α} (h : xs <+: zs)
    (h' : ys <+: zs.drop xs.length) : xs ++ ys <+: zs := by
  obtain ⟨rest, rfl⟩ := h
  rw [List.drop_left] at h'
  exact (List.prefix_append_right_inj xs).mpr h'

theorem serve_inOrder (h : t.Orderly) :
    (t.serve p killed read).taken.map Prod.snd <+: (t.serve p killed read).committed := by
  have hpart : (chunk read.n t.unread).1 ++
      (read.gain (chunk read.n t.unread).1).mark (chunk read.n t.unread).2 <+: t.unread :=
    marked_bytes (chunk_spec read.n t.unread) rfl
  have hmap : (t.serve p killed read).taken.map Prod.snd = t.taken.map Prod.snd ++
      ((chunk read.n t.unread).1 ++
        (read.gain (chunk read.n t.unread).1).mark (chunk read.n t.unread).2) := by
    rw [Tty.serve, List.map_append, List.map_map, comp_def, List.map_id']
  rw [hmap]
  apply append_drop_prefix h.inOrder
  rw [List.length_map]
  exact hpart

theorem mark_eq (read : Read) (stop : Stop) : ∀ c ∈ read.mark stop, c = C 'D' := by
  intro c hc
  cases stop with
  | full | newline | dry => cases hc
  | mark =>
    rw [Read.mark] at hc
    split at hc
    · exact List.mem_singleton.mp hc
    · cases hc

theorem deliveredTo_append (q : Pid) {entries : List (Pid × UInt8)}
    (htaken : t'.taken = t.taken ++ entries)
    (hentries : entries = (bytes ++ marks).map fun c => (p, c)) (hbytes : ∀ c ∈ bytes, c ≠ C 'D')
    (hmarks : ∀ c ∈ marks, c = C 'D') :
    t'.deliveredTo q = t.deliveredTo q ++ if q = p then bytes else [] := by
  rw [Tty.deliveredTo, htaken, List.filter_append, List.map_append, ← Tty.deliveredTo, hentries,
    List.map_append, List.filter_append, List.filter_map, List.filter_map]
  by_cases hq : q = p
  · have hall : bytes.filter ((fun entry => decide (entry.1 = q ∧ entry.2 ≠ C 'D')) ∘
        fun c => (p, c)) = bytes := by
      apply List.filter_eq_self.mpr
      intro c hc
      exact decide_eq_true ⟨hq.symm, hbytes c hc⟩
    have hnone : marks.filter ((fun entry => decide (entry.1 = q ∧ entry.2 ≠ C 'D')) ∘
        fun c => (p, c)) = [] := by
      apply List.filter_eq_nil_iff.mpr
      intro c hc hkept
      exact (of_decide_eq_true hkept).2 (hmarks c hc)
    rw [hall, hnone, if_pos hq, List.map_nil, List.append_nil, List.map_map, comp_def,
      List.map_id']
  · have hnone : ∀ cs : List UInt8,
        cs.filter ((fun entry => decide (entry.1 = q ∧ entry.2 ≠ C 'D')) ∘ fun c => (p, c)) = [] := by
      intro cs
      apply List.filter_eq_nil_iff.mpr
      intro c _ hkept
      exact hq (of_decide_eq_true hkept).1.symm
    rw [hnone, hnone, if_neg hq, List.map_nil, List.append_nil, List.map_nil]

theorem gotBy_onward (q : Pid) {fate : Fate} {k : Nat} (hread : t.reads p = some read)
    (hreads : t'.reads = update t.reads p (onward p fate (read.gain bytes)).1)
    (hends : t'.ends = t.ends ++ (onward p fate (read.gain bytes)).2.map fun ret => (ret, k)) :
    t'.gotBy q = t.gotBy q ++ if q = p then bytes else [] := by
  rw [Tty.gotBy, Tty.gotBy, hends, hreads, List.filter_append, List.map_append, List.flatten_append]
  by_cases hq : q = p
  · subst hq
    rw [update_self, hread, if_pos rfl]
    cases fate with
    | asleep => simp [onward, Read.gain]
    | killed | returned => simp [onward, Read.gain]
  · rw [update_of_ne hq, if_neg hq, List.append_nil]
    have hother : ¬p = q := fun h => hq h.symm
    cases fate with
    | asleep => simp [onward]
    | killed | returned => simp [onward, hother]

theorem serve_delivered (h : t.Orderly) (hread : t.reads p = some read) (q : Pid) :
    (t.serve p killed read).deliveredTo q = (t.serve p killed read).gotBy q := by
  have hchunk := chunk_spec read.n t.unread
  have htaken : (t.serve p killed read).deliveredTo q =
      t.deliveredTo q ++ if q = p then (chunk read.n t.unread).1 else [] :=
    deliveredTo_append q rfl rfl hchunk.not_mark (mark_eq _ _)
  have hgot : (t.serve p killed read).gotBy q =
      t.gotBy q ++ if q = p then (chunk read.n t.unread).1 else [] :=
    gotBy_onward q hread rfl rfl
  rw [htaken, hgot, h.delivered q]

theorem gain_target (hgoing : read.Going) (hle : bytes.length ≤ read.n) :
    (read.gain bytes).got.length + (read.gain bytes).n = (read.gain bytes).target := by
  have hlen : read.got.length + read.n = read.target := hgoing.length
  simp only [Read.gain, List.length_append]
  omega

theorem marks_append (t' : Tty) (htaken : t'.taken = t.taken ++ (bytes ++ marks).map fun c => (p, c))
    (hbytes : ∀ c ∈ bytes, c ≠ C 'D') (hmarks : marks = [] ∨ marks = [C 'D']) :
    t'.marks = t.marks ++ marks.map fun _ => (p, t'.taken.length) := by
  have hnone : ∀ k : Nat, ((bytes.map fun c => (p, c)).zipIdx k).filter
      (fun entry => decide (entry.1.2 = C 'D')) = [] := by
    intro k
    apply List.filter_eq_nil_iff.mpr
    intro entry hentry hkept
    obtain ⟨c, hc, hpair⟩ := List.mem_map.mp (List.fst_mem_of_mem_zipIdx hentry)
    rw [← hpair] at hkept
    exact hbytes c hc (of_decide_eq_true hkept)
  rw [Tty.marks, htaken, List.map_append, List.zipIdx_append, List.filter_append, List.map_append,
    ← Tty.marks, List.zipIdx_append, List.filter_append, hnone, List.nil_append]
  rcases hmarks with rfl | rfl
  · rfl
  · have hlen : 1 + t.taken.length + bytes.length = t.taken.length + (bytes.length + 1) := by omega
    simp [hlen]

theorem mark_cases (read : Read) (stop : Stop) :
    read.mark stop = [] ∨ read.mark stop = [C 'D'] := by
  cases stop with
  | full | newline | dry => exact .inl rfl
  | mark =>
    rw [Read.mark]
    by_cases hnone : read.got = []
    · exact .inr (if_pos hnone)
    · exact .inl (if_neg hnone)

theorem onward_empty (p : Pid) (killed : Bool) (h : Chunk read.n input bytes stop)
    (hgoing : read.Going) :
    ((onward p (stop.fate killed) (read.gain bytes)).2.filter fun ret => ret.value = 0).map
        Return.pid = ((read.gain bytes).mark stop).map fun _ => p := by
  have hsum := gain_target hgoing h.length_le
  have hgot : (read.gain bytes).got.length = read.got.length + bytes.length := by
    rw [Read.gain, List.length_append]
  have hleft : 0 < read.n := hgoing.left
  have hvalue : ((read.gain bytes).target : Int) - (read.gain bytes).n = 0 ↔
      (read.gain bytes).got = [] := by
    rw [← List.length_eq_zero_iff]
    omega
  cases stop with
  | dry =>
    cases killed with
    | true => rfl
    | false => rfl
  | full =>
    have hlen : bytes.length = read.n := (h.full rfl).2
    have hsome : (read.gain bytes).got ≠ [] := by
      intro hnone
      rw [hnone, List.length_nil] at hgot
      omega
    simp [Stop.fate, onward, Read.mark, hvalue, hsome]
  | newline =>
    obtain ⟨body, hbody, _, _⟩ := h.newline rfl
    have hsome : (read.gain bytes).got ≠ [] := by
      intro hnone
      rw [hnone, List.length_nil, hbody, List.length_append, List.length_singleton] at hgot
      omega
    simp [Stop.fate, onward, Read.mark, hvalue, hsome]
  | mark =>
    by_cases hnone : (read.gain bytes).got = []
    · simp [Stop.fate, onward, Read.mark, hvalue, hnone]
    · simp [Stop.fate, onward, Read.mark, hvalue, hnone]

theorem serve_marks (h : t.Orderly) (hread : t.reads p = some read) :
    (t.serve p killed read).marks = (t.serve p killed read).emptyReads := by
  have hchunk := chunk_spec read.n t.unread
  have hempty := onward_empty p killed hchunk (h.going p read hread)
  rw [marks_append (t.serve p killed read) rfl hchunk.not_mark (mark_cases _ _), h.marks]
  generalize hlen : (t.serve p killed read).taken.length = k
  have hends : (t.serve p killed read).ends = t.ends ++
      (onward p ((chunk read.n t.unread).2.fate killed)
        (read.gain (chunk read.n t.unread).1)).2.map fun ret => (ret, k) := by
    rw [← hlen]
    rfl
  rw [Tty.emptyReads, Tty.emptyReads, hends, List.filter_append, List.map_append, List.filter_map,
    List.map_map]
  congr 1
  have hpairs := congrArg (List.map fun q => (q, k)) hempty
  rw [List.map_map, List.map_map] at hpairs
  exact hpairs.symm

theorem serve_going (h : t.Orderly) (hread : t.reads p = some read) (q : Pid) (read' : Read)
    (hread' : (t.serve p killed read).reads q = some read') : read'.Going := by
  have hchunk := chunk_spec read.n t.unread
  have hgoing := h.going p read hread
  by_cases hq : q = p
  · subst hq
    rw [Tty.serve] at hread'
    simp only [update_self] at hread'
    generalize chunk read.n t.unread = part at hchunk hread'
    obtain ⟨bytes, stop⟩ := part
    have hsum := gain_target hgoing hchunk.length_le
    cases stop with
    | full | newline | mark => cases hread'
    | dry =>
      cases killed with
      | true => cases hread'
      | false =>
        obtain rfl := Option.some.inj hread'
        obtain ⟨hplain, hlen, _⟩ := hchunk.dry rfl
        exact ⟨hsum, Nat.sub_pos_of_lt hlen, hgoing.plain.append hplain⟩
  · rw [Tty.serve] at hread'
    simp only [update_of_ne hq] at hread'
    exact h.going q read' hread'

theorem serve_ends (h : t.Orderly) (hread : t.reads p = some read) :
    ∀ last ∈ (t.serve p killed read).ends, last.1.value ≠ -1 →
      last.1.value = last.1.read.got.length ∧
        Ending t.committed last.1.read.target last.2 last.1.read.got := by
  intro last hlast hvalue
  have hchunk := chunk_spec read.n t.unread
  have hgoing := h.going p read hread
  rw [Tty.serve] at hlast
  generalize chunk read.n t.unread = part at hchunk hlast
  obtain ⟨bytes, stop⟩ := part
  have hsum : (read.gain bytes).got.length + (read.gain bytes).n = (read.gain bytes).target :=
    gain_target hgoing hchunk.length_le
  have hreturned : ((read.gain bytes).target : Int) - (read.gain bytes).n =
      (read.gain bytes).got.length := by omega
  rcases List.mem_append.mp hlast with hold | hnew
  · exact h.ends last hold hvalue
  obtain ⟨ret, hret, rfl⟩ := List.mem_map.mp hnew
  have hdrop : ∀ i, t.unread[i]? = t.committed[t.taken.length + i]? := fun _ => List.getElem?_drop
  simp only [List.length_append, List.length_map] at hvalue ⊢
  cases stop with
  | dry =>
    cases killed with
    | true =>
      obtain rfl := List.mem_singleton.mp hret
      exact absurd rfl hvalue
    | false => cases hret
  | full =>
    obtain rfl := List.mem_singleton.mp hret
    obtain ⟨hplain, hlen⟩ := hchunk.full rfl
    refine ⟨hreturned, .length _ (hgoing.plain.append hplain) ?_⟩
    have hzero : (read.gain bytes).n = 0 := Nat.sub_eq_zero_of_le (Nat.le_of_eq hlen.symm)
    rw [hzero] at hsum
    exact hsum
  | newline =>
    obtain rfl := List.mem_singleton.mp hret
    obtain ⟨body, rfl, hplain, hlen⟩ := hchunk.newline rfl
    refine ⟨hreturned, ?_⟩
    have hgot : (read.gain (body ++ [NEWLINE])).got = read.got ++ body ++ [NEWLINE] := by
      rw [Read.gain, List.append_assoc]
    rw [hgot]
    apply Ending.newline _ (hgoing.plain.append hplain)
    show (read.got ++ body).length < (read.gain (body ++ [NEWLINE])).target
    rw [hgot, List.length_append, List.length_singleton] at hsum
    omega
  | mark =>
    obtain rfl := List.mem_singleton.mp hret
    obtain ⟨hplain, hlen, hnext⟩ := hchunk.mark rfl
    refine ⟨hreturned, ?_⟩
    rw [hdrop] at hnext
    by_cases hnone : (read.gain bytes).got = []
    · have hbytes : bytes = [] := (List.append_eq_nil_iff.mp hnone).2
      rw [hbytes, List.length_nil, Nat.add_zero] at hnext
      simp only [Read.mark, hnone, if_pos, List.length_singleton]
      apply Ending.mark (by omega)
      rw [hbytes, List.length_nil]
      exact hnext
    · have hless : (read.gain bytes).got.length < (read.gain bytes).target := by
        have hleft : 0 < (read.gain bytes).n := Nat.sub_pos_of_lt hlen
        omega
      apply Ending.beforeMark _ (hgoing.plain.append hplain) hnone hless
      simp only [Read.mark, if_neg hnone, List.length_nil, Nat.add_zero]
      exact hnext

theorem Tty.Orderly.serve (h : t.Orderly) (hread : t.reads p = some read) (killed : Bool) :
    (t.serve p killed read).Orderly where
  inOrder := serve_inOrder h
  delivered := serve_delivered h hread
  marks := serve_marks h hread
  going := serve_going h hread
  ends := serve_ends h hread

end Serve

variable {t : Tty} {p : Pid}

theorem Tty.Orderly.grow {t' : Tty} (h : t.Orderly) (hcommitted : t.committed <+: t'.committed)
    (htaken : t'.taken = t.taken) (hreads : t'.reads = t.reads) (hends : t'.ends = t.ends) :
    t'.Orderly where
  inOrder := by
    rw [htaken]
    exact h.inOrder.trans hcommitted
  delivered p := by
    rw [Tty.deliveredTo, Tty.gotBy, htaken, hreads, hends]
    exact h.delivered p
  marks := by
    rw [Tty.marks, Tty.emptyReads, htaken, hends]
    exact h.marks
  going := by
    rw [hreads]
    exact h.going
  ends last hlast hvalue := by
    rw [hends] at hlast
    obtain ⟨hlen, hending⟩ := h.ends last hlast hvalue
    exact ⟨hlen, hending.mono hcommitted⟩

theorem Tty.Orderly.add (h : t.Orderly) (c : UInt8) : (t.add c).Orderly := by
  rw [Tty.add]
  split
  · exact h.grow (List.prefix_append _ _) rfl rfl rfl
  · exact h.grow (List.prefix_refl _) rfl rfl rfl

theorem Tty.Orderly.type (h : t.Orderly) (c : UInt8) : (t.type c).Orderly := by
  have hline : ∀ line : List UInt8, Tty.Orderly { t with line := line } :=
    fun _ => h.grow (List.prefix_refl _) rfl rfl rfl
  rw [Tty.type]
  by_cases hnone : c = 0 ∨ c = C 'P'
  · rw [if_pos hnone]
    exact h
  rw [if_neg hnone]
  by_cases hkill : c = C 'U'
  · rw [if_pos hkill]
    exact hline []
  rw [if_neg hkill]
  by_cases herase : c = C 'H' ∨ c = DELETE
  · rw [if_pos herase]
    exact hline t.line.dropLast
  rw [if_neg herase]
  by_cases hroom : t.held < INPUT_BUF_SIZE
  · rw [if_pos hroom]
    exact h.add _
  · rw [if_neg hroom]
    exact h

theorem Tty.Orderly.call (h : t.Orderly) {n : Nat} (room : Nat) (hfree : t.reads p = none) (hn : 0 < n) :
    Tty.Orderly { t with reads := update t.reads p (some (begin n room)) } where
  inOrder := h.inOrder
  delivered q := by
    have hold := h.delivered q
    simp only [Tty.gotBy] at hold ⊢
    by_cases hq : q = p
    · rw [hq, hfree] at hold
      rw [hq, update_self]
      exact hold
    · rw [update_of_ne hq]
      exact hold
  marks := h.marks
  going q read hread := by
    by_cases hq : q = p
    · simp only [hq, update_self] at hread
      obtain rfl := Option.some.inj hread
      exact ⟨Nat.zero_add n, hn, plain_nil⟩
    · simp only [update_of_ne hq] at hread
      exact h.going q read hread
  ends := h.ends

theorem Tty.type_frame (t : Tty) (c : UInt8) :
    (t.type c).reads = t.reads ∧ (t.type c).ends = t.ends := by
  have hadd : ∀ c, (t.add c).reads = t.reads ∧ (t.add c).ends = t.ends := by
    intro c
    rw [Tty.add]
    split
    · exact ⟨rfl, rfl⟩
    · exact ⟨rfl, rfl⟩
  rw [Tty.type]
  by_cases hnone : c = 0 ∨ c = C 'P'
  · rw [if_pos hnone]
    exact ⟨rfl, rfl⟩
  rw [if_neg hnone]
  by_cases hkill : c = C 'U'
  · rw [if_pos hkill]
    exact ⟨rfl, rfl⟩
  rw [if_neg hkill]
  by_cases herase : c = C 'H' ∨ c = DELETE
  · rw [if_pos herase]
    exact ⟨rfl, rfl⟩
  rw [if_neg herase]
  by_cases hroom : t.held < INPUT_BUF_SIZE
  · rw [if_pos hroom]
    exact hadd _
  · rw [if_neg hroom]
    exact ⟨rfl, rfl⟩

theorem Tty.step_call (hread : t.reads p = none) (n room : Nat) :
    t.step (.call p n room) =
      some { t with reads := update t.reads p (some (begin n room)) } := by
  rw [Tty.step, hread]

theorem Tty.step_run {read : Read} (hread : t.reads p = some read) (killed : Bool) :
    t.step (.run p killed) = some (t.serve p killed read) := by
  rw [Tty.step, hread]

def Event.Valid : Event → Prop
  | .call _ n room => 0 < n ∧ n ≤ room
  | .intr _ | .run _ _ => True

theorem Tty.orderly_initial : Tty.initial.Orderly where
  inOrder := List.prefix_refl _
  delivered _ := rfl
  marks := rfl
  going _ _ h := by cases h
  ends _ h := by cases h


end Xv6Ringbuf.Dev
