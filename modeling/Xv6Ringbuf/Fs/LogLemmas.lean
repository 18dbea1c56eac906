import Xv6Ringbuf.Fs.Log

namespace Xv6Ringbuf.Fs

open Interleave Crash Function

theorem byteAt_setWord (data : Block) (i : Nat) (word : UInt32) {off : Nat} (hoff : off < BSIZE) :
    byteAt (setWord data i word) off =
      if off / 4 = i then word.toNat / 256 ^ (off % 4) % 256 else byteAt data off := by
  simp only [byteAt, dif_pos hoff, setWord]
  split
  · simp [wordByte]
  · rfl

theorem getWord_setWord_self (data : Block) {i : Nat} (word : UInt32) (hi : i < 256) :
    getWord (setWord data i word) i = word := by
  have hbsize : BSIZE = 1024 := rfl
  have hword := word.toNat_lt
  unfold getWord
  rw [byteAt_setWord _ _ _ (by omega), byteAt_setWord _ _ _ (by omega),
    byteAt_setWord _ _ _ (by omega), byteAt_setWord _ _ _ (by omega),
    if_pos (by omega), if_pos (by omega), if_pos (by omega), if_pos (by omega),
    show 4 * i % 4 = 0 by omega, show (4 * i + 1) % 4 = 1 by omega,
    show (4 * i + 2) % 4 = 2 by omega, show (4 * i + 3) % 4 = 3 by omega]
  apply UInt32.toNat_inj.mp
  rw [UInt32.toNat_ofNat']
  omega

theorem getWord_setWord_of_ne (data : Block) {i j : Nat} (word : UInt32) (hi : i < 256)
    (hij : i ≠ j) : getWord (setWord data j word) i = getWord data i := by
  have hbsize : BSIZE = 1024 := rfl
  unfold getWord
  rw [byteAt_setWord _ _ _ (by omega), byteAt_setWord _ _ _ (by omega),
    byteAt_setWord _ _ _ (by omega), byteAt_setWord _ _ _ (by omega),
    if_neg (by omega), if_neg (by omega), if_neg (by omega), if_neg (by omega)]

theorem getWord_fillEntries_zero (lh : Logheader) (data : Block) (n : Nat) :
    getWord (fillEntries lh data n) 0 = getWord data 0 := by
  induction n with
  | zero => rfl
  | succ n ih =>
    rw [fillEntries]
    split
    · rw [getWord_setWord_of_ne _ _ (by omega) (by omega), ih]
    · exact ih

theorem getWord_fillEntries_entry (lh : Logheader) (data : Block) {n i : Nat} (hi : i < n)
    (hn : n ≤ LOGSIZE) : getWord (fillEntries lh data n) (i + 1) = lh.block ⟨i, by omega⟩ := by
  have hlogsize : LOGSIZE = 30 := rfl
  induction n with
  | zero => omega
  | succ n ih =>
    rw [fillEntries, dif_pos (by omega)]
    by_cases hin : i = n
    · subst hin
      exact getWord_setWord_self _ _ (by omega)
    · rw [getWord_setWord_of_ne _ _ (by omega) (by omega)]
      exact ih (by omega) (by omega)

def headBlock (lh : Logheader) (buf : Block) : Block :=
  fillEntries lh (setWord buf 0 lh.n.toUInt32) lh.rounds

theorem headCount_headBlock (lh : Logheader) (buf : Block) : headCount (headBlock lh buf) = lh.n := by
  rw [headCount, headBlock, getWord_fillEntries_zero, getWord_setWord_self _ _ (by omega)]
  simp

theorem headEntry_headBlock (lh : Logheader) (buf : Block) {i : Nat} (hi : i < lh.rounds)
    (hn : lh.rounds ≤ LOGSIZE) : headEntry (headBlock lh buf) i = lh.block ⟨i, by omega⟩ :=
  getWord_fillEntries_entry lh _ hi hn

abbrev LSafe {α : Type} (inv : Logical → Prop) (post : α → Logical → Prop) (p : Code α)
    (t : Logical) : Prop :=
  Safe (fun a t answer t' => step a t = some (answer, t')) inv post p t

section Rules

variable {α : Type} {inv : Logical → Prop} {post : α → Logical → Prop} {b : Blockno}
  {d : Blockno → Block} {pending held : Blockno → Option Block} {w : List Blockno}

theorem bread_safe {next : Block → Code α} (hinv : inv ⟨d, pending, held, w⟩)
    (hfree : held b = none)
    (hnext : LSafe inv post (next ((pending b).getD (d b)))
      ⟨d, pending, update held b (some ((pending b).getD (d b))), w⟩) :
    LSafe inv post (bread b >>= next) ⟨d, pending, held, w⟩ :=
  Safe.step hinv (by simp only [step, hfree, Logical.contents]) hnext

variable {data : Block} {next : Unit → Code α}

theorem memmove_safe (hinv : inv ⟨d, pending, held, w⟩) (hheld : (held b).isSome)
    (hnext : LSafe inv post (next ()) ⟨d, pending, update held b (some data), w⟩) :
    LSafe inv post (memmove b data >>= next) ⟨d, pending, held, w⟩ := by
  obtain ⟨old, hold⟩ := Option.isSome_iff_exists.mp hheld
  exact Safe.step hinv (by simp only [step, hold, Option.map_some]) hnext

theorem bwrite_safe (hinv : inv ⟨d, pending, held, w⟩) (hheld : held b = some data)
    (hnext : LSafe inv post (next ()) ⟨update d b data, pending, held, w ++ [b]⟩) :
    LSafe inv post (bwrite b >>= next) ⟨d, pending, held, w⟩ :=
  Safe.step hinv (by simp only [step, hheld, Option.map_some]) hnext

theorem brelse_safe (hinv : inv ⟨d, pending, held, w⟩) (hheld : held b = some ((pending b).getD (d b)))
    (hnext : LSafe inv post (next ()) ⟨d, pending, update held b none, w⟩) :
    LSafe inv post (brelse b >>= next) ⟨d, pending, held, w⟩ := by
  have hpending : (pending b).map (fun _ => (pending b).getD (d b)) = pending b := by
    cases h : pending b with
    | none => rfl
    | some data => rfl
  refine Safe.step hinv ?_ hnext
  simp only [step, hheld, Option.bind_some, hpending, update_eq_self]
  rw [if_neg]
  rintro ⟨hnone, hne⟩
  exact hne (by simp [hnone])

theorem bunpin_safe (hinv : inv ⟨d, pending, held, w⟩) (hheld : (held b).isSome)
    (hpending : (pending b).isSome)
    (hnext : LSafe inv post (next ()) ⟨d, update pending b none, held, w⟩) :
    LSafe inv post (bunpin b >>= next) ⟨d, pending, held, w⟩ := by
  obtain ⟨data, hdata⟩ := Option.isSome_iff_exists.mp hheld
  obtain ⟨old, hold⟩ := Option.isSome_iff_exists.mp hpending
  exact Safe.step hinv (by simp [step, hdata, hold]) hnext

theorem bpin_safe (hinv : inv ⟨d, pending, held, w⟩) (hheld : held b = some data)
    (hpending : pending b = none)
    (hnext : LSafe inv post (next ()) ⟨d, update pending b (some data), held, w⟩) :
    LSafe inv post (bpin b >>= next) ⟨d, pending, held, w⟩ :=
  Safe.step hinv (by simp [step, hheld, hpending]) hnext

end Rules

variable {log : Log} {i : Nat}

theorem Log.start_mem_area (h : 0 < log.size.toInt) : log.start ∈ log.area := by
  simp only [Log.area, List.mem_map, List.mem_range]
  exact ⟨0, by omega, by simp⟩

theorem Log.block_mem_area (h : (i : Int) + 1 < log.size.toInt) :
    log.block i ∈ log.area := by
  simp only [Log.area, List.mem_map, List.mem_range]
  refine ⟨i + 1, by omega, ?_⟩
  rw [Log.block, UInt32.ofNat_add, ← UInt32.add_assoc]
  rfl

theorem Log.toNat_block_sub (log : Log) (h : i < LOGSIZE) :
    (log.block i - log.start).toNat = i + 1 := by
  have hlogsize : LOGSIZE = 30 := rfl
  rw [Log.block, UInt32.add_assoc, UInt32.add_comm, UInt32.add_sub_cancel, UInt32.toNat_add,
    UInt32.toNat_ofNat']
  change (i % 2 ^ 32 + 1) % 2 ^ 32 = i + 1
  omega

theorem Log.block_ne_start (log : Log) (h : i < LOGSIZE) : log.block i ≠ log.start := by
  intro heq
  have hsub := log.toNat_block_sub h
  rw [heq, UInt32.sub_self] at hsub
  simp at hsub

theorem Log.block_injective (log : Log) {j : Nat} (hi : i < LOGSIZE) (hj : j < LOGSIZE)
    (h : log.block i = log.block j) : i = j := by
  have hsub := log.toNat_block_sub hi
  rw [h, log.toNat_block_sub hj] at hsub
  omega

def idle (d : Blockno → Block) (pending : Blockno → Option Block) (w : List Blockno) : Logical :=
  ⟨d, pending, fun _ => none, w⟩

structure Matches (lh : Logheader) (head : Block) : Prop where
  count : lh.n = headCount head
  entry : ∀ i : Fin LOGSIZE, (i : Int) < lh.n.toInt → lh.block i = headEntry head i

section Entries

variable {I : (Blockno → Block) → List Blockno → Prop} {d : Blockno → Block}
  {pending : Blockno → Option Block} {w : List Blockno}

theorem release_held {held : Blockno → Option Block} {a b : Blockno}
    (h : ∀ c, c ≠ a → c ≠ b → held c = none) :
    update (update held a none) b none = fun _ => none := by
  funext c
  by_cases hcb : c = b
  · rw [hcb, update_self]
  · rw [update_of_ne hcb]
    by_cases hca : c = a
    · rw [hca, update_self]
    · rw [update_of_ne hca, h c hca hcb]

theorem logEntry_safe (log : Log) (tail : Nat) {src : Blockno} (hne : src ≠ log.block tail)
    (hclean : pending (log.block tail) = none) (hI : I d w)
    (hI' : I (update d (log.block tail) ((pending src).getD (d src)))
      (w ++ [log.block tail])) :
    LSafe (fun t => I t.disk t.written)
      (fun _ t => t = idle (update d (log.block tail) ((pending src).getD (d src)))
        pending (w ++ [log.block tail]))
      (logEntry log tail src) (idle d pending w) := by
  unfold logEntry
  generalize log.block tail = dst at *
  apply bread_safe hI rfl
  apply bread_safe hI (update_of_ne hne _ _)
  apply memmove_safe hI
  · simp [update_of_ne hne.symm]
  · apply bwrite_safe hI (update_self ..)
    apply brelse_safe hI'
    · simp [update_of_ne hne]
    · show LSafe _ _ (brelse dst >>= pure) _
      apply brelse_safe hI'
      · simp [update_of_ne hne.symm, hclean]
      · refine ⟨hI', ?_⟩
        rw [release_held]
        · rfl
        · intro c hsrc hdst
          simp [update_of_ne hsrc, update_of_ne hdst]

-- During a commit the home block has pending contents, which the write
-- settles. During a recovery nothing is pending.
theorem installEntry_safe (log : Log) (recovering : Int32) (tail : Nat) {dst : Blockno}
    (hne : dst ≠ log.block tail) (hclean : pending (log.block tail) = none)
    (hpins : if recovering = 0 then (pending dst).isSome else pending dst = none) (hI : I d w)
    (hI' : I (update d dst (d (log.block tail))) (w ++ [dst])) :
    LSafe (fun t => I t.disk t.written)
      (fun _ t => t = idle (update d dst (d (log.block tail)))
        (update pending dst none) (w ++ [dst]))
      (installEntry log recovering tail dst) (idle d pending w) := by
  unfold installEntry
  generalize log.block tail = src at *
  apply bread_safe hI rfl
  apply bread_safe hI (update_of_ne hne _ _)
  apply memmove_safe hI
  · simp
  · apply bwrite_safe hI (update_self ..)
    have hrelease : LSafe (fun t => I t.disk t.written)
        (fun _ t => t = idle (update d dst (d src)) (update pending dst none)
          (w ++ [dst]))
        (brelse src >>= fun _ => brelse dst)
        ⟨update d dst (d src), update pending dst none,
          update (update (update (fun _ => none) src (some (d src)))
            dst (some ((pending dst).getD (d dst)))) dst (some (d src)), w ++ [dst]⟩ := by
      apply brelse_safe hI'
      · simp [update_of_ne hne.symm, hclean]
      · show LSafe _ _ (brelse dst >>= pure) _
        apply brelse_safe hI'
        · simp [update_of_ne hne]
        · refine ⟨hI', ?_⟩
          rw [release_held]
          · rfl
          · intro c hsrc hdst
            simp [update_of_ne hsrc, update_of_ne hdst]
    by_cases hrec : recovering = 0
    · rw [if_pos hrec] at hpins
      simp only [if_pos hrec, hclean, Option.getD_none]
      exact bunpin_safe hI' (by simp) hpins hrelease
    · rw [if_neg hrec] at hpins
      have hsame : update pending dst none = pending := by
        rw [← hpins, update_eq_self]
      simp only [if_neg hrec, hclean, Option.getD_none]
      rw [hsame] at hrelease ⊢
      exact hrelease

theorem readHead_safe (log : Log) (hclean : pending log.start = none) (hI : I d w)
    (hcount : (headCount (d log.start)).toInt ≤ LOGSIZE) :
    LSafe (fun t => I t.disk t.written)
      (fun log' t => t = idle d pending w ∧
        ∃ lh, log' = { log with lh := lh } ∧ Matches lh (d log.start))
      (readHead log) (idle d pending w) := by
  unfold readHead
  apply bread_safe hI rfl
  simp only [hclean, Option.getD_none]
  rw [if_neg (by omega)]
  apply brelse_safe hI
  · simp [hclean]
  · refine ⟨hI, ?_, _, rfl, rfl, ?_⟩
    · simp [idle]
    · intro i hi
      simp only at hi ⊢
      rw [if_pos hi]

theorem writeHead_safe (log : Log) (hclean : pending log.start = none)
    (hcount : log.lh.n.toInt ≤ LOGSIZE) (hI : I d w)
    (hI' : I (update d log.start (headBlock log.lh (d log.start))) (w ++ [log.start])) :
    LSafe (fun t => I t.disk t.written)
      (fun _ t => t = idle (update d log.start (headBlock log.lh (d log.start)))
        pending (w ++ [log.start]))
      (writeHead log) (idle d pending w) := by
  unfold writeHead
  apply bread_safe hI rfl
  simp only [hclean, Option.getD_none]
  rw [if_neg (by omega)]
  apply memmove_safe hI
  · simp
  · apply bwrite_safe hI (update_self ..)
    show LSafe _ _ (brelse log.start >>= pure) _
    apply brelse_safe hI'
    · simp [hclean]
    · refine ⟨hI', ?_⟩
      simp [idle, headBlock]

theorem forEntries_safe {σ : Type} {exec : (a : Act) → σ → Answer a → σ → Prop} {inv : σ → Prop}
    {lh : Logheader} {body : Nat → Blockno → Code Unit} (P : Nat → σ → Prop) {n : Nat}
    (hn : n ≤ LOGSIZE) (hinv : ∀ i t, P i t → inv t)
    (hround : ∀ i (h : i < LOGSIZE), i < n → ∀ t, P i t →
      Safe exec inv (fun _ t' => P (i + 1) t') (body i (lh.block ⟨i, h⟩)) t)
    (rounds tail : Nat) (hrounds : tail + rounds = n) (t : σ) (hP : P tail t) :
    Safe exec inv (fun _ t' => P n t') (forEntries lh body rounds tail) t := by
  induction rounds generalizing tail t with
  | zero =>
    obtain rfl : tail = n := by omega
    exact ⟨hinv tail t hP, hP⟩
  | succ rounds ih =>
    have htail : tail < LOGSIZE := by omega
    rw [forEntries, dif_pos htail]
    apply Safe.bind
    apply (hround tail htail (by omega) t hP).mono (fun _ h => h)
    intro _ t' _ hP'
    exact ih (tail + 1) (by omega) t' hP'

end Entries

end Xv6Ringbuf.Fs
