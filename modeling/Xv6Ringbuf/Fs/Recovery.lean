import Xv6Ringbuf.Fs.LogLemmas

namespace Xv6Ringbuf.Fs

open Interleave Crash Function

-- Replaying the log that is on the disk would give the home blocks `c`.
structure Replays (log : Log) (c d : Blockno → Block) : Prop where
  count : (headCount (d log.start)).toInt ≤ LOGSIZE
  room : (headCount (d log.start)).toInt < log.size.toInt
  size : 0 < log.size.toInt
  home : ∀ i : Nat, i < (headCount (d log.start)).toInt → headEntry (d log.start) i ∉ log.area
  logged : ∀ i : Nat, i < (headCount (d log.start)).toInt →
    d (log.block i) = c (headEntry (d log.start) i)
  rest : ∀ b, b ∉ log.area →
    (∀ i : Nat, i < (headCount (d log.start)).toInt → headEntry (d log.start) i ≠ b) → d b = c b

variable {log : Log} {c d : Blockno → Block} {i : Nat} {recovering : Int32}
  {K : List Blockno → Prop} {t : Logical}

theorem replays_iff (lh : Logheader) :
    Replays { log with lh := lh } c d ↔ Replays log c d :=
  ⟨fun ⟨hcount, hroom, hsize, hhome, hlogged, hrest⟩ =>
      ⟨hcount, hroom, hsize, hhome, hlogged, hrest⟩,
    fun ⟨hcount, hroom, hsize, hhome, hlogged, hrest⟩ =>
      ⟨hcount, hroom, hsize, hhome, hlogged, hrest⟩⟩

theorem Replays.of_empty (hsize : 0 < log.size.toInt) (hcount : headCount (d log.start) = 0)
    (hhome : ∀ b, b ∉ log.area → d b = c b) :
    Replays log c d := by
  have hzero : (headCount (d log.start)).toInt = 0 := by rw [hcount]; rfl
  constructor
  · rw [hzero]
    exact Int.natCast_nonneg LOGSIZE
  · omega
  · exact hsize
  · intro i hi
    omega
  · intro i hi
    omega
  · intro b hb _
    exact hhome b hb

theorem Replays.home_of_empty (h : Replays log c d) (hcount : headCount (d log.start) = 0)
    (b : Blockno) (hb : b ∉ log.area) : d b = c b := by
  have hzero : (headCount (d log.start)).toInt = 0 := by rw [hcount]; rfl
  apply h.rest b hb
  intro i hi
  omega

theorem Replays.install (h : Replays log c d) (hi : i < (headCount (d log.start)).toInt) :
    Replays log c (update d (headEntry (d log.start) i) (d (log.block i))) := by
  have hhome := h.home i hi
  have hstart : log.start ≠ headEntry (d log.start) i := by
    intro heq
    exact hhome (heq ▸ Log.start_mem_area h.size)
  refine ⟨?_, ?_, h.size, ?_, ?_, ?_⟩ <;> simp only [update_of_ne hstart]
  · exact h.count
  · exact h.room
  · exact h.home
  · intro j hj
    have hroom := h.room
    rw [update_of_ne, h.logged j hj]
    intro heq
    exact hhome (heq ▸ Log.block_mem_area (by omega))
  · intro b hb hrest
    by_cases hbi : b = headEntry (d log.start) i
    · exact absurd hbi.symm (hrest i hi)
    · rw [update_of_ne hbi, h.rest b hb hrest]

-- The blocks that entries from `i` on still have to settle are pending, and
-- nothing in the log area is.
structure Pinned (log : Log) (recovering : Int32) (i : Nat) (pending : Blockno → Option Block) :
    Prop where
  area : ∀ b ∈ log.area, pending b = none
  entry : ∀ j : Fin LOGSIZE, i ≤ j → (j : Int) < log.lh.n.toInt →
    if recovering = 0 then (pending (log.lh.block j)).isSome else pending (log.lh.block j) = none

theorem Pinned.next {pending : Blockno → Option Block} (h : Pinned log recovering i pending)
    (hi : i < LOGSIZE) (hdistinct : recovering = 0 → ∀ j k : Fin LOGSIZE, (j : Int) < log.lh.n.toInt →
      (k : Int) < log.lh.n.toInt → log.lh.block j = log.lh.block k → j = k)
    (hin : (i : Int) < log.lh.n.toInt) :
    Pinned log recovering (i + 1) (update pending (log.lh.block ⟨i, hi⟩) none) := by
  constructor
  · intro b hb
    by_cases hbi : b = log.lh.block ⟨i, hi⟩
    · rw [hbi, update_self]
    · rw [update_of_ne hbi, h.area b hb]
  · intro j hij hj
    have hpins := h.entry j (by omega) hj
    by_cases hrec : recovering = 0
    · have hne : log.lh.block j ≠ log.lh.block ⟨i, hi⟩ := by
        intro heq
        have hji := hdistinct hrec j ⟨i, hi⟩ hj hin heq
        rw [hji] at hij
        simp only at hij
        omega
      rw [update_of_ne hne]
      exact hpins
    · rw [if_neg hrec] at hpins ⊢
      by_cases hji : log.lh.block j = log.lh.block ⟨i, hi⟩
      · rw [hji, update_self]
      · rw [update_of_ne hji]
        exact hpins

-- Between two rounds of `install_trans` the log still replays to `c`, and the
-- entries before `i` are installed.
structure Installing (log : Log) (recovering : Int32) (c : Blockno → Block)
    (K : List Blockno → Prop) (i : Nat) (t : Logical) : Prop where
  idle : t = idle t.disk t.pending t.written
  replays : Replays log c t.disk
  head : Matches log.lh (t.disk log.start)
  done : ∀ j : Nat, j < i → j < log.lh.n.toInt →
    t.disk (headEntry (t.disk log.start) j) = c (headEntry (t.disk log.start) j)
  pinned : Pinned log recovering i t.pending
  written : K t.written

theorem Installing.rounds_le (h : Installing log recovering c K i t) :
    log.lh.rounds ≤ LOGSIZE := by
  have hcount := h.replays.count
  rw [← h.head.count] at hcount
  unfold Logheader.rounds
  omega

theorem Installing.round (hK : ∀ w b, K w → K (w ++ [b]))
    (hdistinct : recovering = 0 → ∀ j k : Fin LOGSIZE, (j : Int) < log.lh.n.toInt →
      (k : Int) < log.lh.n.toInt → log.lh.block j = log.lh.block k → j = k) (hi : i < LOGSIZE)
    (hin : i < log.lh.rounds) (h : Installing log recovering c K i t) :
    LSafe (fun t => Replays log c t.disk ∧ K t.written)
      (fun _ t' => Installing log recovering c K (i + 1) t' ∧
        t'.pending = update t.pending (log.lh.block ⟨i, hi⟩) none)
      (installEntry log recovering i (log.lh.block ⟨i, hi⟩)) t := by
  have hin' : (i : Int) < log.lh.n.toInt := by
    unfold Logheader.rounds at hin
    omega
  have hentry := h.head.entry ⟨i, hi⟩ hin'
  have hcount := congrArg Int32.toInt h.head.count
  have hroom := h.replays.room
  have hhome := h.replays.home i (by omega)
  rw [h.idle]
  rw [hentry]
  have hne : headEntry (t.disk log.start) i ≠ log.block i := by
    intro heq
    exact hhome (heq ▸ Log.block_mem_area (by omega))
  have hinstall := h.replays.install (i := i) (by omega)
  have hpins := h.pinned.entry ⟨i, hi⟩ (Nat.le_refl _) hin'
  rw [hentry] at hpins
  apply (installEntry_safe (I := fun d w => Replays log c d ∧ K w) log recovering i hne
    (h.pinned.area _ (Log.block_mem_area (by omega))) hpins ⟨h.replays, h.written⟩
    ⟨hinstall, hK _ _ h.written⟩).mono (fun _ h => h)
  rintro _ t' - rfl
  have hstart : log.start ≠ headEntry (t.disk log.start) i := by
    intro heq
    exact hhome (heq ▸ Log.start_mem_area h.replays.size)
  refine ⟨⟨rfl, hinstall, ?_, ?_, ?_, hK _ _ h.written⟩, rfl⟩
  · simpa only [Fs.idle, update_of_ne hstart] using h.head
  · intro j hj hjn
    simp only [Fs.idle, update_of_ne hstart]
    by_cases hji : headEntry (t.disk log.start) j = headEntry (t.disk log.start) i
    · rw [hji, update_self, h.replays.logged i (by omega)]
    · rw [update_of_ne hji]
      refine h.done j ?_ hjn
      rcases Nat.lt_succ_iff_lt_or_eq.mp hj with hlt | heq
      · exact hlt
      · exact absurd (by rw [heq]) hji
  · have hnext := h.pinned.next hi hdistinct hin'
    rwa [hentry] at hnext

theorem installTrans_safe (hK : ∀ w b, K w → K (w ++ [b]))
    (hdistinct : recovering = 0 → ∀ j k : Fin LOGSIZE, (j : Int) < log.lh.n.toInt →
      (k : Int) < log.lh.n.toInt → log.lh.block j = log.lh.block k → j = k)
    (h : Installing log recovering c K 0 t) (hlisted : ∀ b, (t.pending b).isSome →
      ∃ j : Fin LOGSIZE, (j : Int) < log.lh.n.toInt ∧ log.lh.block j = b) :
    LSafe (fun t => Replays log c t.disk ∧ K t.written)
      (fun _ t => Installing log recovering c K log.lh.rounds t ∧ ∀ b, t.pending b = none)
      (installTrans log recovering) t := by
  -- What is still pending is listed at `i` or later.
  refine Safe.mono (forEntries_safe (fun i t => Installing log recovering c K i t ∧
    ∀ b, (t.pending b).isSome → ∃ j : Fin LOGSIZE, i ≤ j ∧ (j : Int) < log.lh.n.toInt ∧
      log.lh.block j = b) h.rounds_le ?_ ?_ log.lh.rounds 0 (by omega) t ⟨h, ?_⟩)
    (fun _ h => h) ?_
  · rintro i t ⟨h, -⟩
    exact ⟨h.replays, h.written⟩
  · rintro i hi hin t ⟨h, hpending⟩
    apply (h.round hK hdistinct hi hin).mono (fun _ h => h)
    rintro _ t' - ⟨hnext, hupdate⟩
    refine ⟨hnext, ?_⟩
    intro b hb
    rw [hupdate] at hb
    by_cases hbi : b = log.lh.block ⟨i, hi⟩
    · simp [hbi] at hb
    · rw [update_of_ne hbi] at hb
      obtain ⟨j, hj, hjn, rfl⟩ := hpending b hb
      refine ⟨j, ?_, hjn, rfl⟩
      have hne : (j : Nat) ≠ i := fun heq => hbi (congrArg log.lh.block (Fin.ext heq))
      omega
  · intro b hb
    obtain ⟨j, hj, heq⟩ := hlisted b hb
    exact ⟨j, Nat.zero_le _, hj, heq⟩
  · rintro _ t' - ⟨hdone, hpending⟩
    refine ⟨hdone, ?_⟩
    intro b
    cases hb : t'.pending b with
    | none => rfl
    | some data =>
      obtain ⟨j, hj, hjn, -⟩ := hpending b (by simp [hb])
      unfold Logheader.rounds at hj
      omega

theorem Installing.home (h : Installing log recovering c K log.lh.rounds t) (b : Blockno)
    (hb : b ∉ log.area) : t.disk b = c b := by
  have hcount := congrArg Int32.toInt h.head.count
  by_cases hlisted : ∃ i : Nat, (i : Int) < log.lh.n.toInt ∧ headEntry (t.disk log.start) i = b
  · obtain ⟨i, hi, rfl⟩ := hlisted
    apply h.done i _ hi
    unfold Logheader.rounds
    omega
  · apply h.replays.rest b hb
    intro i hi heq
    exact hlisted ⟨i, by omega, heq⟩

theorem replays_clear (hsize : 0 < log.size.toInt) (hhome : ∀ b, b ∉ log.area → d b = c b)
    (lh : Logheader) (hn : lh.n = 0) :
    headCount (update d log.start (headBlock lh (d log.start)) log.start) = 0 ∧
      Replays log c (update d log.start (headBlock lh (d log.start))) := by
  have hcount : headCount (update d log.start (headBlock lh (d log.start)) log.start) = 0 := by
    rw [update_self, headCount_headBlock, hn]
  refine ⟨hcount, Replays.of_empty hsize hcount ?_⟩
  intro b hb
  rw [update_of_ne, hhome b hb]
  intro heq
  exact hb (heq ▸ Log.start_mem_area hsize)

theorem clearHead_safe (hK : ∀ w b, K w → K (w ++ [b]))
    (h : Installing log recovering c K log.lh.rounds t) :
    LSafe (fun t => Replays log c t.disk ∧ K t.written)
      (fun _ t' => headCount (t'.disk log.start) = 0 ∧ t' = idle t'.disk t.pending t'.written)
      (writeHead log.clear) t := by
  obtain ⟨hcount, hreplays⟩ := replays_clear h.replays.size h.home log.clear.lh rfl
  rw [h.idle]
  apply (writeHead_safe (I := fun d w => Replays log c d ∧ K w) log.clear
    (h.pinned.area _ (Log.start_mem_area h.replays.size)) (Int.natCast_nonneg LOGSIZE) ⟨h.replays, h.written⟩
    ⟨hreplays, hK _ _ h.written⟩).mono (fun _ h => h)
  rintro _ t' - rfl
  exact ⟨hcount, rfl⟩

theorem recoverFromLog_safe (h : Replays log c d) (w : List Blockno) :
    LSafe (fun t => Replays log c t.disk)
      (fun _ t => headCount (t.disk log.start) = 0)
      (recoverFromLog log) (idle d (fun _ => none) w) := by
  unfold recoverFromLog
  apply Safe.bind
  apply (readHead_safe (I := fun d _ => Replays log c d) log rfl h h.count).mono (fun _ h => h)
  rintro _ t - ⟨rfl, lh, rfl, hhead⟩
  have hstart : Installing { log with lh := lh } 1 c (fun _ => True) 0 (idle d (fun _ => none) w) :=
    ⟨rfl, (replays_iff lh).mpr h, hhead, fun j hj => by omega,
      ⟨fun _ _ => rfl, fun _ _ _ => rfl⟩, trivial⟩
  have hinv : ∀ t : Logical, Replays { log with lh := lh } c t.disk ∧ True → Replays log c t.disk :=
    fun t h => (replays_iff lh).mp h.1
  apply Safe.bind
  apply (installTrans_safe (fun _ _ _ => trivial) (fun h => by cases h) hstart
    (fun b hb => by cases hb)).mono hinv
  rintro _ t - ⟨hdone, -⟩
  apply Safe.bind
  apply (clearHead_safe (fun _ _ _ => trivial) hdone).mono hinv
  rintro _ t hreplays ⟨hcount, -⟩
  exact ⟨hinv t hreplays, hcount⟩

end Xv6Ringbuf.Fs
