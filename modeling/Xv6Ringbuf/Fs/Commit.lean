import Xv6Ringbuf.Fs.Recovery
import Xv6Ringbuf.Fs.Transaction

namespace Xv6Ringbuf.Fs

open Interleave Crash Function

-- Between two rounds of `write_log` only log blocks have been written.
structure Logging (log : Log) (t₀ : Logical) (i : Nat) (t : Logical) : Prop where
  idle : t = idle t.disk t₀.pending t.written
  start : t.disk log.start = t₀.disk log.start
  home : ∀ b, b ∉ log.area → t.disk b = t₀.disk b
  logged : ∀ j : Fin LOGSIZE, (j : Nat) < i →
    t.disk (log.block j) = t₀.contents (log.lh.block j)
  written : log.start ∉ t.written

variable {log : Log} {t₀ t : Logical} {c d d' : Blockno → Block}

theorem Logging.replays {i : Nat} (htrans : Transaction log t₀) (h : Logging log t₀ i t) :
    Replays log t₀.disk t.disk := by
  have hcount := htrans.count
  have hroom := htrans.room
  exact Replays.of_empty (by omega) (by rw [h.start, htrans.empty]) h.home

theorem writeLog_safe (htrans : Transaction log t) :
    LSafe (fun t' => Replays log t.disk t'.disk ∧ log.start ∉ t'.written)
      (fun _ t' => Logging log t log.lh.rounds t') (writeLog log) t := by
  have hcount := htrans.count
  have hbound := htrans.bound
  have hroom := htrans.room
  have hinit : Logging log t 0 t := by
    refine ⟨?_, rfl, fun _ _ => rfl, fun j hj => by omega, ?_⟩
    · rw [idle, ← funext htrans.held]
    · simp [htrans.written]
  refine forEntries_safe (Logging log t) (by unfold Logheader.rounds; omega)
    (fun _ _ h => ⟨h.replays htrans, h.written⟩) ?_ _ 0 (by omega) t hinit
  intro i hi hin t' h
  have hin' : (i : Int) < log.lh.n.toInt := by
    unfold Logheader.rounds at hin
    omega
  have hhome := htrans.home ⟨i, hi⟩ hin'
  have hblock : log.block i ∈ log.area := Log.block_mem_area (by omega)
  have hne : log.lh.block ⟨i, hi⟩ ≠ log.block i := fun heq => hhome (heq ▸ hblock)
  have hcontents : (t.pending (log.lh.block ⟨i, hi⟩)).getD (t'.disk (log.lh.block ⟨i, hi⟩)) =
      t.contents (log.lh.block ⟨i, hi⟩) := by
    rw [h.home _ hhome, Logical.contents]
  have hnext : Logging log t (i + 1)
      (idle (update t'.disk (log.block i) (t.contents (log.lh.block ⟨i, hi⟩)))
        t.pending (t'.written ++ [log.block i])) := by
    refine ⟨rfl, ?_, ?_, ?_, ?_⟩
    · simp only [idle, update_of_ne (log.block_ne_start hi).symm, h.start]
    · intro b hb
      have hbi : b ≠ log.block i := fun heq => hb (heq ▸ hblock)
      simp only [idle, update_of_ne hbi, h.home b hb]
    · intro j hj
      by_cases hji : (j : Nat) = i
      · simp only [idle, hji, update_self]
        rw [show j = ⟨i, hi⟩ from Fin.ext hji]
      · have hjne : log.block j ≠ log.block i := fun heq => hji (log.block_injective j.2 hi heq)
        simp only [idle, update_of_ne hjne]
        exact h.logged j (by omega)
    · simp only [idle, List.mem_append, List.mem_singleton, not_or]
      exact ⟨h.written, (log.block_ne_start hi).symm⟩
  rw [h.idle]
  apply (logEntry_safe (I := fun d w => Replays log t.disk d ∧ log.start ∉ w) log i hne
    (htrans.pending_area _ hblock) ⟨h.replays htrans, h.written⟩ ?_).mono (fun _ h => h)
  · rintro _ t'' - rfl
    rw [hcontents]
    exact hnext
  · rw [hcontents]
    exact ⟨hnext.replays htrans, hnext.written⟩

theorem Logging.commit (htrans : Transaction log t₀) (h : Logging log t₀ log.lh.rounds t) :
    Installing log 0 t₀.contents (log.start ∈ ·) 0
      (Fs.idle (update t.disk log.start (headBlock log.lh (t.disk log.start)))
        t₀.pending (t.written ++ [log.start])) := by
  have hcount := htrans.count
  have hbound := htrans.bound
  have hroom := htrans.room
  have hrounds : log.lh.rounds ≤ LOGSIZE := by
    unfold Logheader.rounds
    omega
  have hstart : log.start ∈ log.area := Log.start_mem_area (by omega)
  have hentry : ∀ i : Fin LOGSIZE, (i : Int) < log.lh.n.toInt →
      headEntry (headBlock log.lh (t.disk log.start)) i = log.lh.block i := by
    intro i hi
    apply headEntry_headBlock _ _ _ hrounds
    unfold Logheader.rounds
    omega
  have hrest : ∀ b, b ∉ log.area →
      (∀ i : Nat, i < log.lh.n.toInt → headEntry (headBlock log.lh (t.disk log.start)) i ≠ b) →
      t.disk b = t₀.contents b := by
    intro b hb hlisted
    rw [h.home b hb, htrans.contents_of_unlisted]
    intro i hi
    rw [← hentry i hi]
    exact hlisted i hi
  have hreplays : Replays log t₀.contents
      (update t.disk log.start (headBlock log.lh (t.disk log.start))) := by
    have hsize : 0 < log.size.toInt := by omega
    refine ⟨?_, ?_, hsize, ?_, ?_, ?_⟩ <;> simp only [update_self, headCount_headBlock]
    · exact hbound
    · omega
    · intro i hi
      rw [hentry ⟨i, by omega⟩ hi]
      exact htrans.home _ hi
    · intro i hi
      have hlt : i < LOGSIZE := by omega
      rw [update_of_ne (log.block_ne_start hlt), hentry ⟨i, hlt⟩ hi]
      apply h.logged ⟨i, hlt⟩
      change i < log.lh.n.toInt.toNat
      omega
    · intro b hb hlisted
      have hne : b ≠ log.start := fun heq => hb (heq ▸ hstart)
      rw [update_of_ne hne]
      exact hrest b hb hlisted
  refine ⟨rfl, hreplays, ⟨?_, ?_⟩, fun j hj => by omega, ⟨htrans.pending_area, ?_⟩, by simp [Fs.idle]⟩
  · simp only [Fs.idle, update_self, headCount_headBlock]
  · intro i hi
    simp only [Fs.idle, update_self]
    exact (hentry i hi).symm
  · intro j _ hj
    exact (htrans.pending _).mpr ⟨j, hj, rfl⟩

-- Up to the commit point the disk replays to the old contents, after it to the
-- new ones.
def Atomic (log : Log) (t₀ t : Logical) : Prop :=
  Replays log t₀.disk t.disk ∧ log.start ∉ t.written ∨
    Replays log t₀.contents t.disk ∧ log.start ∈ t.written

-- What `commit` leaves behind: the contents are on the disk, and nothing is
-- pending any more.
structure Settled (log : Log) (t₀ : Logical) (log' : Log) (t : Logical) : Prop where
  cleared : log' = log.clear
  idle : t = idle t.disk (fun _ => none) t.written
  empty : headCount (t.disk log.start) = 0
  home : ∀ b, b ∉ log.area → t.disk b = t₀.contents b

theorem Transaction.settled (h : Transaction log t) (hn : ¬0 < log.lh.n) : Settled log t log t := by
  have hzero : log.lh.n.toInt = 0 := by
    have hcount := h.count
    rw [Int32.lt_iff_toInt_lt, show (0 : Int32).toInt = 0 from rfl] at hn
    omega
  have hunlisted : ∀ b, t.pending b = none := by
    intro b
    cases hpending : t.pending b with
    | none => rfl
    | some data =>
      obtain ⟨i, hi, -⟩ := (h.pending b).mp (by simp [hpending])
      omega
  refine ⟨?_, ?_, h.empty, ?_⟩
  · have hclear : log.lh.n = 0 := Int32.toInt_inj.mp hzero
    rw [Log.clear, ← hclear]
  · have hheld : t.held = fun _ => none := funext h.held
    have hpending : t.pending = fun _ => none := funext hunlisted
    calc t = ⟨t.disk, t.pending, t.held, t.written⟩ := rfl
      _ = idle t.disk (fun _ => none) t.written := by rw [hpending, hheld, idle]
  · intro b _
    rw [Logical.contents, hunlisted b, Option.getD_none]

theorem commit_safe (htrans : Transaction log t) :
    LSafe (Atomic log t) (Settled log t) (commit log) t := by
  have hmem : ∀ (w : List Blockno) (b : Blockno), log.start ∈ w → log.start ∈ w ++ [b] :=
    fun _ _ h => List.mem_append_left _ h
  unfold commit
  split
  · apply Safe.bind
    apply (writeLog_safe htrans).mono (fun _ h => .inl h)
    intro _ t' hold hlogging
    have hcommit := hlogging.commit htrans
    apply Safe.bind
    rw [hlogging.idle]
    apply Safe.mono (writeHead_safe (I := fun d w => Atomic log t (idle d t.pending w)) log ?_ ?_ ?_ ?_)
      (fun _ h => h)
    · rintro _ t'' - rfl
      apply Safe.bind
      apply (installTrans_safe hmem (fun _ => htrans.distinct) hcommit
        (fun b => (htrans.pending b).mp)).mono (fun _ h => .inr h)
      rintro _ t'' - ⟨hdone, hunpinned⟩
      apply Safe.bind
      apply (clearHead_safe hmem hdone).mono (fun _ h => .inr h)
      rintro _ t₃ hnew ⟨hcount, hidle⟩
      refine ⟨.inr hnew, rfl, ?_, hcount, hnew.1.home_of_empty hcount⟩
      rw [funext hunpinned] at hidle
      exact hidle
    · exact htrans.pending_area _ (Log.start_mem_area htrans.size_pos)
    · exact htrans.bound
    · exact .inl hold
    · exact .inr ⟨hcommit.replays, hcommit.written⟩
  · rename_i hn
    refine ⟨.inl ⟨Replays.of_empty htrans.size_pos htrans.empty fun _ _ => rfl, ?_⟩,
      htrans.settled hn⟩
    simp [htrans.written]

-- A recovery that a crash cuts off. The header in memory starts out arbitrary.
def CrashedRecovery (log : Log) (d d' : Blockno → Block) : Prop :=
  ∃ lh s, Run exec (recoverFromLog { log with lh := lh }) (boot d) none s ∧ s.disk = d'

theorem recovery_safe (h : Replays log c d) (lh : Logheader) :
    Safe exec (fun s => Replays log c s.disk)
      (fun _ s => headCount (s.disk log.start) = 0)
      (recoverFromLog { log with lh := lh }) (boot d) := by
  have hsafe := recoverFromLog_safe ((replays_iff lh).mpr h) []
  apply (hsafe.of_simulates simulates (boot_backs d)).mono
  · rintro s ⟨t, hback, hreplays⟩
    rw [hback.disk]
    exact (replays_iff lh).mp hreplays
  · rintro _ s - ⟨t, hback, hcount⟩
    rw [hback.disk]
    exact hcount

theorem CrashedRecovery.replays (h : Replays log c d) (hcrash : CrashedRecovery log d d') :
    Replays log c d' := by
  obtain ⟨lh, s, hrun, rfl⟩ := hcrash
  exact ((recovery_safe h lh).run hrun).1

theorem crashes_replays (h : Replays log c d)
    (hcrashes : Relation.ReflTransGen (CrashedRecovery log) d d') : Replays log c d' := by
  induction hcrashes with
  | refl => exact h
  | tail _ hcrash ih => exact hcrash.replays ih

theorem recovery_settles (h : Replays log c d) {lh : Logheader} {log' : Log} {s : Bcache}
    (hrun : Run exec (recoverFromLog { log with lh := lh }) (boot d) (some log') s) :
    headCount (s.disk log.start) = 0 ∧ ∀ b, b ∉ log.area → s.disk b = c b := by
  obtain ⟨hreplays, hpost⟩ := (recovery_safe h lh).run hrun
  have hcount := hpost log' rfl
  exact ⟨hcount, hreplays.home_of_empty hcount⟩

-- Cut `commit` off after any of its writes, cut any number of recoveries off in
-- the same way, and let one recovery finish: it does finish, the log is then
-- empty, and the home blocks are all old or all new. They are new if the header
-- had been written.
theorem crash_atomic (log : Log) (t : Logical) (s : Bcache) (htrans : Transaction log t)
    (hback : Backs t s) (result : Option Log) (s₁ : Bcache)
    (hcommit : Run exec (commit log) s result s₁) (d : Blockno → Block)
    (hcrashes : Relation.ReflTransGen (CrashedRecovery log) s₁.disk d) (lh : Logheader) :
    (∃ log' s₂, Run exec (recoverFromLog { log with lh := lh }) (boot d) (some log') s₂) ∧
    ∀ log' s₂, Run exec (recoverFromLog { log with lh := lh }) (boot d) (some log') s₂ →
      headCount (s₂.disk log.start) = 0 ∧
      ((∀ b, b ∉ log.area → s₂.disk b = s.disk b) ∨
        (∀ b, b ∉ log.area → s₂.disk b = t.contents b)) ∧
      (log.start ∈ s₁.written → ∀ b, b ∉ log.area → s₂.disk b = t.contents b) := by
  obtain ⟨⟨t₁, hback₁, hatomic⟩, -⟩ :=
    ((commit_safe htrans).of_simulates simulates hback).run hcommit
  rw [Atomic, ← hback₁.disk, ← hback₁.written, ← hback.disk] at hatomic
  rcases hatomic with ⟨hold, hunwritten⟩ | ⟨hnew, _⟩
  · have hd := crashes_replays hold hcrashes
    refine ⟨(recovery_safe hd lh).exists_run, ?_⟩
    intro log' s₂ hrun
    obtain ⟨hcount, hhome⟩ := recovery_settles hd hrun
    exact ⟨hcount, .inl hhome, fun h => absurd h hunwritten⟩
  · have hd := crashes_replays hnew hcrashes
    refine ⟨(recovery_safe hd lh).exists_run, ?_⟩
    intro log' s₂ hrun
    obtain ⟨hcount, hhome⟩ := recovery_settles hd hrun
    exact ⟨hcount, .inr hhome, fun _ => hhome⟩

def sampleLog : Log := ⟨2, 30, 0, ⟨2, fun i => if i.val = 0 then 40 else 41⟩⟩

def sampleWrites (b : Blockno) : Option Block :=
  if b = 40 then some fun _ => 7 else if b = 41 then some fun _ => 8 else none

def sampleLogical : Logical := ⟨fun _ _ => 0, sampleWrites, fun _ => none, []⟩

def sampleCache : Bcache :=
  ⟨fun _ _ => 0, fun b => (sampleWrites b).map fun data => ⟨data, 1, false⟩, []⟩

theorem sample_transaction : Transaction sampleLog sampleLogical := by
  have hn : sampleLog.lh.n.toInt = 2 := by decide
  have hblock : ∀ i : Fin LOGSIZE, sampleLog.lh.block i = if i.val = 0 then 40 else 41 := fun _ => rfl
  constructor
  · decide
  · decide
  · decide
  · intro i j hi hj heq
    rw [hblock, hblock] at heq
    apply Fin.ext
    grind
  · intro i _
    rw [hblock]
    split
    · decide
    · decide
  · intro b
    constructor
    · intro h
      by_cases h40 : b = 40
      · exact ⟨⟨0, by decide⟩, by decide, h40.symm⟩
      · by_cases h41 : b = 41
        · exact ⟨⟨1, by decide⟩, by decide, h41.symm⟩
        · simp [sampleLogical, sampleWrites, h40, h41] at h
    · rintro ⟨i, _, rfl⟩
      rw [hblock]
      split
      · rfl
      · rfl
  · exact fun _ => rfl
  · rfl
  · decide

theorem sample_backs : Backs sampleLogical sampleCache := by
  refine ⟨rfl, rfl, ?_⟩
  intro b
  simp only [sampleLogical, sampleCache]
  cases sampleWrites b with
  | none => exact .inl ⟨rfl, rfl⟩
  | some data => exact .inr ⟨1, rfl, Nat.le_refl 1⟩

-- The system stops after the header of a transaction of two blocks is on the
-- disk and before either of them is.
theorem crash_atomic_after_header : ∃ s₁,
    Run exec (commit sampleLog) sampleCache none s₁ ∧ s₁.written = [3, 4, 2] ∧
    ∃ log' s₂, Run exec (recoverFromLog sampleLog) (boot s₁.disk) (some log') s₂ ∧
      (s₂.disk 40 = fun _ => 7) ∧ s₂.disk 41 = fun _ => 8 := by
  have heval : (evalFor act 15 (commit sampleLog) sampleCache).map (·.written) = some [3, 4, 2] := by
    decide
  obtain ⟨s₁, heval, hwritten⟩ := Option.map_eq_some_iff.mp heval
  have hrun : Run exec (commit sampleLog) sampleCache none s₁ :=
    Run.of_evalFor (fun a s answer s' h => ⟨s, drift_refl s, h⟩) 15 heval
  obtain ⟨⟨log', s₂, hrecovered⟩, hall⟩ := crash_atomic sampleLog sampleLogical sampleCache
    sample_transaction sample_backs none s₁ hrun s₁.disk .refl sampleLog.lh
  have hnew := (hall log' s₂ hrecovered).2.2 (by rw [hwritten]; decide)
  exact ⟨s₁, hrun, hwritten, log', s₂, hrecovered, hnew 40 (by decide), hnew 41 (by decide)⟩

end Xv6Ringbuf.Fs
