import Xv6Ringbuf.Fs.Commit
import Xv6Ringbuf.Fs.Spare

namespace Xv6Ringbuf.Fs

open Interleave Crash

abbrev SpareSafe {α : Type} (post : α → Spare → Prop) (p : Code α) (g : Spare) : Prop :=
  Safe (fun a g _ g' => Spare.take g a = some g') (fun _ => True) post p g

section Rules

variable {α : Type} {post : α → Spare → Prop} {g : Spare} {b : Blockno}

theorem spare_act {a : Act} {next : Answer a → Code α} {g' : Spare} (htake : g.take a = some g')
    (hnext : ∀ answer, SpareSafe post (next answer) g') : SpareSafe post (.act a next) g := by
  refine ⟨trivial, ⟨?_, g', htake⟩, ?_⟩
  · cases a with
    | bread b => exact fun _ => 0
    | _ => exact ()
  · intro answer g'' htake'
    rw [← Option.some.inj (htake.symm.trans htake')]
    exact hnext answer

theorem bread_pinned_spare {next : Block → Code α} (hreach : g.reach b) (hpinned : g.pinned b)
    (hnext : ∀ data, SpareSafe post (next data) (g.see b)) : SpareSafe post (bread b >>= next) g :=
  spare_act (by simp [Spare.take, hreach, hpinned]) hnext

theorem bread_spare {next : Block → Code α} (hreach : g.reach b) (hpinned : ¬g.pinned b)
    (hextra : g.extra = none)
    (hnext : ∀ data, SpareSafe post (next data) { g.see b with extra := some b }) :
    SpareSafe post (bread b >>= next) g :=
  spare_act (by simp [Spare.take, hreach, hpinned, hextra]) hnext

variable {next : Unit → Code α}

theorem memmove_spare {data : Block} (hnext : SpareSafe post (next ()) g) :
    SpareSafe post (memmove b data >>= next) g :=
  spare_act rfl fun _ => hnext

theorem bwrite_spare (hnext : SpareSafe post (next ()) g) :
    SpareSafe post (bwrite b >>= next) g :=
  spare_act rfl fun _ => hnext

theorem brelse_spare
    (hnext : SpareSafe post (next ()) { g with extra := g.extra.filter fun b' => b' ≠ b }) :
    SpareSafe post (brelse b >>= next) g :=
  spare_act rfl fun _ => hnext

theorem bunpin_spare
    (hnext : SpareSafe post (next ()) { g with pinned := fun b' => g.pinned b' ∧ b' ≠ b }) :
    SpareSafe post (bunpin b >>= next) g :=
  spare_act rfl fun _ => hnext

end Rules

structure Spare.Back (g : Spare) (pinned : Blockno → Prop) (g' : Spare) : Prop where
  reach : g'.reach = g.reach
  pinned : g'.pinned = pinned
  extra : g'.extra = none
  seen : ∀ b, g.seen b → g'.seen b

section Entries

variable {g : Spare}

theorem logEntry_spare (log : Log) (tail : Nat) {src : Blockno} (hextra : g.extra = none)
    (hreach : g.reach (log.block tail)) (hlog : ¬g.pinned (log.block tail)) (hsrc : g.reach src)
    (hpinned : g.pinned src) :
    SpareSafe (fun _ g' => g.Back g.pinned g' ∧ g'.seen src) (logEntry log tail src) g := by
  have hne : log.block tail ≠ src := by
    rintro rfl
    exact hlog hpinned
  unfold logEntry
  refine bread_spare hreach hlog hextra fun _ => ?_
  refine bread_pinned_spare hsrc hpinned fun _ => ?_
  apply memmove_spare
  apply bwrite_spare
  apply brelse_spare
  show SpareSafe _ (brelse (log.block tail) >>= pure) _
  apply brelse_spare
  refine ⟨trivial, ⟨rfl, rfl, ?_, ?_⟩, .inr rfl⟩
  · simp [Spare.see, hne]
  · exact fun b hb => .inl (.inl hb)

theorem installEntry_spare (log : Log) (tail : Nat) {dst : Blockno} (hextra : g.extra = none)
    (hreach : g.reach (log.block tail)) (hlog : ¬g.pinned (log.block tail)) (hdst : g.reach dst)
    (hpinned : g.pinned dst) :
    SpareSafe (fun _ g' => g.Back (fun b => g.pinned b ∧ b ≠ dst) g')
      (installEntry log 0 tail dst) g := by
  unfold installEntry
  refine bread_spare hreach hlog hextra fun _ => ?_
  refine bread_pinned_spare hdst hpinned fun _ => ?_
  apply memmove_spare
  apply bwrite_spare
  apply bunpin_spare
  apply brelse_spare
  show SpareSafe _ (brelse dst >>= pure) _
  apply brelse_spare
  refine ⟨trivial, rfl, rfl, ?_, ?_⟩
  · simp [Spare.see]
  · exact fun b hb => .inl (.inl hb)

theorem writeHead_spare (log : Log) (hcount : log.lh.n.toInt ≤ LOGSIZE) (hextra : g.extra = none)
    (hreach : g.reach log.start) (hlog : ¬g.pinned log.start) :
    SpareSafe (fun _ g' => g.Back g.pinned g') (writeHead log) g := by
  unfold writeHead
  refine bread_spare hreach hlog hextra fun _ => ?_
  rw [if_neg (by omega)]
  apply memmove_spare
  apply bwrite_spare
  show SpareSafe _ (brelse log.start >>= pure) _
  apply brelse_spare
  refine ⟨trivial, rfl, rfl, ?_, ?_⟩
  · simp
  · exact fun b hb => .inl hb

end Entries

def Log.reach (log : Log) (b : Blockno) : Prop := b ∈ log.area ∨ log.lh.Listed b

structure Between (log : Log) (i j : Nat) (g : Spare) : Prop where
  reach : g.reach = log.reach
  extra : g.extra = none
  pinned : ∀ b, g.pinned b → log.lh.Listed b
  seen : ∀ k : Fin LOGSIZE, k < i → g.seen (log.lh.block k)
  left : ∀ k : Fin LOGSIZE, j ≤ k → (k : Int) < log.lh.n.toInt → g.pinned (log.lh.block k)

section Commit

variable {log : Log} {t : Logical}

variable {g g' : Spare} {n m : Nat}

theorem Between.not_pinned {b : Blockno} (h : Between log n m g) (htrans : Transaction log t)
    (hb : b ∈ log.area) : ¬g.pinned b := by
  intro hpinned
  obtain ⟨j, hj, heq⟩ := h.pinned _ hpinned
  exact htrans.home j hj (heq ▸ hb)

theorem Between.back (h : Between log n m g) (hback : g.Back g.pinned g') : Between log n m g' := by
  refine ⟨hback.reach.trans h.reach, hback.extra, ?_, fun k hk => hback.seen _ (h.seen k hk), ?_⟩
  · rw [hback.pinned]
    exact h.pinned
  · rw [hback.pinned]
    exact h.left

theorem writeLog_spare (htrans : Transaction log t) (h : Between log 0 0 g) :
    SpareSafe (fun _ g' => Between log log.lh.rounds 0 g') (writeLog log) g := by
  have hbound := htrans.bound
  have hroom := htrans.room
  refine forEntries_safe (fun i g => Between log i 0 g) (by unfold Logheader.rounds; omega)
    (fun _ _ _ => trivial) ?_ _ 0 (by omega) g h
  intro i hi hin g h
  have hin' : (i : Int) < log.lh.n.toInt := by
    unfold Logheader.rounds at hin
    omega
  have hblock : log.block i ∈ log.area := Log.block_mem_area (by omega)
  have hpinned := h.left ⟨i, hi⟩ (Nat.zero_le _) hin'
  apply (logEntry_spare log i h.extra (h.reach ▸ .inl hblock) (h.not_pinned htrans hblock)
    (h.reach ▸ .inr (h.pinned _ hpinned)) hpinned).mono (fun _ h => h)
  rintro _ g' - ⟨hback, hsrc⟩
  refine { h.back hback with seen := fun k hk => ?_ }
  by_cases hki : (k : Nat) = i
  · rw [show k = ⟨i, hi⟩ from Fin.ext hki]
    exact hsrc
  · exact hback.seen _ (h.seen k (by omega))

theorem installTrans_spare (htrans : Transaction log t) (h : Between log n 0 g) :
    SpareSafe (fun _ g' => Between log n log.lh.rounds g') (installTrans log 0) g := by
  have hbound := htrans.bound
  have hroom := htrans.room
  refine forEntries_safe (fun i g => Between log n i g) (by unfold Logheader.rounds; omega)
    (fun _ _ _ => trivial) ?_ _ 0 (by omega) g h
  intro i hi hin g h
  have hin' : (i : Int) < log.lh.n.toInt := by
    unfold Logheader.rounds at hin
    omega
  have hblock : log.block i ∈ log.area := Log.block_mem_area (by omega)
  have hpinned := h.left ⟨i, hi⟩ (Nat.le_refl _) hin'
  apply (installEntry_spare log i h.extra (h.reach ▸ .inl hblock) (h.not_pinned htrans hblock)
    (h.reach ▸ .inr (h.pinned _ hpinned)) hpinned).mono (fun _ h => h)
  rintro _ g' - hback
  refine ⟨hback.reach.trans h.reach, hback.extra, ?_, ?_, ?_⟩
  · rw [hback.pinned]
    exact fun b hb => h.pinned b hb.1
  · exact fun k hk => hback.seen _ (h.seen k hk)
  · rw [hback.pinned]
    intro k hik hk
    refine ⟨h.left k (by omega) hk, ?_⟩
    intro heq
    have hki := htrans.distinct k ⟨i, hi⟩ hk hin' heq
    rw [hki] at hik
    simp only at hik
    omega

theorem head_spare (htrans : Transaction log t) (h : Between log n m g) (lh : Logheader)
    (hcount : lh.n.toInt ≤ LOGSIZE) :
    SpareSafe (fun _ g' => Between log n m g') (writeHead { log with lh := lh }) g := by
  have hstart : log.start ∈ log.area := Log.start_mem_area htrans.size_pos
  apply (writeHead_spare { log with lh := lh } hcount h.extra (h.reach ▸ .inl hstart)
    (h.not_pinned htrans hstart)).mono (fun _ h => h)
  exact fun _ g' _ hback => h.back hback

theorem commit_spare (htrans : Transaction log t) :
    SpareSafe (fun _ g => ∀ b, log.lh.Listed b → g.seen b) (commit log)
      ⟨log.reach, log.lh.Listed, none, fun _ => False⟩ := by
  have hstart : Between log 0 0 ⟨log.reach, log.lh.Listed, none, fun _ => False⟩ :=
    ⟨rfl, rfl, fun _ h => h, fun k hk => by omega, fun k _ hk => ⟨k, hk, rfl⟩⟩
  unfold commit
  split
  · apply Safe.bind
    apply (writeLog_spare htrans hstart).mono (fun _ h => h)
    intro _ g _ h
    apply Safe.bind
    apply (head_spare htrans h log.lh htrans.bound).mono (fun _ h => h)
    intro _ g _ h
    apply Safe.bind
    apply (installTrans_spare htrans h).mono (fun _ h => h)
    intro _ g _ h
    apply Safe.bind
    apply (head_spare htrans h log.clear.lh (Int.natCast_nonneg LOGSIZE)).mono (fun _ h => h)
    intro _ g _ h
    refine ⟨trivial, ?_⟩
    rintro b ⟨k, hk, rfl⟩
    apply h.seen k
    unfold Logheader.rounds
    omega
  · rename_i hn
    refine ⟨trivial, ?_⟩
    rintro b ⟨k, hk, rfl⟩
    rw [Int32.lt_iff_toInt_lt, show (0 : Int32).toInt = 0 from rfl] at hn
    omega

theorem commit_eval {others : Blockno → Option Block} {c : Cache} (htrans : Transaction log t)
    (hcaches : Caches (t.hold others) c) :
    ((∀ b, log.reach b → others b = none) → (∃ i, (c.buf i).refcnt = 0) →
      ∃ log' c', (commit log).eval Cache.act c = some (log', c')) ∧
    ∀ log' c', (commit log).eval Cache.act c = some (log', c') →
      ∃ t', Settled log t log' t' ∧ Framed others t.disk t' c' ∧
        ∀ b, log.lh.Listed b → others b = none := by
  have hsafe := (commit_safe htrans).prod (commit_spare htrans)
  have hspares : ∀ room : Prop, (room → ∀ b, log.reach b → others b = none) →
      (room → ∃ i, (c.buf i).refcnt = 0) →
      Spares others t.disk room (t, ⟨log.reach, log.lh.Listed, none, fun _ => False⟩) c := by
    intro room hreach hfree
    refine ⟨⟨hcaches, fun b _ => htrans.held b, fun _ _ => rfl⟩, ?_, hreach,
      fun b hb => hb.elim, fun h => .inl (hfree h)⟩
    intro b hb
    exact (htrans.pending b).mpr hb
  constructor
  · intro hreach hfree
    have hrun := hsafe.of_simulates (spare_simulates others t.disk trivial)
      (hspares True (fun _ => hreach) (fun _ => hfree))
    exact hrun.eval
  · intro log' c' heval
    obtain ⟨⟨t', g⟩, hrel, hsettled, hseen⟩ := hsafe.of_tracks (spare_tracks others t.disk False)
      (hspares False False.elim False.elim) heval
    exact ⟨t', hsettled, hrel.framed, fun b hb => hrel.seen b (hseen b hb)⟩

end Commit

end Xv6Ringbuf.Fs
