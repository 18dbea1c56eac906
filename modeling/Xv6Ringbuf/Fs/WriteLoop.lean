import Xv6Ringbuf.Fs.Written

namespace Xv6Ringbuf.Fs

open Interleave Handler

namespace Fsys

structure Gives (src : Src) (buf : List UInt8) (n : Nat) : Prop where
  length : n ≤ buf.length
  copied : ∀ tot m, tot + m ≤ n → (src tot m).2 = true → (src tot m).1 = (buf.drop tot).take m

-- The bytes of the next round: no more than there are left, and not past the end of
-- the block.
def piece (n tot off : Nat) : Nat := min (n - tot) (BSIZE - off % BSIZE)

end Fsys

namespace Kern

variable {P : Type} {sb : Superblock} {s s' : Kern P} {i : Ip}
  {src : Fsys.Src} {buf : List UInt8} {n : Nat}

-- How the loop of `writei`, started in `s` at block `a`, ends after `t` bytes at offset
-- `off`: with all bytes written, without a free block for the next ones, or at a copy
-- that fails. What this copy has stored stays in the buffer.
inductive Ends (sb : Superblock) (i : Ip) (src : Fsys.Src) (n : Nat) (s : Kern P) (a off t : Nat)
    (s₁ : Kern P) : Kern P → Prop where
  | all (h : t = n) : Ends sb i src n s a off t s₁ s₁
  | full (h : t < n) (hfull : s₁.view.free sb = ∅)
      (hlack : (s.view.free sb).card < s.view.missing (s.table i).din a (off / BSIZE + 1)) :
      Ends sb i src n s a off t s₁ s₁
  | failed (r : Blockno) (h : t < n) (hr : r = s₁.view.addr (s₁.table i).din (off / BSIZE)) (hne : r ≠ 0)
      (hroom : s.view.missing (s.table i).din a (off / BSIZE + 1) ≤ (s.view.free sb).card)
      (hsrc : (src t (Fsys.piece n t off)).2 = false) :
      Ends sb i src n s a off t s₁ (s₁.spoil r
        (splice (s₁.view r) (off % BSIZE) ((src t (Fsys.piece n t off)).1.take (Fsys.piece n t off))))

-- The blocks of the file that are still to be written, and those missing for them.
def toLog (s : Kern P) (i : Ip) (n tot off : Nat) : Nat :=
  if tot < n then
    ((off + (n - tot) + BSIZE - 1) / BSIZE - off / BSIZE) +
      s.view.missing (s.table i).din (off / BSIZE) ((off + (n - tot) + BSIZE - 1) / BSIZE)
  else 0

-- What the loop of `writei` has done when it ends after `t` bytes. Besides the indirect
-- block it has logged blocks `cover`.
structure WritePost (sb : Superblock) (i : Ip) (src : Fsys.Src) (buf : List UInt8) (n : Nat) (s : Kern P)
    (tot off t : Nat) (s₁ s' : Kern P) (l : List Blockno) : Prop where
  low : tot ≤ t
  high : t ≤ n
  written : Written sb i s s₁ l off ((buf.drop tot).take (t - tot))
  ends : Ends sb i src n s (off / BSIZE) (off + (t - tot)) t s₁ s'
  there : ∀ x, off ≤ x → x < off + (t - tot) → s₁.view.addr (s₁.table i).din (x / BSIZE) ≠ 0
  copied : ∀ x, tot ≤ x → x < t → ∃ tot' m, tot' ≤ x ∧ x < tot' + m ∧ (src tot' m).2 = true
  start : t = tot ∨ t = n ∨ (off + (t - tot)) % BSIZE = 0
  new : t < n → s₁.view.addr (s₁.table i).din ((off + (t - tot)) / BSIZE) ≠ 0 →
    s.view.addr (s.table i).din ((off + (t - tot)) / BSIZE) = 0 →
      s₁.view.addr (s₁.table i).din ((off + (t - tot)) / BSIZE) ∈ l
  old : ∀ bn, bn < MAXFILE → t = tot ∨ off + (t - tot) ≤ bn * BSIZE →
    s.view.addr (s.table i).din bn ≠ 0 → s.view.addr (s.table i).din bn ∉ l
  log : ∃ cover : List Blockno, (∀ b ∈ l, b ∈ cover ∨
      b = (s₁.table i).din.indirect ∧ (s₁.table i).din.indirect ≠ 0) ∧ cover.length ≤ s.toLog i n tot off

variable {tot off m t : Nat} {l : List Blockno} {s₁ s₂ : Kern P} {r : Blockno}

theorem toLog_pos (s : Kern P) (i : Ip) (off : Nat) (h : tot < n) :
    1 + s.view.missing (s.table i).din (off / BSIZE) (off / BSIZE + 1) ≤ s.toLog i n tot off := by
  have hbsize : BSIZE = 1024 := rfl
  have hblock : off / BSIZE + 1 ≤ (off + (n - tot) + BSIZE - 1) / BSIZE := by
    rw [hbsize]
    omega
  have hmono := s.view.missing_mono (s.table i).din (a := off / BSIZE) hblock
  rw [toLog, if_pos h]
  omega

theorem Serving.writePost_all (h : s.Serving sb i) (off : Nat) :
    WritePost sb i src buf n s n off n s s [] := by
  refine ⟨Nat.le_refl _, Nat.le_refl _, ?_, .all rfl, fun x _ _ => by omega,
    fun x _ _ => by omega, .inl rfl, fun h => absurd h (Nat.lt_irrefl n),
    fun _ _ _ _ => List.not_mem_nil, [], nofun, Nat.zero_le _⟩
  rw [Nat.sub_self, List.take_zero]
  exact h.mapped.written h off

-- One round of the loop, which has stored `m` bytes in block `off / BSIZE`.
structure Round (sb : Superblock) (i : Ip) (buf : List UInt8) (n : Nat) (s : Kern P) (tot off m : Nat)
    (s' : Kern P) (l : List Blockno) : Prop where
  pos : 0 < m
  le : tot + m ≤ n
  next : tot + m < n → (off + m) / BSIZE = off / BSIZE + 1
  within : off % BSIZE + m ≤ BSIZE
  block : s'.view.addr (s'.table i).din (off / BSIZE) ≠ 0
  written : Written sb i s s' l off ((buf.drop tot).take m)
  fresh : ∀ bn, bn < MAXFILE → bn ≠ off / BSIZE →
    s'.view.addr (s'.table i).din bn = s.view.addr (s.table i).din bn
  old : ∀ bn, bn < MAXFILE → bn ≠ off / BSIZE → s.view.addr (s.table i).din bn ≠ 0 →
    s.view.addr (s.table i).din bn ∉ l
  direct : off / BSIZE < NDIRECT → (s'.table i).din.indirect = (s.table i).din.indirect
  indirect : ¬off / BSIZE < NDIRECT → (s'.table i).din.indirect ≠ 0
  room : (s'.view.free sb).card + s.view.missing (s.table i).din (off / BSIZE) (off / BSIZE + 1) =
    (s.view.free sb).card
  log : ∃ cover : List Blockno, (∀ b ∈ l, b ∈ cover ∨
      b = (s'.table i).din.indirect ∧ (s'.table i).din.indirect ≠ 0) ∧
    cover.length ≤ 1 + s.view.missing (s.table i).din (off / BSIZE) (off / BSIZE + 1)

theorem Round.missing_step {c : Nat} (h : Round sb i buf n s tot off m s' l) (hlt : off / BSIZE < c)
    (hmax : c ≤ MAXFILE) :
    s.view.missing (s.table i).din (off / BSIZE) c =
      s.view.missing (s.table i).din (off / BSIZE) (off / BSIZE + 1) +
        s'.view.missing (s'.table i).din (off / BSIZE + 1) c :=
  Disk.missing_step hlt (fun bn hbn hbnc => h.fresh bn (by omega) (by omega)) h.direct h.indirect

theorem Round.ends (h : Round sb i buf n s tot off m s' l) (hmax : off + (n - tot) ≤ MAXFILE * BSIZE)
    (hlow : tot + m ≤ t) (hends : Ends sb i src n s' ((off + m) / BSIZE) (off + (t - tot)) t s₁ s₂) :
    Ends sb i src n s (off / BSIZE) (off + (t - tot)) t s₁ s₂ := by
  have hbsize : BSIZE = 1024 := rfl
  -- the round before the last one that was begun
  have hstep : t < n → s.view.missing (s.table i).din (off / BSIZE) ((off + (t - tot)) / BSIZE + 1) =
      s.view.missing (s.table i).din (off / BSIZE) (off / BSIZE + 1) +
        s'.view.missing (s'.table i).din ((off + m) / BSIZE) ((off + (t - tot)) / BSIZE + 1) := by
    intro hlt
    rw [h.next (by omega)]
    apply h.missing_step
    · rw [hbsize]
      omega
    · rw [hbsize] at hmax ⊢
      omega
  have hroom := h.room
  cases hends with
  | all heq => exact .all heq
  | full hlt hfull hlack =>
    refine .full hlt hfull ?_
    rw [hstep hlt]
    omega
  | failed r hlt hr hne hroom' hsrc =>
    refine .failed r hlt hr hne ?_ hsrc
    rw [hstep hlt]
    omega

theorem Round.toLog (h : Round sb i buf n s tot off m s' l) (hmax : off + (n - tot) ≤ MAXFILE * BSIZE) :
    1 + s.view.missing (s.table i).din (off / BSIZE) (off / BSIZE + 1) + s'.toLog i n (tot + m) (off + m) ≤
      s.toLog i n tot off := by
  have hbsize : BSIZE = 1024 := rfl
  have hpos := h.pos
  have hle := h.le
  by_cases hlt : tot + m < n
  · have hnext := h.next hlt
    have hend : off + m + (n - (tot + m)) = off + (n - tot) := by omega
    have hmissing := h.missing_step (c := (off + (n - tot) + BSIZE - 1) / BSIZE)
      (by rw [hbsize]; omega) (by rw [hbsize] at hmax ⊢; omega)
    rw [Kern.toLog, Kern.toLog, if_pos hlt, if_pos (by omega), hend, hnext, hmissing]
    have hblock : off / BSIZE + 1 ≤ (off + (n - tot) + BSIZE - 1) / BSIZE := by
      rw [hbsize]
      omega
    omega
  · have hone := toLog_pos s i off (show tot < n by omega)
    rw [show s'.toLog i n (tot + m) (off + m) = 0 from if_neg hlt]
    exact hone

theorem Round.writePost {l' : List Blockno} (h : Round sb i buf n s tot off m s' l)
    (hlen : n ≤ buf.length) (hmax : off + (n - tot) ≤ MAXFILE * BSIZE) (hok : (src tot m).2 = true)
    (hpost : WritePost sb i src buf n s' (tot + m) (off + m) t s₁ s₂ l') :
    WritePost sb i src buf n s tot off t s₁ s₂ (l ++ l') := by
  have hle := h.le
  have hlow := hpost.low
  have hpiece : ((buf.drop tot).take m).length = m := by
    rw [List.length_take, List.length_drop]
    omega
  have hoff : off + m + (t - (tot + m)) = off + (t - tot) := by omega
  refine ⟨by omega, hpost.high, ?_, ?_, ?_, ?_, ?_, ?_, ?_, ?_⟩
  · have htrans := h.written.trans hpost.written (by rw [hpiece])
    rw [← List.drop_drop, ← List.take_add, show m + (t - (tot + m)) = t - tot by omega] at htrans
    exact htrans
  · apply h.ends hmax hlow
    rw [← hoff]
    exact hpost.ends
  · intro x hx hx'
    by_cases hfirst : x < off + m
    · -- The block of this round stays where it is.
      have hwithin := h.within
      have hblock : x / BSIZE = off / BSIZE := by
        rw [show BSIZE = 1024 from rfl] at hwithin ⊢
        omega
      have hbn : off / BSIZE < MAXFILE := by
        rw [show BSIZE = 1024 from rfl] at hmax ⊢
        have hpos := h.pos
        omega
      have hkeep := hpost.written.keep_own h.written.serving
        (show s'.view.blockAt _ (.data ⟨off / BSIZE, hbn⟩) ≠ 0 from h.block)
      rw [hblock, show s₁.view.addr _ _ = _ from hkeep]
      exact h.block
    · exact hpost.there x (by omega) (by omega)
  · intro x hx hx'
    by_cases hfirst : x < tot + m
    · exact ⟨tot, m, hx, hfirst, hok⟩
    · exact hpost.copied x (by omega) hx'
  · have hnext := h.next
    rw [← hoff]
    rcases hpost.start with rfl | hend | haligned
    · by_cases hlt : tot + m < n
      · have hblock := hnext hlt
        have hwithin := h.within
        rw [show BSIZE = 1024 from rfl] at hblock hwithin ⊢
        omega
      · exact .inr (.inl (by omega))
    · exact .inr (.inl hend)
    · exact .inr (.inr haligned)
  · intro hlt hne hzero
    rw [← hoff] at hne hzero ⊢
    have hblock := h.next (by omega)
    have hpast : off / BSIZE + 1 ≤ (off + m + (t - (tot + m))) / BSIZE := by
      rw [← hblock]
      exact Nat.div_le_div_right (Nat.le_add_right _ _)
    have hbn : (off + m + (t - (tot + m))) / BSIZE < MAXFILE := by
      rw [show BSIZE = 1024 from rfl] at hmax ⊢
      omega
    rw [← h.fresh _ hbn (by omega)] at hzero
    exact List.mem_append_right l (hpost.new hlt hne hzero)
  · intro bn hbn hpast hne
    have hpos := h.pos
    have hlater : bn ≠ off / BSIZE := by
      rw [show BSIZE = 1024 from rfl] at hpast ⊢
      omega
    rw [List.mem_append, not_or]
    refine ⟨h.old bn hbn hlater hne, ?_⟩
    rw [← h.fresh bn hbn hlater] at hne ⊢
    exact hpost.old bn hbn (.inr (by omega)) hne
  · obtain ⟨cover, hcover, hsize⟩ := h.log
    obtain ⟨cover', hcover', hsize'⟩ := hpost.log
    have htoLog := h.toLog hmax
    refine ⟨cover ++ cover', ?_, ?_⟩
    · intro b hb
      rw [List.mem_append] at hb ⊢
      rcases hb with hb | hb
      · rcases hcover b hb with hmem | ⟨rfl, hne⟩
        · exact .inl (.inl hmem)
        · -- the indirect block stays the same
          have hkeep : (s₁.table i).din.indirect = (s'.table i).din.indirect :=
            hpost.written.keep_own h.written.serving (show s'.view.blockAt _ .indirect ≠ 0 from hne)
          rw [hkeep]
          exact .inr ⟨rfl, hne⟩
      · rcases hcover' b hb with hmem | hind
        · exact .inl (.inr hmem)
        · exact .inr hind
    · rw [List.length_append]
      omega

theorem BmapPost.round (h : BmapPost sb i (off / BSIZE) s r s₁ l) (hs : s.Serving sb i)
    (hgeo : Geometry sb) (hne : r ≠ 0) (hbn : off / BSIZE < MAXFILE) (htot : tot < n)
    (hlen : n ≤ buf.length) :
    Round sb i buf n s tot off (Fsys.piece n tot off)
      (s₁.put r (splice (s₁.view r) (off % BSIZE) ((buf.drop tot).take (Fsys.piece n tot off)))) (l ++ [r]) := by
  have hbsize : BSIZE = 1024 := rfl
  have hpiece : Fsys.piece n tot off ≤ n - tot ∧ Fsys.piece n tot off ≤ BSIZE - off % BSIZE :=
    ⟨Nat.min_le_left _ _, Nat.min_le_right _ _⟩
  have hpos : 0 < Fsys.piece n tot off := by
    rw [Fsys.piece, hbsize]
    omega
  have hdata : ((buf.drop tot).take (Fsys.piece n tot off)).length = Fsys.piece n tot off := by
    rw [List.length_take, List.length_drop]
    omega
  have hmod : off % BSIZE < BSIZE := Nat.mod_lt _ (by omega)
  have hfits : off % BSIZE + ((buf.drop tot).take (Fsys.piece n tot off)).length ≤ BSIZE := by
    rw [hdata]
    omega
  have hput := h.mapped.serving.put_data hgeo h.addr hne hbn hfits
  -- the stored bytes do not move the blocks
  have hkeep : ∀ place, (s₁.put r (splice (s₁.view r) (off % BSIZE)
      ((buf.drop tot).take (Fsys.piece n tot off)))).view.blockAt (s₁.table i).din place =
        s₁.view.blockAt (s₁.table i).din place :=
    (h.mapped.serving.dataChange hgeo h.addr hne hbn hfits (view_put s₁ r _) rfl rfl).2
  have hrdata : sb.IsData r := by
    have hplaced := h.mapped.serving.accounted.placed _ (.data ⟨off / BSIZE, hbn⟩) h.mapped.serving.allocated
    rw [inodes_self] at hplaced
    simp only [Disk.blockAt, ← h.addr] at hplaced
    exact (hplaced hne).1
  refine ⟨hpos, by omega, ?_, by omega, ?_, ?_, ?_, ?_, h.direct, ?_, ?_, ?_⟩
  · intro hlt
    have hwhole : Fsys.piece n tot off = BSIZE - off % BSIZE := by
      rw [Fsys.piece] at hlt ⊢
      omega
    rw [hwhole, hbsize]
    omega
  · have hblock := hkeep (.data ⟨off / BSIZE, hbn⟩)
    intro hzero
    exact hne (h.addr.trans (hblock.symm.trans hzero))
  · have htrans := (h.mapped.written hs off).trans hput (by simp)
    rw [List.nil_append] at htrans
    exact htrans
  · intro bn hbn' hbnne
    exact (hkeep (.data ⟨bn, hbn'⟩)).trans (h.fresh bn hbn' hbnne)
  · intro bn hbn' hbnne hold
    rw [List.mem_append, List.mem_singleton, not_or]
    refine ⟨h.old bn hbn' hold, fun heq => ?_⟩
    rw [← h.fresh bn hbn' hbnne] at hold heq
    have hapart := h.mapped.serving.accounted.apart _ _ (.data ⟨bn, hbn'⟩) (.data ⟨off / BSIZE, hbn⟩)
      h.mapped.serving.allocated h.mapped.serving.allocated
    rw [inodes_self] at hapart
    have hplace := (hapart hold (heq.trans h.addr)).2
    rw [Place.data.injEq, Fin.mk.injEq] at hplace
    exact hbnne hplace
  · intro hdirect hzero
    have hzero : (s₁.table i).din.indirect = 0 := hzero
    have haddr := h.addr
    rw [Disk.addr, dif_neg hdirect, if_pos hzero] at haddr
    exact hne haddr
  · rw [view_put, Disk.free_update hgeo hrdata]
    exact h.room hne
  · obtain ⟨bits, hbits, hsize⟩ := h.log
    refine ⟨r :: bits, ?_, by rw [List.length_cons]; omega⟩
    intro b hb
    rw [List.mem_append, List.mem_singleton] at hb
    rcases hb with hb | hb
    · rcases hbits b hb with hmem | hr | hind
      · exact .inl (List.mem_cons_of_mem _ hmem)
      · exact .inl (List.mem_cons.mpr (.inl hr))
      · exact .inr hind
    · exact .inl (List.mem_cons.mpr (.inl hb))

theorem BmapPost.stopped (h : BmapPost sb i (off / BSIZE) s r s₁ l) (hs : s.Serving sb i)
    (htot : tot < n) (hends : Ends sb i src n s (off / BSIZE) off tot s₁ s₂) :
    WritePost sb i src buf n s tot off tot s₁ s₂ l := by
  refine ⟨Nat.le_refl _, Nat.le_of_lt htot, ?_, by rw [Nat.sub_self]; exact hends,
    fun x _ _ => by omega, fun x _ _ => by omega, .inl rfl, ?_,
    fun bn hbn _ hne => h.old bn hbn hne, ?_⟩
  · rw [Nat.sub_self, List.take_zero]
    exact h.mapped.written hs off
  · rw [Nat.sub_self, Nat.add_zero, ← h.addr]
    exact fun _ => h.new
  · obtain ⟨bits, hbits, hsize⟩ := h.log
    have hpos := toLog_pos s i off htot
    refine ⟨r :: bits, ?_, by rw [List.length_cons]; omega⟩
    intro b hb
    rcases hbits b hb with hmem | hr | hind
    · exact .inl (List.mem_cons_of_mem _ hmem)
    · exact .inl (List.mem_cons.mpr (.inl hr))
    · exact .inr hind

variable [DecidableEq P] {p : P} {E : Stop → Prop}

theorem Serving.writeiFrom (hgeo : Geometry sb) (hgives : Fsys.Gives src buf n) (rounds : Nat)
    (h : s.Serving sb i) (hrounds : n - tot ≤ rounds) (htot : tot ≤ n)
    (hmax : off + (n - tot) ≤ MAXFILE * BSIZE) :
    Logs p (Fsys.writeiFrom sb i src n rounds tot off) s
      (fun t s' l => ∃ s₁, WritePost sb i src buf n s tot off t s₁ s' l) E := by
  have hbsize : BSIZE = 1024 := rfl
  induction rounds generalizing s tot off with
  | zero =>
    obtain rfl : tot = n := by omega
    exact logs_pure ⟨s, h.writePost_all off⟩
  | succ rounds ih =>
    rw [Fsys.writeiFrom]
    by_cases hlt : tot < n
    · have hbn : off / BSIZE < MAXFILE := by
        rw [hbsize] at hmax ⊢
        omega
      rw [if_pos hlt]
      refine Notes.bind (h.bmap hgeo hbn) ?_
      intro r s₁ l hpost
      by_cases hr : r = 0
      · rw [if_pos hr]
        obtain ⟨hfull, hlack⟩ := hpost.lack hr
        refine logs_pure ⟨s₁, ?_⟩
        rw [List.append_nil]
        exact hpost.stopped h hlt (.full hlt hfull hlack)
      · rw [if_neg hr]
        have hfree := hpost.mapped.serving.held r
        apply logs_bread hfree
        change Logs p (do
          Fsys.memmove r (splice (s₁.view r) (off % BSIZE)
            ((src tot (Fsys.piece n tot off)).1.take (Fsys.piece n tot off)))
          if (src tot (Fsys.piece n tot off)).2 = true then
            Fsys.logWrite r
            Fsys.brelse r
            Fsys.writeiFrom sb i src n rounds (tot + Fsys.piece n tot off) (off + Fsys.piece n tot off)
          else
            Fsys.brelse r
            return tot) (s₁.take r) _ E
        have hle : Fsys.piece n tot off ≤ n - tot := Nat.min_le_left _ _
        cases hok : (src tot (Fsys.piece n tot off)).2 with
        | true =>
          simp only [if_true]
          apply logs_log hfree
          rw [hgives.copied tot _ (by omega) hok, List.take_take, Nat.min_self]
          have hround := hpost.round h hgeo hr hbn hlt hgives.length
          refine (ih hround.written.serving ?_ ?_ ?_).mono ?_ fun _ h => h
          · have := hround.pos
            omega
          · exact hround.le
          · have := hround.le
            omega
          · rintro t s' l' ⟨s₂, hrest⟩
            refine ⟨s₂, ?_⟩
            rw [show l ++ r :: l' = l ++ [r] ++ l' by simp]
            exact hround.writePost hgives.length hmax hok hrest
        | false =>
          simp only [if_false, Bool.false_eq_true]
          apply logs_spoil hfree
          refine logs_pure ⟨s₁, ?_⟩
          rw [List.append_nil]
          refine hpost.stopped h hlt (.failed r hlt hpost.addr hr ?_ hok)
          have hroom := hpost.room hr
          omega
    · rw [if_neg hlt]
      obtain rfl : tot = n := by omega
      exact logs_pure ⟨s, h.writePost_all off⟩

end Kern

end Xv6Ringbuf.Fs
