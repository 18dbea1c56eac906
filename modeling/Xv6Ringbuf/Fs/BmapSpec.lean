import Xv6Ringbuf.Fs.Mapped

namespace Xv6Ringbuf.Fs

open Interleave Handler Function

namespace Disk

-- The number of blocks that are missing to have the blocks from `a` up to `c` of a
-- file. Past the direct blocks the indirect block may be one of them.
def missing (d : Disk) (din : Dinode) (a c : Nat) : Nat :=
  (List.range' a (c - a)).countP (fun bn => d.addr din bn = 0) +
    if din.indirect = 0 ∧ a < c ∧ NDIRECT < c then 1 else 0

theorem missing_one (d : Disk) (din : Dinode) (bn : Nat) :
    d.missing din bn (bn + 1) =
      (if d.addr din bn = 0 then 1 else 0) + if din.indirect = 0 ∧ ¬bn < NDIRECT then 1 else 0 := by
  have hiff : din.indirect = 0 ∧ bn < bn + 1 ∧ NDIRECT < bn + 1 ↔ din.indirect = 0 ∧ ¬bn < NDIRECT :=
    and_congr_right fun _ => by omega
  rw [missing, Nat.add_sub_cancel_left]
  simp only [List.range'_one, List.countP_cons, List.countP_nil, Nat.zero_add, decide_eq_true_eq, hiff]

theorem missing_there {d : Disk} {din : Dinode} {bn : Nat} (h : d.addr din bn ≠ 0) :
    d.missing din bn (bn + 1) = 0 := by
  have hind : ¬(din.indirect = 0 ∧ ¬bn < NDIRECT) := by
    intro hand
    rw [addr, dif_neg hand.2, if_pos hand.1] at h
    exact h rfl
  rw [missing_one, if_neg h, if_neg hind]

theorem missing_mono (d : Disk) (din : Dinode) {a c c' : Nat} (h : c ≤ c') :
    d.missing din a c ≤ d.missing din a c' := by
  have hsub : (List.range' a (c - a)).Sublist (List.range' a (c' - a)) := by
    rw [List.range'_sublist_right]
    omega
  have hcount := hsub.countP_le (p := fun bn => decide (d.addr din bn = 0))
  rw [missing, missing]
  apply Nat.add_le_add hcount
  by_cases hold : din.indirect = 0 ∧ a < c ∧ NDIRECT < c
  · rw [if_pos hold, if_pos ⟨hold.1, by omega, by omega⟩]
  · rw [if_neg hold]
    exact Nat.zero_le _

theorem missing_step {d d' : Disk} {din din' : Dinode} {a c : Nat} (hlt : a < c)
    (haddr : ∀ bn, a < bn → bn < c → d'.addr din' bn = d.addr din bn)
    (hdirect : a < NDIRECT → din'.indirect = din.indirect)
    (hindirect : ¬a < NDIRECT → din'.indirect ≠ 0) :
    d.missing din a c = d.missing din a (a + 1) + d'.missing din' (a + 1) c := by
  have hrange : List.range' a (c - a) = a :: List.range' (a + 1) (c - (a + 1)) := by
    rw [show c - a = (c - (a + 1)) + 1 by omega, List.range'_succ]
  have hcount : (List.range' (a + 1) (c - (a + 1))).countP (fun bn => decide (d'.addr din' bn = 0)) =
      (List.range' (a + 1) (c - (a + 1))).countP (fun bn => decide (d.addr din bn = 0)) := by
    apply List.countP_congr
    intro bn hbn
    rw [List.mem_range'_1] at hbn
    rw [haddr bn (by omega) (by omega)]
  have hind : (if din.indirect = 0 ∧ a < c ∧ NDIRECT < c then 1 else 0) =
      (if din.indirect = 0 ∧ ¬a < NDIRECT then 1 else 0) +
        if din'.indirect = 0 ∧ a + 1 < c ∧ NDIRECT < c then 1 else 0 := by
    by_cases ha : a < NDIRECT
    · rw [hdirect ha, if_neg (fun hand : din.indirect = 0 ∧ ¬a < NDIRECT => hand.2 ha), Nat.zero_add]
      have hiff : a < c ∧ NDIRECT < c ↔ a + 1 < c ∧ NDIRECT < c := by omega
      simp only [hiff]
    · rw [if_neg (fun hand : din'.indirect = 0 ∧ _ => hindirect ha hand.1), Nat.add_zero]
      have hiff : a < c ∧ NDIRECT < c ↔ ¬a < NDIRECT := by omega
      simp only [hiff]
  rw [missing_one, missing, missing, hrange, hcount, List.countP_cons, hind]
  simp only [decide_eq_true_eq]
  omega

end Disk

namespace Kern

variable {P : Type} {sb : Superblock} {s s' : Kern P} {i : Ip}

-- What `bmap` has done when it returns `r`. Without enough free blocks it has used up
-- those there were. Besides the new blocks it has logged blocks `bits` of the bitmap.
structure BmapPost (sb : Superblock) (i : Ip) (bn : Nat) (s : Kern P) (r : Blockno) (s' : Kern P)
    (l : List Blockno) : Prop where
  mapped : Mapped sb i s s' l
  addr : r = s'.view.addr (s'.table i).din bn
  fresh : ∀ bn', bn' < MAXFILE → bn' ≠ bn →
    s'.view.addr (s'.table i).din bn' = s.view.addr (s.table i).din bn'
  direct : bn < NDIRECT → (s'.table i).din.indirect = (s.table i).din.indirect
  room : r ≠ 0 →
    (s'.view.free sb).card + s.view.missing (s.table i).din bn (bn + 1) = (s.view.free sb).card
  lack : r = 0 → s'.view.free sb = ∅ ∧ (s.view.free sb).card < s.view.missing (s.table i).din bn (bn + 1)
  new : r ≠ 0 → s.view.addr (s.table i).din bn = 0 → r ∈ l
  old : ∀ bn', bn' < MAXFILE → s.view.addr (s.table i).din bn' ≠ 0 → s.view.addr (s.table i).din bn' ∉ l
  log : ∃ bits : List Blockno,
    (∀ b ∈ l, b ∈ bits ∨ b = r ∨ b = (s'.table i).din.indirect ∧ (s'.table i).din.indirect ≠ 0) ∧
    bits.length ≤ s.view.missing (s.table i).din bn (bn + 1)

variable {bn : Nat} {b : Blockno}

theorem Serving.post_there (h : s.Serving sb i) (hne : s.view.addr (s.table i).din bn ≠ 0) :
    BmapPost sb i bn s (s.view.addr (s.table i).din bn) s [] := by
  refine ⟨h.mapped, rfl, fun _ _ _ => rfl, fun _ => rfl, fun _ => ?_, fun hzero => absurd hzero hne,
    fun _ hzero => absurd hzero hne, fun _ _ _ => List.not_mem_nil, [], nofun, Nat.zero_le _⟩
  rw [Disk.missing_there hne, Nat.add_zero]

theorem Serving.post_full (h : s.Serving sb i) (hzero : s.view.addr (s.table i).din bn = 0)
    (hfull : s.view.free sb = ∅) : BmapPost sb i bn s 0 s [] := by
  refine ⟨h.mapped, hzero.symm, fun _ _ _ => rfl, fun _ => rfl, fun hne => absurd rfl hne,
    fun _ => ⟨hfull, ?_⟩, fun hne => absurd rfl hne, fun _ _ _ => List.not_mem_nil, [], nofun, Nat.zero_le _⟩
  rw [hfull, Finset.card_empty, Disk.missing_one, if_pos hzero]
  omega

theorem Serving.addr_ne (h : s.Serving sb i) (hgeo : Geometry sb) (hdata : sb.IsData b)
    (hfree : s.view.used sb b = false) (hbn : bn < MAXFILE) (hne : s.view.addr (s.table i).din bn ≠ 0) :
    s.view.addr (s.table i).din bn ≠ BBLOCK sb b ∧ s.view.addr (s.table i).din bn ≠ b := by
  have hplaced := h.accounted.placed _ (.data ⟨bn, hbn⟩) h.allocated
  rw [inodes_self] at hplaced
  obtain ⟨hdata', hused⟩ := hplaced hne
  refine ⟨fun heq => BBLOCK_ne_data hgeo hdata.2 hdata' heq.symm, fun heq => ?_⟩
  have hused : s.view.used sb (s.view.addr (s.table i).din bn) = true := hused
  rw [heq, hfree] at hused
  cases hused

theorem Serving.post_attach (h : s.Serving sb i) (hgeo : Geometry sb) (hbn : bn < NDIRECT)
    (hzero : s.view.addr (s.table i).din bn = 0) (hdata : sb.IsData b)
    (hfree : s.view.used sb b = false) :
    BmapPost sb i bn s b (s.attach sb i ⟨bn, Nat.lt_succ_of_lt hbn⟩ b) [BBLOCK sb b, b] := by
  have hzero' : (s.table i).din.addrs ⟨bn, Nat.lt_succ_of_lt hbn⟩ = 0 := by
    rw [Disk.addr, dif_pos hbn] at hzero
    exact hzero
  have htable : (s.attach sb i ⟨bn, Nat.lt_succ_of_lt hbn⟩ b).table i =
      { s.table i with din := (s.table i).din.setAddr ⟨bn, Nat.lt_succ_of_lt hbn⟩ b } :=
    Mem.setDin_table_self ..
  have hview : (s.attach sb i ⟨bn, Nat.lt_succ_of_lt hbn⟩ b).view = s.view.allot sb b := view_allot sb s b
  have hplaces := h.attach_places hgeo hzero' hdata hfree
  have hmissing : s.view.missing (s.table i).din bn (bn + 1) = 1 := by
    rw [Disk.missing_one, if_pos hzero, if_neg (fun hand => hand.2 hbn)]
  rw [Place.ofAddr, dif_pos hbn] at hplaces
  refine ⟨h.attach hgeo hzero' hdata hfree, ?_, fun bn' hbn' hne => ?_, fun _ => ?_, fun _ => ?_,
    fun hz => absurd hz hdata.ne_zero, fun _ _ => by simp, fun bn' hbn' hne => ?_, [BBLOCK sb b], ?_, ?_⟩
  · simp only [htable, Disk.addr, dif_pos hbn, Dinode.setAddr, update_self]
  · have hplace := hplaces (.data ⟨bn', hbn'⟩)
    rw [if_neg (by simpa using hne)] at hplace
    exact hplace
  · have hplace := hplaces .indirect
    rw [if_neg (fun h => by cases h)] at hplace
    exact hplace
  · rw [hview, hmissing]
    exact Disk.card_free_allot hgeo hdata hfree
  · obtain ⟨hbit, hb⟩ := h.addr_ne hgeo hdata hfree hbn' hne
    simp only [List.mem_cons, List.not_mem_nil, or_false, not_or]
    exact ⟨hbit, hb⟩
  · intro b' hb'
    simp only [List.mem_cons, List.not_mem_nil, or_false] at hb' ⊢
    rcases hb' with hb' | hb'
    · exact .inl hb'
    · exact .inr (.inl hb')
  · rw [hmissing]
    exact Nat.le_refl _

theorem Serving.post_enter (h : s.Serving sb i) (hgeo : Geometry sb) (hdirect : ¬bn < NDIRECT)
    (hbn : bn < MAXFILE) (hind : (s.table i).din.indirect ≠ 0)
    (hzero : s.view.addr (s.table i).din bn = 0) (hdata : sb.IsData b)
    (hfree : s.view.used sb b = false) :
    BmapPost sb i bn s b (s.enter sb i (bn - NDIRECT) b) [BBLOCK sb b, b, (s.table i).din.indirect] := by
  have hnindirect : NINDIRECT = 256 := rfl
  have hmaxfile : MAXFILE = NDIRECT + NINDIRECT := rfl
  have hview : (s.enter sb i (bn - NDIRECT) b).view = update (s.view.allot sb b)
      (s.table i).din.indirect (setWord (s.view (s.table i).din.indirect) (bn - NDIRECT) b) := by
    rw [Kern.enter, view_put, view_allot]
  have hinddata : sb.IsData (s.table i).din.indirect := by
    have hplaced := h.accounted.placed _ .indirect h.allocated
    rw [inodes_self] at hplaced
    exact (hplaced hind).1
  have hplaces := h.enter_places hgeo hind hdirect hbn hzero hdata hfree
  have hmissing : s.view.missing (s.table i).din bn (bn + 1) = 1 := by
    rw [Disk.missing_one, if_pos hzero, if_neg (fun hand => hind hand.1)]
  refine ⟨h.enter hgeo hind hdirect hbn hzero hdata hfree, ?_, fun bn' hbn' hne => ?_,
    fun hlt => absurd hlt hdirect, fun _ => ?_, fun hz => absurd hz hdata.ne_zero, fun _ _ => by simp,
    fun bn' hbn' hne => ?_, [BBLOCK sb b], ?_, ?_⟩
  · rw [hview, show (s.enter sb i (bn - NDIRECT) b).table i = s.table i from rfl, Disk.addr, dif_neg hdirect,
      if_neg hind, update_self, getWord_setWord_self _ _ (by omega)]
  · have hplace := hplaces (.data ⟨bn', hbn'⟩)
    rw [if_neg (by simpa using hne)] at hplace
    exact hplace
  · rw [hview, Disk.free_update hgeo hinddata, hmissing]
    exact Disk.card_free_allot hgeo hdata hfree
  · obtain ⟨hbit, hb⟩ := h.addr_ne hgeo hdata hfree hbn' hne
    have hapart := h.accounted.apart _ _ (.data ⟨bn', hbn'⟩) .indirect h.allocated h.allocated
    rw [inodes_self] at hapart
    simp only [List.mem_cons, List.not_mem_nil, or_false, not_or]
    refine ⟨hbit, hb, fun heq => ?_⟩
    have hplace := (hapart hne heq).2
    cases hplace
  · intro b' hb'
    simp only [List.mem_cons, List.not_mem_nil, or_false] at hb' ⊢
    rcases hb' with hb' | hb' | hb'
    · exact .inl hb'
    · exact .inr (.inl hb')
    · exact .inr (.inr ⟨hb', hind⟩)
  · rw [hmissing]
    exact Nat.le_refl _

theorem Serving.post_indirect (h : s.Serving sb i) (hgeo : Geometry sb) (hdirect : ¬bn < NDIRECT)
    (hind : (s.table i).din.indirect = 0) {r : Blockno} {l : List Blockno} (hdata : sb.IsData b)
    (hfree : s.view.used sb b = false)
    (hpost : BmapPost sb i bn (s.attach sb i (Fin.last NDIRECT) b) r s' l) :
    BmapPost sb i bn s r s' (BBLOCK sb b :: b :: l) := by
  have hmapped := h.attach hgeo hind hdata hfree
  have hview : (s.attach sb i (Fin.last NDIRECT) b).view = s.view.allot sb b := view_allot sb s b
  have hdin : ((s.attach sb i (Fin.last NDIRECT) b).table i).din =
      (s.table i).din.setAddr (Fin.last NDIRECT) b :=
    congrArg Inode.din (Mem.setDin_table_self ..)
  have hind' : ((s.attach sb i (Fin.last NDIRECT) b).table i).din.indirect = b := by
    rw [hdin]
    exact update_self (Fin.last NDIRECT) b (s.table i).din.addrs
  have haddr : s.view.addr (s.table i).din bn = 0 := by
    rw [Disk.addr, dif_neg hdirect, if_pos hind]
  have haddr' : (s.attach sb i (Fin.last NDIRECT) b).view.addr
      ((s.attach sb i (Fin.last NDIRECT) b).table i).din bn = 0 := by
    rw [Disk.addr, dif_neg hdirect, hind', if_neg hdata.ne_zero, hview, Disk.allot_self, getWord_zeroBlock]
  have hmissing : s.view.missing (s.table i).din bn (bn + 1) = 2 := by
    rw [Disk.missing_one, if_pos haddr, if_pos ⟨hind, hdirect⟩]
  have hmissing' : (s.attach sb i (Fin.last NDIRECT) b).view.missing
      ((s.attach sb i (Fin.last NDIRECT) b).table i).din bn (bn + 1) = 1 := by
    rw [Disk.missing_one, if_pos haddr', hind', if_neg (fun hand => hdata.ne_zero hand.1)]
  have hplaces := h.attach_places hgeo hind hdata hfree
  rw [Place.ofAddr, dif_neg (by simp)] at hplaces
  have hcard := Disk.card_free_allot hgeo hdata hfree
  rw [← hview] at hcard
  -- the address of the indirect block stays
  have hkeep : (s'.table i).din.indirect = b := by
    have hkeep := hpost.mapped.keep _ .indirect hmapped.serving.allocated
    rw [inodes_self] at hkeep
    have hself := inodes_self sb s' i
    rw [hpost.mapped.inum_eq] at hself
    rw [hself] at hkeep
    exact (hkeep (by rw [Disk.blockAt, hind']; exact hdata.ne_zero)).trans hind'
  obtain ⟨bits, hlog, hbits⟩ := hpost.log
  refine ⟨hmapped.trans hpost.mapped, hpost.addr, fun bn' hbn' hne => ?_, fun hlt => absurd hlt hdirect,
    fun hne => ?_, fun hz => ?_, fun hne _ => ?_, fun bn' hbn' hne => ?_, BBLOCK sb b :: bits, ?_, ?_⟩
  · have hplace := hplaces (.data ⟨bn', hbn'⟩)
    rw [if_neg (fun h => by cases h)] at hplace
    exact (hpost.fresh bn' hbn' hne).trans hplace
  · have hroom := hpost.room hne
    rw [hmissing'] at hroom
    rw [hmissing]
    omega
  · obtain ⟨hfull, hlack⟩ := hpost.lack hz
    rw [hmissing'] at hlack
    rw [hmissing]
    exact ⟨hfull, by omega⟩
  · exact List.mem_cons_of_mem _ (List.mem_cons_of_mem _ (hpost.new hne haddr'))
  · obtain ⟨hbit, hb⟩ := h.addr_ne hgeo hdata hfree hbn' hne
    have hplace := hplaces (.data ⟨bn', hbn'⟩)
    rw [if_neg (fun h => by cases h)] at hplace
    have hplace : (s.attach sb i (Fin.last NDIRECT) b).view.addr
      ((s.attach sb i (Fin.last NDIRECT) b).table i).din bn' = s.view.addr (s.table i).din bn' := hplace
    have hold := hpost.old bn' hbn'
    rw [hplace] at hold
    simp only [List.mem_cons, not_or]
    exact ⟨hbit, hb, hold hne⟩
  · intro b' hb'
    simp only [List.mem_cons] at hb' ⊢
    rcases hb' with hb' | hb' | hb'
    · exact .inl (.inl hb')
    · refine .inr (.inr ⟨hb'.trans hkeep.symm, ?_⟩)
      rw [hkeep]
      exact hdata.ne_zero
    · rcases hlog b' hb' with hmem | hr | hi
      · exact .inl (.inr hmem)
      · exact .inr (.inl hr)
      · exact .inr (.inr hi)
  · rw [hmissing'] at hbits
    rw [List.length_cons, hmissing]
    omega

section Code

variable (h : s.Serving sb i) (hgeo : Geometry sb)

include h hgeo

omit hgeo in
theorem Serving.holdsData_indirect (hind : (s.table i).din.indirect ≠ 0) :
    (s.take (s.table i).din.indirect).HoldsData sb := by
  have hplaced := h.accounted.placed _ .indirect h.allocated
  rw [inodes_self] at hplaced
  obtain ⟨hdata, hused⟩ := hplaced hind
  exact (holdsData_of_none h.held).take hdata hused

variable [DecidableEq P] {p : P} {E : Stop → Prop}

theorem Serving.bmapSlot (k : Fin (NDIRECT + 1)) :
    Logs p (Fsys.bmapSlot sb i k) s (fun r s' l =>
      (s.table i).din.addrs k ≠ 0 ∧ r = (s.table i).din.addrs k ∧ s' = s ∧ l = [] ∨
      (s.table i).din.addrs k = 0 ∧ (r = 0 ∧ s' = s ∧ l = [] ∧ s.view.free sb = ∅ ∨
        sb.IsData r ∧ s.view.used sb r = false ∧ s' = s.attach sb i k r ∧ l = [BBLOCK sb r, r])) E := by
  rw [Fsys.bmapSlot]
  apply logs_inode
  by_cases hzero : (s.table i).din.addrs k = 0
  · rw [if_pos hzero]
    apply logs_balloc hgeo (holdsData_of_none h.held) h.accounted.metadata
    · intro hfull
      rw [if_pos rfl]
      exact logs_pure (.inr ⟨hzero, .inl ⟨rfl, rfl, rfl, hfull⟩⟩)
    · intro b hdata hfree
      rw [if_neg hdata.ne_zero, Fsys.setAddr]
      apply logs_inode
      apply logs_setDin
      exact logs_pure (.inr ⟨hzero, .inr ⟨hdata, hfree, rfl, rfl⟩⟩)
  · rw [if_neg hzero]
    exact logs_pure (.inl ⟨hzero, rfl, rfl, rfl⟩)

theorem Serving.bmapEntry {bn : Nat} (hdirect : ¬bn < NDIRECT) (hbn : bn < MAXFILE)
    (hind : (s.table i).din.indirect ≠ 0) :
    Logs p (do
      let data ← Fsys.bread (s.table i).din.indirect
      let entry := getWord data (bn - NDIRECT)
      if entry = 0 then
        let new ← Fsys.balloc sb
        if new = 0 then
          Fsys.brelse (s.table i).din.indirect
          return 0
        else
          Fsys.memmove (s.table i).din.indirect (setWord data (bn - NDIRECT) new)
          Fsys.logWrite (s.table i).din.indirect
          Fsys.brelse (s.table i).din.indirect
          return new
      else
        Fsys.brelse (s.table i).din.indirect
        return entry) s (BmapPost sb i bn s) E := by
  have haddr : s.view.addr (s.table i).din bn =
      getWord (s.view (s.table i).din.indirect) (bn - NDIRECT) := by
    rw [Disk.addr, dif_neg hdirect, if_neg hind]
  have hnone := h.held (s.table i).din.indirect
  have hholds := h.holdsData_indirect hind
  apply logs_bread hnone
  by_cases hzero : getWord (s.view (s.table i).din.indirect) (bn - NDIRECT) = 0
  · simp only [if_pos hzero]
    rw [← haddr] at hzero
    apply logs_balloc hgeo hholds h.accounted.metadata
    · intro hfull
      rw [if_pos rfl]
      exact logs_brelse hnone (logs_pure (h.post_full hzero hfull))
    · intro b hdata hfree
      have hinddata := hholds (s.table i).din.indirect (by simp [take, held_hold])
      have hne : b ≠ (s.table i).din.indirect := by
        intro heq
        rw [heq, hinddata.2] at hfree
        cases hfree
      rw [if_neg hdata.ne_zero, allot_take (BBLOCK_ne_data hgeo hdata.2 hinddata.1) hne]
      exact logs_log hnone (logs_pure (h.post_enter hgeo hdirect hbn hind hzero hdata hfree))
  · simp only [if_neg hzero]
    rw [← haddr] at hzero ⊢
    exact logs_brelse hnone (logs_pure (h.post_there hzero))

theorem Serving.bmap {bn : Nat} (hbn : bn < MAXFILE) :
    Logs p (Fsys.bmap sb i bn) s (BmapPost sb i bn s) E := by
  have hmaxfile : MAXFILE = NDIRECT + NINDIRECT := rfl
  rw [Fsys.bmap]
  by_cases hdirect : bn < NDIRECT
  · rw [dif_pos hdirect]
    have haddr : s.view.addr (s.table i).din bn = (s.table i).din.addrs ⟨bn, Nat.lt_succ_of_lt hdirect⟩ := by
      rw [Disk.addr, dif_pos hdirect]
    refine (h.bmapSlot hgeo ⟨bn, Nat.lt_succ_of_lt hdirect⟩).mono ?_ fun _ h => h
    rintro r s' l (⟨hne, rfl, rfl, rfl⟩ | ⟨hzero, ⟨rfl, rfl, rfl, hfull⟩ | ⟨hdata, hfree, rfl, rfl⟩⟩)
    · rw [← haddr] at hne ⊢
      exact h.post_there hne
    · rw [← haddr] at hzero
      exact h.post_full hzero hfull
    · rw [← haddr] at hzero
      exact h.post_attach hgeo hdirect hzero hdata hfree
  · rw [dif_neg hdirect, if_pos (by omega)]
    refine Notes.bind (h.bmapSlot hgeo (Fin.last NDIRECT)) ?_
    rintro r s' l (⟨hne, rfl, rfl, rfl⟩ | ⟨hzero, ⟨rfl, rfl, rfl, hfull⟩ | ⟨hdata, hfree, rfl, rfl⟩⟩)
    · rw [if_neg hne]
      exact h.bmapEntry hgeo hdirect hbn hne
    · have haddr : s'.view.addr (s'.table i).din bn = 0 := by
        rw [Disk.addr, dif_neg hdirect]
        exact if_pos hzero
      rw [if_pos rfl]
      exact logs_pure (h.post_full haddr hfull)
    · have hind : ((s.attach sb i (Fin.last NDIRECT) r).table i).din.indirect = r := by
        rw [show (s.attach sb i (Fin.last NDIRECT) r).table i =
          { s.table i with din := (s.table i).din.setAddr (Fin.last NDIRECT) r } from
            Mem.setDin_table_self ..]
        exact update_self (Fin.last NDIRECT) r (s.table i).din.addrs
      have hentry := (h.attach hgeo hzero hdata hfree).serving.bmapEntry (p := p) (E := E) hgeo hdirect hbn
        (by rw [hind]; exact hdata.ne_zero)
      rw [hind] at hentry
      rw [if_neg hdata.ne_zero]
      refine hentry.mono (fun r' s'' l' hpost => ?_) fun _ h => h
      exact h.post_indirect hgeo hdirect hzero hdata hfree hpost

end Code

end Kern

end Xv6Ringbuf.Fs
