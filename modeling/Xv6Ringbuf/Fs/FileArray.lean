import Xv6Ringbuf.Fs.ReadiSpec
import Xv6Ringbuf.Fs.WriteBound

namespace Xv6Ringbuf.Fs

open Interleave Handler Machine

theorem overlay_list {old : Nat → UInt8} {size off : Nat} (data : List UInt8) (hoff : off ≤ size) :
    (List.range (max size (off + data.length))).map (overlay off data old) =
      ((List.range size).map old).take off ++ data ++
        ((List.range size).map old).drop (off + data.length) := by
  rw [List.append_assoc]
  apply List.ext_getElem
  · simp only [List.length_map, List.length_range, List.length_append, List.length_take,
      List.length_drop]
    omega
  · intro x hx hx'
    rw [List.getElem_map, List.getElem_range]
    simp only [List.length_map, List.length_range] at hx
    by_cases hlow : x < off
    · rw [overlay_of_lt _ _ hlow, List.getElem_append_left (by simp; omega)]
      simp
    · by_cases hhigh : off + data.length ≤ x
      · rw [overlay_of_ge _ _ hhigh, List.getElem_append_right (by simp; omega),
          List.getElem_append_right (by simp; omega)]
        simp only [List.getElem_drop, List.getElem_map, List.getElem_range, List.length_take,
          List.length_map, List.length_range]
        congr 1
        omega
      · rw [List.getElem_append_right (by simp; omega), List.getElem_append_left (by simp; omega)]
        simp only [overlay, List.length_take, List.length_map, List.length_range]
        rw [if_pos (by omega), List.getD_eq_getElem _ _ (by omega)]
        congr 1
        omega

namespace Disk

theorem addr_of_ge (d : Disk) (din : Dinode) {bn : Nat} (h : MAXFILE ≤ bn) : d.addr din bn = 0 := by
  have hmax : MAXFILE = 268 := rfl
  have hndirect : NDIRECT = 12 := rfl
  have hbsize : BSIZE = 1024 := rfl
  have hpast : ∀ j < 4, dataAt (d din.indirect) (4 * (bn - NDIRECT) + j) = dataAt zeroBlock (4 * (bn - NDIRECT) + j) := by
    intro j hj
    rw [dataAt_zeroBlock, dataAt, dif_neg (by omega)]
  rw [addr, dif_neg (by omega), getWord_congr hpast, getWord_zeroBlock, ite_self]

theorem byte_of_ge (d : Disk) (din : Dinode) {x : Nat} (h : MAXFILE ≤ x / BSIZE) : d.byte din x = 0 := by
  rw [byte, addr_of_ge d din h, if_pos rfl]

theorem contents_congr {d d' : Disk} {din din' : Dinode} (hsize : din'.size = din.size)
    (hbyte : ∀ x, x / BSIZE < MAXFILE → d'.byte din' x = d.byte din x) :
    d'.contents din' = d.contents din := by
  unfold contents
  rw [hsize]
  apply List.map_congr_left
  intro x _
  by_cases hx : x / BSIZE < MAXFILE
  · exact hbyte x hx
  · rw [byte_of_ge _ _ (Nat.le_of_not_lt hx), byte_of_ge _ _ (Nat.le_of_not_lt hx)]

end Disk

namespace Kern

variable {P : Type} {sb : Superblock} {s s' : Kern P} {i : Ip}

variable {off size n t : Nat} {data buf rest : List UInt8} {src : Fsys.Src} {s₁ s₂ : Kern P}
  {l : List Blockno}

theorem Stored.inum_eq (h : Stored sb i s s' off data size) :
    (s'.table i).inum = (s.table i).inum := by
  obtain ⟨addrs, hmem⟩ := h.mem
  rw [hmem, Mem.setDin_table_self]

theorem Stored.size_eq (h : Stored sb i s s' off data size) (hsize : size ≤ MAXFILE * BSIZE) :
    (s'.table i).din.size.toNat = size := by
  obtain ⟨addrs, hmem⟩ := h.mem
  have hmax : MAXFILE * BSIZE = 274432 := rfl
  rw [hmem, Mem.setDin_table_self]
  exact UInt32.toNat_ofNat_of_lt' (show size < 4294967296 by omega)

theorem Stored.contents (h : Stored sb i s s' off data size)
    (hsize : size = max (s.table i).din.size.toNat (off + data.length))
    (hoff : off ≤ (s.table i).din.size.toNat) (hold : (s.table i).din.size.toNat ≤ MAXFILE * BSIZE)
    (hmax : off + data.length ≤ MAXFILE * BSIZE) :
    s'.view.contents (s'.table i).din = (s.view.contents (s.table i).din).take off ++ data ++
      (s.view.contents (s.table i).din).drop (off + data.length) := by
  have hbsize : BSIZE = 1024 := rfl
  unfold Disk.contents
  rw [h.size_eq (by omega), hsize, ← overlay_list data hoff]
  apply List.map_congr_left
  intro x hx
  rw [List.mem_range] at hx
  apply h.own
  rw [hbsize] at hold hmax ⊢
  omega

theorem Stored.other_contents (h : Stored sb i s s' off data size) {inum : UInt32}
    (halloc : Allocated sb (s.inodes sb i) inum) (hne : inum ≠ (s.table i).inum) :
    s'.view.contents (s'.inodes sb i inum) = s.view.contents (s.inodes sb i inum) := by
  apply Disk.contents_congr
  · rw [inodes_of_ne hne, inodes_of_ne (by rw [h.inum_eq]; exact hne), h.dinode inum halloc.1 hne]
  · exact h.others inum halloc hne

theorem settle_free (hgeo : Geometry sb) (hinum : sb.HasInode (s.table i).inum) (e : Nat) :
    (s.settle sb i e).view.free sb = s.view.free sb := by
  apply Finset.filter_congr
  intro n hn
  have hsize := sb.size.toNat_lt
  have hlt := Finset.mem_range.mp hn
  have hnat : (UInt32.ofNat n).toNat = n := UInt32.toNat_ofNat_of_lt' (Nat.lt_trans hlt hsize)
  rw [settle_used hgeo hinum e (by rw [hnat]; exact hlt)]

structure Wrote (sb : Superblock) (i : Ip) (s s' : Kern P) (off : Nat) (data : List UInt8) (t : Nat) :
    Prop where
  le : t ≤ data.length
  full : t < data.length → s'.view.free sb = ∅
  size : (s'.table i).din.size.toNat = max (s.table i).din.size.toNat (off + t)
  contents : s'.view.contents (s'.table i).din = (s.view.contents (s.table i).din).take off ++
    data.take t ++ (s.view.contents (s.table i).din).drop (off + t)
  others : ∀ inum, Allocated sb (s.inodes sb i) inum → inum ≠ (s.table i).inum →
    s'.view.contents (s'.inodes sb i inum) = s.view.contents (s.inodes sb i inum)
  serving : s'.Serving sb i
  filled : Filled s'.view (s'.table i).din

theorem WritePost.stored (h : WritePost sb i src buf n s 0 off t s₁ s₂ l) (hgeo : Geometry sb)
    (hlen : n ≤ buf.length) (hrest : Changed sb i s₁ s₂ (off + t) rest) :
    Stored sb i s (s₂.settle sb i (off + t)) off (buf.take t ++ rest)
      (max (s.table i).din.size.toNat (off + t)) := by
  have hhigh := h.high
  have hwritten := h.written
  rw [List.drop_zero, Nat.sub_zero] at hwritten
  have hlength : (buf.take t).length = t := by rw [List.length_take, Nat.min_eq_left (by omega)]
  exact (hwritten.toChanged.trans hrest (by rw [hlength])).settle hgeo (off + t)

theorem WritePost.filled (h : WritePost sb i src buf n s 0 off t s₁ s₂ l) (hs : s.Serving sb i)
    (hgeo : Geometry sb) (hlen : n ≤ buf.length) (hfilled : Filled s.view (s.table i).din)
    (hoff : off ≤ (s.table i).din.size.toNat) (hmax : off + n ≤ MAXFILE * BSIZE)
    (hrest : Changed sb i s₁ s₂ (off + t) rest)
    (hblocks : ∀ place, s₂.view.blockAt (s₂.table i).din place = s₁.view.blockAt (s₁.table i).din place) :
    Filled (s₂.settle sb i (off + t)).view ((s₂.settle sb i (off + t)).table i).din := by
  have hbsize : BSIZE = 1024 := rfl
  have hhigh := h.high
  have hbounded := hfilled.bounded
  have hsize := (h.stored hgeo hlen hrest).size_eq (by omega)
  refine ⟨by rw [hsize]; omega, ?_⟩
  intro bn hbn
  rw [hsize] at hbn
  have hbn' : bn < MAXFILE := by
    rw [hbsize] at hbounded hmax hbn
    omega
  rw [show Disk.addr _ _ bn = _ from
    hrest.serving.settle_blockAt hgeo (off + t) (.data ⟨bn, hbn'⟩), hblocks]
  by_cases hold : bn * BSIZE < (s.table i).din.size.toNat
  · have hne := hfilled.filled bn hold
    have hkeep := h.written.keep_own hs (show s.view.blockAt _ (.data ⟨bn, hbn'⟩) ≠ 0 from hne)
    rw [hkeep]
    exact hne
  · -- A block past the old end was written.
    have hthere := h.there (bn * BSIZE) (by omega) (by omega)
    rw [Nat.mul_div_cancel bn (by decide)] at hthere
    exact hthere

theorem WritePost.wrote (h : WritePost sb i src data data.length s 0 off t s₁ s₂ l)
    (hsrc : ∀ tot m, tot + m ≤ data.length → (src tot m).2 = true) (hs : s.Serving sb i)
    (hgeo : Geometry sb) (hfilled : Filled s.view (s.table i).din)
    (hoff : off ≤ (s.table i).din.size.toNat) (hmax : off + data.length ≤ MAXFILE * BSIZE) :
    Wrote sb i s (s₂.settle sb i (off + t)) off data t := by
  have hhigh := h.high
  have hbounded := hfilled.bounded
  have hlen : (data.take t).length = t := by rw [List.length_take, Nat.min_eq_left hhigh]
  have hends : s₂ = s₁ ∧ (t < data.length → s₁.view.free sb = ∅) := by
    cases h.ends with
    | all heq => exact ⟨rfl, fun hlt => by omega⟩
    | full _ hfull _ => exact ⟨rfl, fun _ => hfull⟩
    | failed r hlt _ _ _ hfail =>
      have hpiece : Fsys.piece data.length t (off + (t - 0)) ≤ data.length - t := Nat.min_le_left _ _
      rw [hsrc t _ (by omega)] at hfail
      cases hfail
  obtain ⟨rfl, hfull⟩ := hends
  have hsame := (h.written.serving.mapped.written h.written.serving (off + t)).toChanged
  have hstored := h.stored hgeo (Nat.le_refl _) hsame
  rw [List.append_nil] at hstored
  have hcontents := hstored.contents (by rw [hlen]) hoff hbounded (by omega)
  have hsize := hstored.size_eq (by omega)
  rw [hlen] at hcontents
  refine ⟨hhigh, ?_, hsize, hcontents, fun inum halloc hne => hstored.other_contents halloc hne,
    hstored.serving, h.filled hs hgeo (Nat.le_refl _) hfilled hoff hmax hsame fun _ => rfl⟩
  intro hlt
  rw [settle_free hgeo h.written.serving.inum]
  exact hfull hlt

end Kern

-- A file is a list of bytes, `writei` replaces a part of it and `readi` takes one out. A
-- write may stop early, after `t` bytes, and then only because the disk is full.
theorem files_are_byte_arrays {P : Type} [DecidableEq P] (p : P) {sb : Superblock} (hgeo : Geometry sb)
    {s : Kern P} {i : Ip} (hserving : s.Serving sb i) (hfilled : Filled s.view (s.table i).din) :
    (∀ (src : Fsys.Src) (data : List UInt8) (off n : UInt32), data.length = n.toNat →
      (∀ tot m, tot + m ≤ n.toNat → src tot m = ((data.drop tot).take m, true)) →
      off ≤ (s.table i).din.size → off.toNat + n.toNat ≤ MAXFILE * BSIZE →
      ∃ (t : Nat) (s' : Kern P), (Kern.run p (Fsys.writei sb i src off n)).run s = .ok ((t : Int), s') ∧
        Kern.Wrote sb i s s' off.toNat data t) ∧
    ∀ (dst : Fsys.Dst) (off n : UInt32), (∀ tot m, tot + m ≤ n.toNat → dst tot m = true) →
      off.toNat + n.toNat < 2 ^ 32 →
      ∃ bytes, (Kern.run p (Fsys.readi sb i dst off n)).run s = .ok (((bytes.length : Nat), bytes), s) ∧
        bytes = ((s.view.contents (s.table i).din).drop off.toNat).take n.toNat := by
  constructor
  · intro src data off n hlen hsrc hoff hmax
    have hgives : Fsys.Gives src data n.toNat := by
      refine ⟨Nat.le_of_eq hlen.symm, fun tot m hle _ => ?_⟩
      rw [hsrc tot m hle]
    have hwrite : Kern.Runs p (Fsys.writei sb i src off n) s
        (fun r s' => ∃ t : Nat, r = t ∧ Kern.Wrote sb i s s' off.toNat data t) fun _ => False := by
      refine (hserving.writei hgeo hgives hoff hmax).runs ?_
      rintro _ _ _ ⟨t, s₁, s₂, l, rfl, hpost, rfl, _⟩
      rw [← hlen] at hpost hsrc hmax
      refine ⟨t, rfl, hpost.wrote (fun tot m hle => ?_) hserving hgeo hfilled
        (UInt32.le_iff_toNat_le.mp hoff) hmax⟩
      rw [hsrc tot m hle]
    obtain ⟨r, s', hrun, t, rfl, hwrote⟩ := hwrite.returns
    exact ⟨t, s', hrun, hwrote⟩
  · intro dst off n hdst hwrap
    exact Kern.readi_returns hserving.held hfilled hdst hwrap

-- Two bytes are written to an empty file, and read back.
theorem files_are_byte_arrays_empty : ∃ s' : Kern Unit,
    (Kern.run () (Fsys.writei smallSb 0 (Fsys.kernelSrc [104, 105]) 0 2)).run emptyFile = .ok (2, s') ∧
      (Kern.run () (Fsys.readi smallSb 0 Fsys.kernelDst 0 2)).run s' = .ok ((2, [104, 105]), s') := by
  have hfilled : Filled emptyFile.view (emptyFile.table 0).din :=
    ⟨by decide, fun bn hbn => absurd hbn (Nat.not_lt_zero _)⟩
  obtain ⟨t, s', hwrite, hwrote⟩ := (files_are_byte_arrays () smallSb_geometry emptyFile_serving hfilled).1
    (Fsys.kernelSrc [104, 105]) [104, 105] 0 2 rfl (fun _ _ _ => rfl) (by decide) (by decide)
  have hcount : ((Kern.run () (Fsys.writei smallSb 0 (Fsys.kernelSrc [104, 105]) 0 2)).run
      emptyFile).toOption.map Prod.fst = some 2 := by decide +kernel
  rw [hwrite] at hcount
  obtain rfl : t = 2 := Int.ofNat_inj.mp (Option.some.inj hcount)
  obtain ⟨bytes, hread, rfl⟩ := (files_are_byte_arrays () smallSb_geometry hwrote.serving
    hwrote.filled).2 Fsys.kernelDst 0 2 (fun _ _ _ => rfl) (by decide)
  rw [hwrote.contents] at hread
  exact ⟨s', hwrite, hread⟩

end Xv6Ringbuf.Fs
