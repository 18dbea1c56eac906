import Xv6Ringbuf.Fs.WriteiSpec

namespace Xv6Ringbuf.Fs

open Interleave Handler Machine

namespace Disk

def bytesFrom (d : Disk) (din : Dinode) (off n : Nat) : List UInt8 :=
  (List.range n).map fun k => d.byte din (off + k)

theorem length_bytesFrom (d : Disk) (din : Dinode) (off n : Nat) : (d.bytesFrom din off n).length = n := by
  rw [bytesFrom, List.length_map, List.length_range]

theorem bytesFrom_add (d : Disk) (din : Dinode) (off n m : Nat) :
    d.bytesFrom din off (n + m) = d.bytesFrom din off n ++ d.bytesFrom din (off + n) m := by
  unfold bytesFrom
  rw [List.range_add, List.map_append, List.map_map]
  congr 2
  funext k
  rw [Function.comp_apply, Nat.add_assoc]

theorem bytesFrom_eq_contents (d : Disk) (din : Dinode) {off n : Nat} (h : off + n ≤ din.size.toNat) :
    d.bytesFrom din off n = ((d.contents din).drop off).take n := by
  apply List.ext_getElem
  · rw [length_bytesFrom, List.length_take, List.length_drop, length_contents]
    omega
  · intro k _ _
    simp [bytesFrom, contents]

theorem bytesFrom_slice {d : Disk} {din : Dinode} {off m : Nat} (haddr : d.addr din (off / BSIZE) ≠ 0)
    (hm : off % BSIZE + m ≤ BSIZE) :
    d.bytesFrom din off m = sliceBytes (d (d.addr din (off / BSIZE))) (off % BSIZE) m := by
  have hbsize : BSIZE = 1024 := rfl
  apply List.map_congr_left
  intro k hk
  rw [List.mem_range] at hk
  rw [hbsize] at hm haddr ⊢
  have hblock : (off + k) / 1024 = off / 1024 := by omega
  rw [byte, hbsize, hblock, if_neg haddr, show (off + k) % 1024 = off % 1024 + k by omega]

end Disk

namespace Kern

variable {P : Type} [DecidableEq P] {p : P} {sb : Superblock} {s : Kern P} {i : Ip} {E : Stop → Prop}

theorem bmap_there (hheld : ∀ b, s.held b = none) {bn : Nat} (hbn : bn < MAXFILE)
    (h : s.view.addr (s.table i).din bn ≠ 0) :
    Logs p (Fsys.bmap sb i bn) s
      (fun r s' l => r = s.view.addr (s.table i).din bn ∧ s' = s ∧ l = []) E := by
  have hslot : ∀ k, (s.table i).din.addrs k ≠ 0 → Logs p (Fsys.bmapSlot sb i k) s
      (fun r s' l => r = (s.table i).din.addrs k ∧ s' = s ∧ l = []) E := by
    intro k hk
    rw [Fsys.bmapSlot]
    apply logs_inode
    rw [if_neg hk]
    exact logs_pure ⟨rfl, rfl, rfl⟩
  rw [Fsys.bmap]
  by_cases hdirect : bn < NDIRECT
  · rw [Disk.addr, dif_pos hdirect] at h ⊢
    rw [dif_pos hdirect]
    exact hslot _ h
  · have hmax : MAXFILE = NDIRECT + NINDIRECT := rfl
    rw [Disk.addr, dif_neg hdirect] at h ⊢
    have hind : (s.table i).din.indirect ≠ 0 := by
      intro hzero
      rw [if_pos hzero] at h
      exact h rfl
    have hlast : (s.table i).din.addrs (Fin.last NDIRECT) ≠ 0 := hind
    rw [if_neg hind] at h ⊢
    have hentry : getWord (s.view ((s.table i).din.addrs (Fin.last NDIRECT))) (bn - NDIRECT) ≠ 0 := h
    rw [dif_neg hdirect, if_pos (by omega)]
    refine Notes.bind (hslot (Fin.last NDIRECT) hlast) ?_
    rintro _ _ _ ⟨rfl, rfl, rfl⟩
    rw [if_neg hlast]
    apply logs_bread (hheld _)
    simp only [if_neg hentry]
    apply logs_brelse (hheld _)
    exact logs_pure ⟨rfl, rfl, rfl⟩

variable {dst : Fsys.Dst} {off n : UInt32}

-- The loop of `readi`, by induction over its rounds: what is still to be read lies
-- below the size.
theorem readiFrom_logs (hheld : ∀ b, s.held b = none) (hfilled : Filled s.view (s.table i).din)
    {n : Nat} (hdst : ∀ tot m, tot + m ≤ n → dst tot m = true) (rounds : Nat) {tot off : Nat}
    (bytes : List UInt8) (hrounds : n - tot ≤ rounds) (htot : tot ≤ n)
    (hsize : off + (n - tot) ≤ (s.table i).din.size.toNat) :
    Logs p (Fsys.readiFrom sb i dst n rounds tot off bytes) s
      (fun r s' l => r = ((n : Int), bytes ++ s.view.bytesFrom (s.table i).din off (n - tot)) ∧
        s' = s ∧ l = []) E := by
  have hbsize : BSIZE = 1024 := rfl
  have hbounded := hfilled.bounded
  induction rounds generalizing tot off bytes with
  | zero =>
    obtain rfl : tot = n := by omega
    refine logs_pure ⟨?_, rfl, rfl⟩
    rw [Nat.sub_self, show s.view.bytesFrom (s.table i).din off 0 = [] from rfl, List.append_nil]
  | succ rounds ih =>
    rw [Fsys.readiFrom]
    by_cases hlt : tot < n
    · have hthere : s.view.addr (s.table i).din (off / BSIZE) ≠ 0 := by
        apply hfilled.filled
        rw [hbsize]
        omega
      have hbn : off / BSIZE < MAXFILE := by
        rw [hbsize] at hbounded ⊢
        omega
      rw [if_pos hlt]
      refine Notes.bind (bmap_there hheld hbn hthere) ?_
      rintro _ _ _ ⟨rfl, rfl, rfl⟩
      rw [if_neg hthere]
      apply logs_bread (hheld _)
      apply logs_brelse (hheld _)
      have hpiece : min (n - tot) (BSIZE - off % BSIZE) ≤ n - tot := Nat.min_le_left _ _
      have hroom : min (n - tot) (BSIZE - off % BSIZE) ≤ BSIZE - off % BSIZE := Nat.min_le_right _ _
      have hpos : 0 < min (n - tot) (BSIZE - off % BSIZE) := by
        rw [hbsize]
        omega
      generalize min (n - tot) (BSIZE - off % BSIZE) = m at hpiece hroom hpos ⊢
      rw [if_pos (hdst tot m (by omega)), ← Disk.bytesFrom_slice hthere (by omega)]
      refine (ih _ (by omega) (by omega) (by omega)).mono ?_ fun _ h => h
      rintro r s' l ⟨rfl, rfl, rfl⟩
      refine ⟨?_, rfl, rfl⟩
      rw [List.append_assoc, ← Disk.bytesFrom_add, show m + (n - (tot + m)) = n - tot by omega]
    · rw [if_neg hlt]
      obtain rfl : tot = n := by omega
      refine logs_pure ⟨?_, rfl, rfl⟩
      rw [Nat.sub_self, show s.view.bytesFrom (s.table i).din off 0 = [] from rfl, List.append_nil]

theorem readi_logs (hheld : ∀ b, s.held b = none) (hfilled : Filled s.view (s.table i).din)
    (hdst : ∀ tot m, tot + m ≤ n.toNat → dst tot m = true) (hwrap : off.toNat + n.toNat < 2 ^ 32) :
    Logs p (Fsys.readi sb i dst off n) s (fun r s' l =>
      r.2 = ((s.view.contents (s.table i).din).drop off.toNat).take n.toNat ∧ r.1 = r.2.length ∧
        s' = s ∧ l = []) E := by
  have hlength := s.view.length_contents (s.table i).din
  rw [Fsys.readi]
  apply logs_inode
  by_cases hrefused : off > (s.table i).din.size ∨ off + n < off
  · rw [if_pos hrefused]
    have hpast : (s.table i).din.size.toNat ≤ off.toNat := by
      rcases hrefused with hgt | hlt
      · exact Nat.le_of_lt (UInt32.lt_iff_toNat_lt.mp hgt)
      · rw [UInt32.lt_iff_toNat_lt, UInt32.toNat_add] at hlt
        omega
    refine logs_pure ⟨?_, rfl, rfl, rfl⟩
    rw [List.drop_eq_nil_of_le (by omega), List.take_nil]
  · rw [if_neg hrefused]
    rw [not_or] at hrefused
    have hoff : off.toNat ≤ (s.table i).din.size.toNat :=
      UInt32.le_iff_toNat_le.mp (UInt32.not_lt.mp hrefused.1)
    -- The length is cut at the end of the file.
    have hcut : (if off + n > (s.table i).din.size then (s.table i).din.size - off else n).toNat =
        min n.toNat ((s.table i).din.size.toNat - off.toNat) := by
      by_cases hend : off + n > (s.table i).din.size
      · rw [if_pos hend, UInt32.toNat_sub_of_le _ _ (UInt32.le_iff_toNat_le.mpr hoff)]
        rw [gt_iff_lt, UInt32.lt_iff_toNat_lt, UInt32.toNat_add] at hend
        omega
      · rw [if_neg hend]
        rw [gt_iff_lt, UInt32.not_lt, UInt32.le_iff_toNat_le, UInt32.toNat_add] at hend
        omega
    simp only
    rw [hcut]
    refine (readiFrom_logs hheld hfilled (fun tot m h => hdst tot m (by omega)) _ [] (by omega)
      (Nat.zero_le _) (by omega)).mono ?_ fun _ h => h
    rintro r s' l ⟨rfl, rfl, rfl⟩
    rw [List.nil_append, Nat.sub_zero]
    refine ⟨?_, ?_, rfl, rfl⟩
    · show Disk.bytesFrom _ _ _ _ = _
      rw [Disk.bytesFrom_eq_contents _ _ (by omega)]
      apply List.take_eq_take_iff.mpr
      rw [List.length_drop]
      omega
    · show ((min n.toNat _ : Nat) : Int) = _
      rw [Disk.length_bytesFrom]

theorem readi_returns (hheld : ∀ b, s.held b = none) (hfilled : Filled s.view (s.table i).din)
    (hdst : ∀ tot m, tot + m ≤ n.toNat → dst tot m = true) (hwrap : off.toNat + n.toNat < 2 ^ 32) :
    ∃ bytes, (Kern.run p (Fsys.readi sb i dst off n)).run s = .ok (((bytes.length : Nat), bytes), s) ∧
      bytes = ((s.view.contents (s.table i).din).drop off.toNat).take n.toNat := by
  have hread : Kern.Runs p (Fsys.readi sb i dst off n) s
      (fun r s' => r.2 = ((s.view.contents (s.table i).din).drop off.toNat).take n.toNat ∧
        r.1 = r.2.length ∧ s' = s) fun _ => False := by
    refine (readi_logs hheld hfilled hdst hwrap).runs ?_
    rintro r s' l ⟨hbytes, hlen, rfl, _⟩
    exact ⟨hbytes, hlen, rfl⟩
  obtain ⟨⟨r, bytes⟩, s', hrun, hbytes, hlen, rfl⟩ := hread.returns
  have hr : r = (bytes.length : Nat) := hlen
  rw [hr] at hrun
  exact ⟨bytes, hrun, hbytes⟩

end Kern

end Xv6Ringbuf.Fs
