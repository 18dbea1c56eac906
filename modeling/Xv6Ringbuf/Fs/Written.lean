import Xv6Ringbuf.Fs.BmapSpec

namespace Xv6Ringbuf.Fs

open Function

def overlay (off : Nat) (data : List UInt8) (old : Nat → UInt8) (x : Nat) : UInt8 :=
  if off ≤ x then data.getD (x - off) (old x) else old x

theorem overlay_nil (off : Nat) (old : Nat → UInt8) : overlay off [] old = old := by
  funext x
  rw [overlay, List.getD_nil, ite_self]

theorem overlay_append (off : Nat) (data data' : List UInt8) (old : Nat → UInt8) :
    overlay off (data ++ data') old = overlay (off + data.length) data' (overlay off data old) := by
  funext x
  simp only [overlay]
  by_cases hoff : off ≤ x
  · rw [if_pos hoff, if_pos hoff]
    by_cases hlen : off + data.length ≤ x
    · rw [if_pos hlen, List.getD_append_right _ _ _ _ (by omega), List.getD_eq_default data _ (by omega),
        Nat.sub_sub]
    · rw [if_neg hlen, List.getD_append _ _ _ _ (by omega)]
  · rw [if_neg hoff, if_neg (by omega), if_neg hoff]

theorem overlay_of_lt {off x : Nat} (data : List UInt8) (old : Nat → UInt8) (h : x < off) :
    overlay off data old x = old x :=
  if_neg (by omega)

theorem overlay_of_ge {off x : Nat} (data : List UInt8) (old : Nat → UInt8) (h : off + data.length ≤ x) :
    overlay off data old x = old x := by
  rw [overlay, if_pos (by omega), List.getD_eq_default _ _ (by omega)]

namespace Kern

variable {P : Type} [DecidableEq P] {p : P} {sb : Superblock} {s s' : Kern P} {i : Ip}

-- From `s` to `s'` bytes `data` were stored in the file of entry `i` from `off` on, and
-- the inode has perhaps got more blocks.
structure Changed (sb : Superblock) (i : Ip) (s s' : Kern P) (off : Nat) (data : List UInt8) : Prop where
  serving : s'.Serving sb i
  mem : ∃ addrs, s'.toMem = s.toMem.setDin i { (s.table i).din with addrs := addrs }
  dinode : ∀ inum, sb.HasInode inum → s'.view.dinode sb inum = s.view.dinode sb inum
  own : ∀ x, x / BSIZE < MAXFILE →
    s'.view.byte (s'.table i).din x = overlay off data (s.view.byte (s.table i).din) x
  others : ∀ inum, Allocated sb (s.inodes sb i) inum → inum ≠ (s.table i).inum → ∀ x, x / BSIZE < MAXFILE →
    s'.view.byte (s'.inodes sb i inum) x = s.view.byte (s.inodes sb i inum) x
  keep : ∀ inum place, Allocated sb (s.inodes sb i) inum → s.view.blockAt (s.inodes sb i inum) place ≠ 0 →
    s'.view.blockAt (s'.inodes sb i inum) place = s.view.blockAt (s.inodes sb i inum) place

structure Written (sb : Superblock) (i : Ip) (s s' : Kern P) (l : List Blockno) (off : Nat)
    (data : List UInt8) : Prop extends Changed sb i s s' off data where
  logged : ∀ b, b ∉ l → s'.view b = s.view b ∧ s'.unlogged b = s.unlogged b
  clean : ∀ b ∈ l, s'.unlogged b = none

section

omit [DecidableEq P]

variable {l : List Blockno} {off off' : Nat} {data data' : List UInt8} {inum : UInt32}
  {s'' : Kern P} {r : Blockno}

theorem Mapped.written (h : Mapped sb i s s' l) (hs : s.Serving sb i) (off : Nat) :
    Written sb i s s' l off [] := by
  refine ⟨⟨h.serving, h.mem, h.dinode, fun x hx => ?_, fun inum halloc _ x hx => h.byte inum halloc x hx,
    h.keep⟩, h.logged, h.clean⟩
  have hbyte := h.byte _ hs.allocated x hx
  have hself := inodes_self sb s' i
  rw [h.inum_eq] at hself
  rw [hself, inodes_self] at hbyte
  rw [overlay_nil]
  exact hbyte

theorem Changed.inum_eq (h : Changed sb i s s' off data) :
    (s'.table i).inum = (s.table i).inum := by
  obtain ⟨addrs, hmem⟩ := h.mem
  rw [hmem, Mem.setDin_table_self]

theorem Changed.inodes_eq (h : Changed sb i s s' off data) (hinum : sb.HasInode inum)
    (hne : inum ≠ (s.table i).inum) :
    s'.inodes sb i inum = s.inodes sb i inum := by
  rw [inodes_of_ne hne, inodes_of_ne (by rw [h.inum_eq]; exact hne), h.dinode inum hinum]

theorem Changed.allocated (h : Changed sb i s s' off data) (halloc : Allocated sb (s.inodes sb i) inum) :
    Allocated sb (s'.inodes sb i) inum := by
  by_cases heq : inum = (s.table i).inum
  · have hself := h.serving.allocated
    rw [h.inum_eq] at hself
    rw [heq]
    exact hself
  · refine ⟨halloc.1, ?_⟩
    rw [h.inodes_eq halloc.1 heq]
    exact halloc.2

theorem Changed.keep_own (h : Changed sb i s s' off data) (hs : s.Serving sb i) {place : Place}
    (hne : s.view.blockAt (s.table i).din place ≠ 0) :
    s'.view.blockAt (s'.table i).din place = s.view.blockAt (s.table i).din place := by
  have hkeep := h.keep _ place hs.allocated
  have hself := inodes_self sb s' i
  rw [h.inum_eq] at hself
  rw [inodes_self, hself] at hkeep
  exact hkeep hne

theorem Changed.trans (h : Changed sb i s s' off data) (h' : Changed sb i s' s'' off' data')
    (hoff : off' = off + data.length) : Changed sb i s s'' off (data ++ data') := by
  obtain ⟨addrs, hmem⟩ := h.mem
  obtain ⟨addrs', hmem'⟩ := h'.mem
  refine ⟨h'.serving, ⟨addrs', ?_⟩, ?_, ?_, ?_, ?_⟩
  · rw [hmem', hmem, Mem.setDin_setDin, Mem.setDin_table_self]
  · intro inum hinum
    rw [h'.dinode inum hinum, h.dinode inum hinum]
  · intro x hx
    rw [h'.own x hx, hoff, overlay_append]
    simp only [overlay, h.own x hx]
  · intro inum halloc hne x hx
    rw [h'.others inum (h.allocated halloc) (by rw [h.inum_eq]; exact hne) x hx,
      h.others inum halloc hne x hx]
  · intro inum place halloc hne
    have hkeep := h.keep inum place halloc hne
    rw [h'.keep inum place (h.allocated halloc) (by rw [hkeep]; exact hne), hkeep]

theorem Written.trans {l' : List Blockno} (h : Written sb i s s' l off data)
    (h' : Written sb i s' s'' l' off' data') (hoff : off' = off + data.length) :
    Written sb i s s'' (l ++ l') off (data ++ data') := by
  refine ⟨h.toChanged.trans h'.toChanged hoff, ?_, ?_⟩
  · intro b hb
    rw [List.mem_append, not_or] at hb
    obtain ⟨hview, hunlogged⟩ := h.logged b hb.1
    obtain ⟨hview', hunlogged'⟩ := h'.logged b hb.2
    exact ⟨hview'.trans hview, hunlogged'.trans hunlogged⟩
  · intro b hb
    by_cases hlast : b ∈ l'
    · exact h'.clean b hlast
    · rw [(h'.logged b hlast).2]
      exact h.clean b ((List.mem_append.mp hb).resolve_right hlast)

theorem Serving.dataChange (h : s.Serving sb i) (hgeo : Geometry sb)
    (hr : r = s.view.addr (s.table i).din (off / BSIZE)) (hne : r ≠ 0) (hbn : off / BSIZE < MAXFILE)
    (hlen : off % BSIZE + data.length ≤ BSIZE)
    (hview : s'.view = update s.view r (splice (s.view r) (off % BSIZE) data))
    (hmem : s'.toMem = s.toMem) (hheld : s'.held = s.held) :
    Changed sb i s s' off data ∧ ∀ place,
      s'.view.blockAt (s'.table i).din place = s.view.blockAt (s.table i).din place := by
  have hbsize : BSIZE = 1024 := rfl
  have hplaced := h.accounted.placed _ (.data ⟨off / BSIZE, hbn⟩) h.allocated
  have hapart := fun inum place halloc =>
    h.accounted.apart inum (s.table i).inum place (.data ⟨off / BSIZE, hbn⟩) halloc h.allocated
  rw [inodes_self] at hplaced
  simp only [inodes_self] at hapart
  simp only [Disk.blockAt, ← hr] at hplaced
  obtain ⟨hdata, _⟩ := hplaced hne
  have hapart' : ∀ inum place, Allocated sb (s.inodes sb i) inum →
      s.view.blockAt (s.inodes sb i inum) place = r →
        inum = (s.table i).inum ∧ place = .data ⟨off / BSIZE, hbn⟩ := by
    intro inum place halloc heq
    exact hapart inum place halloc (by rw [heq]; exact hne) (heq.trans hr)
  have htable : s'.table = s.table := congrArg Mem.table hmem
  have hdinode : ∀ inum, sb.HasInode inum → s'.view.dinode sb inum = s.view.dinode sb inum := by
    intro inum hinum
    rw [hview, Disk.dinode_update_of_ne (IBLOCK_ne_data hgeo hinum hdata)]
  have hinodes : ∀ inum, sb.HasInode inum → s'.inodes sb i inum = s.inodes sb i inum := by
    intro inum hinum
    rw [inodes, inodes, htable]
    by_cases heq : inum = (s.table i).inum
    · rw [heq, update_self, update_self]
    · rw [update_of_ne heq, update_of_ne heq, hdinode inum hinum]
  have hplaces : ∀ inum place, Allocated sb (s.inodes sb i) inum →
      s'.view.blockAt (s.inodes sb i inum) place = s.view.blockAt (s.inodes sb i inum) place := by
    intro inum place halloc
    apply Disk.blockAt_congr
    intro _
    rw [hview, update_of_ne]
    intro heq
    have hplace := (hapart' inum .indirect halloc heq).2
    cases hplace
  have hused : ∀ b : Blockno, b.toNat < sb.size.toNat → s'.view.used sb b = s.view.used sb b := by
    intro b hb
    rw [hview, Disk.used_update_of_ne (BBLOCK_ne_data hgeo hb hdata)]
  have hacc := h.accounted.of_places hgeo hplaces hused
  refine ⟨⟨⟨by rw [hheld]; exact h.held, by rw [htable]; exact h.inum, by rw [htable]; exact h.type,
    hacc.congr hinodes⟩, ⟨(s.table i).din.addrs, ?_⟩, hdinode, ?_, ?_, ?_⟩, ?_⟩
  · rw [hmem]
    exact (Mem.setDin_self _ _).symm
  · intro x hx
    have haddr := hplaces _ (.data ⟨x / BSIZE, hx⟩) h.allocated
    rw [inodes_self] at haddr
    have haddr : s'.view.addr (s.table i).din (x / BSIZE) = s.view.addr (s.table i).din (x / BSIZE) := haddr
    rw [htable, Disk.byte, haddr]
    by_cases hblock : x / BSIZE = off / BSIZE
    · rw [overlay, Disk.byte, hblock, ← hr, if_neg hne, if_neg hne, hview, update_self,
        dataAt_splice _ _ _ (Nat.mod_lt _ (by omega))]
      rw [hbsize] at hblock ⊢
      by_cases hoff : off ≤ x
      · rw [if_pos (by omega), if_pos hoff, show x % 1024 - off % 1024 = x - off by omega]
      · rw [if_neg (by omega), if_neg hoff]
    · have hout : overlay off data (s.view.byte (s.table i).din) x = s.view.byte (s.table i).din x := by
        rw [hbsize] at hblock hlen
        by_cases hoff : off ≤ x
        · exact overlay_of_ge _ _ (by omega)
        · exact overlay_of_lt _ _ (by omega)
      rw [hout, Disk.byte]
      by_cases hzero : s.view.addr (s.table i).din (x / BSIZE) = 0
      · rw [if_pos hzero, if_pos hzero]
      · rw [if_neg hzero, if_neg hzero, hview, update_of_ne]
        intro heq
        have hplace := (hapart' _ (.data ⟨x / BSIZE, hx⟩) h.allocated (by rw [inodes_self]; exact heq)).2
        rw [Place.data.injEq, Fin.mk.injEq] at hplace
        exact hblock hplace
  · intro inum halloc hinum x hx
    rw [hinodes inum halloc.1]
    apply Disk.byte_congr (hplaces inum (.data ⟨x / BSIZE, hx⟩) halloc)
    intro _
    rw [hview, update_of_ne]
    intro heq
    exact hinum (hapart' inum (.data ⟨x / BSIZE, hx⟩) halloc heq).1
  · intro inum place halloc _
    rw [hinodes inum halloc.1]
    exact hplaces inum place halloc
  · intro place
    have hown := hplaces _ place h.allocated
    rw [inodes_self] at hown
    rw [htable]
    exact hown

theorem Serving.put_data (h : s.Serving sb i) (hgeo : Geometry sb)
    (hr : r = s.view.addr (s.table i).din (off / BSIZE)) (hne : r ≠ 0) (hbn : off / BSIZE < MAXFILE)
    (hlen : off % BSIZE + data.length ≤ BSIZE) :
    Written sb i s (s.put r (splice (s.view r) (off % BSIZE) data)) [r] off data := by
  refine ⟨(h.dataChange hgeo hr hne hbn hlen (view_put s r _) rfl rfl).1, ?_, ?_⟩
  · intro b hb
    rw [List.mem_singleton] at hb
    exact put_logged s _ hb
  · intro b hb
    rw [List.mem_singleton] at hb
    rw [hb]
    exact put_clean _ _ _

end

end Kern

end Xv6Ringbuf.Fs
