import Xv6Ringbuf.Fs.Codec

namespace Xv6Ringbuf.Fs

open Function

abbrev Disk := Blockno → Block

-- The disk layout: boot block, super block and log come before the inodes, then the
-- bitmap, then the data blocks.
structure Geometry (sb : Superblock) : Prop where
  inodes : sb.inodestart.toNat + (sb.ninodes.toNat + IPB - 1) / IPB ≤ sb.bmapstart.toNat
  bitmap : sb.bmapstart.toNat + (sb.size.toNat + BPB - 1) / BPB ≤ sb.size.toNat

namespace Superblock

variable (sb : Superblock)

def datastart : Nat := sb.bmapstart.toNat + (sb.size.toNat + BPB - 1) / BPB

def IsData (b : Blockno) : Prop := sb.datastart ≤ b.toNat ∧ b.toNat < sb.size.toNat

def HasInode (inum : UInt32) : Prop := 0 < inum.toNat ∧ inum.toNat < sb.ninodes.toNat

instance (b : Blockno) : Decidable (sb.IsData b) := inferInstanceAs (Decidable (_ ∧ _))

instance (inum : UInt32) : Decidable (sb.HasInode inum) := inferInstanceAs (Decidable (_ ∧ _))

end Superblock

namespace Disk

variable (sb : Superblock) (d : Disk)

def dinode (inum : UInt32) : Dinode := getDinode (d (IBLOCK sb inum)) (inum.toNat % IPB)

def used (b : Blockno) : Bool := getBit (d (BBLOCK sb b)) (b.toNat % BPB)

def setDinode (inum : UInt32) (din : Dinode) : Disk :=
  update d (IBLOCK sb inum) (Fs.setDinode (d (IBLOCK sb inum)) (inum.toNat % IPB) din)

def markUsed (b : Blockno) : Disk :=
  update d (BBLOCK sb b) (setBit (d (BBLOCK sb b)) (b.toNat % BPB))

def allot (b : Blockno) : Disk := update (d.markUsed sb b) b zeroBlock

def free : Finset Nat := (Finset.range sb.size.toNat).filter fun b => d.used sb (UInt32.ofNat b) = false

end Disk

section Layout

variable {sb : Superblock} (hgeo : Geometry sb)

include hgeo

variable {inum : UInt32} {b : Blockno}

theorem toNat_IBLOCK (h : sb.HasInode inum) :
    (IBLOCK sb inum).toNat = inum.toNat / IPB + sb.inodestart.toNat := by
  have hinodes := hgeo.inodes
  have hbmap := sb.bmapstart.toNat_lt
  have hipb : IPB = 16 := rfl
  have hlt := h.2
  rw [IBLOCK, UInt32.toNat_add, UInt32.toNat_div, show (UInt32.ofNat IPB).toNat = IPB from rfl]
  apply Nat.mod_eq_of_lt
  rw [hipb] at hinodes ⊢
  omega

theorem IBLOCK_lt (h : sb.HasInode inum) :
    (IBLOCK sb inum).toNat < sb.bmapstart.toNat := by
  have hinodes := hgeo.inodes
  have hipb : IPB = 16 := rfl
  have hlt := h.2
  rw [toNat_IBLOCK hgeo h]
  rw [hipb] at hinodes ⊢
  omega

theorem toNat_BBLOCK (h : b.toNat < sb.size.toNat) :
    (BBLOCK sb b).toNat = b.toNat / BPB + sb.bmapstart.toNat := by
  have hbitmap := hgeo.bitmap
  have hsize := sb.size.toNat_lt
  have hbpb : BPB = 8192 := rfl
  rw [BBLOCK, UInt32.toNat_add, UInt32.toNat_div, show (UInt32.ofNat BPB).toNat = BPB from rfl]
  apply Nat.mod_eq_of_lt
  rw [hbpb] at hbitmap ⊢
  omega

theorem bmapstart_le_BBLOCK (h : b.toNat < sb.size.toNat) :
    sb.bmapstart.toNat ≤ (BBLOCK sb b).toNat := by
  rw [toNat_BBLOCK hgeo h]
  exact Nat.le_add_left _ _

theorem BBLOCK_lt (h : b.toNat < sb.size.toNat) :
    (BBLOCK sb b).toNat < sb.datastart := by
  have hbpb : BPB = 8192 := rfl
  rw [toNat_BBLOCK hgeo h, Superblock.datastart, hbpb]
  omega

theorem datastart_le : sb.datastart ≤ sb.size.toNat := hgeo.bitmap

omit hgeo in
theorem Superblock.IsData.ne_zero (h : sb.IsData b) : b ≠ 0 := by
  have hbpb : BPB = 8192 := rfl
  have hstart := h.1
  have hsize := h.2
  intro hzero
  rw [hzero, UInt32.toNat_zero] at hstart hsize
  rw [Superblock.datastart, hbpb] at hstart
  omega

theorem BBLOCK_ne_data {b' : Blockno} (h : b.toNat < sb.size.toNat) (hdata : sb.IsData b') :
    BBLOCK sb b ≠ b' := by
  intro heq
  have hlt := BBLOCK_lt hgeo h
  have hge := hdata.1
  rw [heq] at hlt
  omega

theorem IBLOCK_ne_data (h : sb.HasInode inum) (hdata : sb.IsData b) :
    IBLOCK sb inum ≠ b := by
  intro heq
  have hlt := IBLOCK_lt hgeo h
  have hge : sb.bmapstart.toNat ≤ b.toNat := Nat.le_of_add_right_le hdata.1
  rw [heq] at hlt
  omega

theorem IBLOCK_ne_BBLOCK (h : sb.HasInode inum) (hb : b.toNat < sb.size.toNat) :
    IBLOCK sb inum ≠ BBLOCK sb b := by
  intro heq
  have hlt := IBLOCK_lt hgeo h
  have hge := bmapstart_le_BBLOCK hgeo hb
  rw [heq] at hlt
  omega

end Layout

namespace Disk

variable {sb : Superblock} {d : Disk}

theorem dinode_update_of_ne {inum : UInt32} {b : Blockno} (h : IBLOCK sb inum ≠ b) (data : Block) :
    Disk.dinode sb (update d b data) inum = d.dinode sb inum := by
  rw [dinode, update_of_ne h, dinode]

theorem used_update_of_ne {b b' : Blockno} (h : BBLOCK sb b' ≠ b) (data : Block) :
    Disk.used sb (update d b data) b' = d.used sb b' := by
  rw [used, update_of_ne h, used]

section Layout

variable (hgeo : Geometry sb)

include hgeo

variable {inum : UInt32} {b b' : Blockno}

theorem dinode_setDinode {inum' : UInt32} (h : sb.HasInode inum) (h' : sb.HasInode inum')
    (din : Dinode) :
    (d.setDinode sb inum din).dinode sb inum' = if inum' = inum then din else d.dinode sb inum' := by
  have hipb : IPB = 16 := rfl
  rw [dinode, setDinode]
  by_cases hinum : inum' = inum
  · rw [if_pos hinum, hinum, update_self]
    exact getDinode_setDinode_self _ _ (Nat.mod_lt _ (by omega))
  · rw [if_neg hinum]
    by_cases hblock : IBLOCK sb inum' = IBLOCK sb inum
    · have hquot := congrArg UInt32.toNat hblock
      rw [toNat_IBLOCK hgeo h, toNat_IBLOCK hgeo h'] at hquot
      have hnum : inum'.toNat ≠ inum.toNat := fun heq => hinum (UInt32.toNat_inj.mp heq)
      have hslot : inum'.toNat % IPB ≠ inum.toNat % IPB := by
        rw [hipb] at hquot ⊢
        omega
      rw [hblock, update_self, getDinode_setDinode_of_ne _ _ (Nat.mod_lt _ (by omega)) hslot,
        dinode, hblock]
    · rw [update_of_ne hblock, dinode]

omit hgeo in
theorem setDinode_of_ne (din : Dinode) (h : b ≠ IBLOCK sb inum) :
    d.setDinode sb inum din b = d b :=
  update_of_ne h ..

theorem used_markUsed (h : b.toNat < sb.size.toNat) (h' : b'.toNat < sb.size.toNat) :
    (d.markUsed sb b).used sb b' = (decide (b' = b) || d.used sb b') := by
  have hbpb : BPB = 8192 := rfl
  rw [used, markUsed]
  by_cases hblock : BBLOCK sb b' = BBLOCK sb b
  · have hquot := congrArg UInt32.toNat hblock
    rw [toNat_BBLOCK hgeo h, toNat_BBLOCK hgeo h'] at hquot
    have hiff : b'.toNat % BPB = b.toNat % BPB ↔ b' = b := by
      rw [← UInt32.toNat_inj]
      rw [hbpb] at hquot ⊢
      omega
    rw [hblock, update_self, getBit_setBit _ _ (Nat.mod_lt _ (by omega)), used, hblock]
    simp only [hiff]
  · have hne : b' ≠ b := fun heq => hblock (by rw [heq])
    rw [update_of_ne hblock, decide_eq_false hne, Bool.false_or, used]

theorem used_allot (h : sb.IsData b) (h' : b'.toNat < sb.size.toNat) :
    (d.allot sb b).used sb b' = (decide (b' = b) || d.used sb b') := by
  rw [allot, used_update_of_ne (BBLOCK_ne_data hgeo h' h), used_markUsed hgeo h.2 h']

theorem dinode_allot (h : sb.IsData b) (hinum : sb.HasInode inum) :
    (d.allot sb b).dinode sb inum = d.dinode sb inum := by
  rw [allot, dinode_update_of_ne (IBLOCK_ne_data hgeo hinum h), markUsed,
    dinode_update_of_ne (IBLOCK_ne_BBLOCK hgeo hinum h.2)]

omit hgeo in
theorem allot_self (b : Blockno) : d.allot sb b b = zeroBlock := update_self ..

theorem allot_of_ne (h : sb.IsData b) (h' : sb.IsData b') (hne : b' ≠ b) :
    d.allot sb b b' = d b' := by
  rw [allot, update_of_ne hne, markUsed,
    update_of_ne (BBLOCK_ne_data hgeo h.2 h').symm]

omit hgeo in
theorem mem_free : b.toNat ∈ d.free sb ↔ b.toNat < sb.size.toNat ∧ d.used sb b = false := by
  simp only [free, Finset.mem_filter, Finset.mem_range, UInt32.ofNat_toNat]

omit hgeo in
theorem eq_toNat_of_mem_free {n : Nat} (h : n ∈ d.free sb) : ∃ b : Blockno, b.toNat = n := by
  have hsize := sb.size.toNat_lt
  have hlt := Finset.mem_range.mp (Finset.mem_filter.mp h).1
  exact ⟨UInt32.ofNat n, UInt32.toNat_ofNat_of_lt' (Nat.lt_trans hlt hsize)⟩

theorem free_allot (h : sb.IsData b) :
    (d.allot sb b).free sb = (d.free sb).erase b.toNat := by
  ext n
  constructor
  · intro hmem
    obtain ⟨b', rfl⟩ := eq_toNat_of_mem_free hmem
    obtain ⟨hlt, hused⟩ := mem_free.mp hmem
    rw [used_allot hgeo h hlt, Bool.or_eq_false_iff, decide_eq_false_iff_not] at hused
    rw [Finset.mem_erase, mem_free, ne_eq, UInt32.toNat_inj]
    exact ⟨hused.1, hlt, hused.2⟩
  · intro hmem
    rw [Finset.mem_erase] at hmem
    obtain ⟨b', rfl⟩ := eq_toNat_of_mem_free hmem.2
    obtain ⟨hlt, hused⟩ := mem_free.mp hmem.2
    rw [ne_eq, UInt32.toNat_inj] at hmem
    rw [mem_free, used_allot hgeo h hlt, hused, decide_eq_false hmem.1]
    exact ⟨hlt, rfl⟩

theorem free_update (h : sb.IsData b) (data : Block) :
    Disk.free sb (update d b data) = d.free sb := by
  apply Finset.filter_congr
  intro n hn
  have hsize := sb.size.toNat_lt
  have hlt := Finset.mem_range.mp hn
  have hnat : (UInt32.ofNat n).toNat = n := UInt32.toNat_ofNat_of_lt' (Nat.lt_trans hlt hsize)
  rw [used_update_of_ne (BBLOCK_ne_data hgeo (by rw [hnat]; exact hlt) h)]

theorem card_free_allot (h : sb.IsData b) (hfree : d.used sb b = false) :
    ((d.allot sb b).free sb).card + 1 = (d.free sb).card := by
  rw [free_allot hgeo h]
  exact Finset.card_erase_add_one (mem_free.mpr ⟨h.2, hfree⟩)

end Layout

theorem free_eq_empty_iff : d.free sb = ∅ ↔ ∀ b : Blockno, b.toNat < sb.size.toNat → d.used sb b = true := by
  rw [Finset.eq_empty_iff_forall_notMem]
  constructor
  · intro h b hlt
    have hb := h b.toNat
    rw [mem_free] at hb
    simpa [hlt] using hb
  · intro h n hmem
    obtain ⟨b, rfl⟩ := eq_toNat_of_mem_free hmem
    obtain ⟨hlt, hused⟩ := mem_free.mp hmem
    rw [h b hlt] at hused
    cases hused

end Disk

end Xv6Ringbuf.Fs
