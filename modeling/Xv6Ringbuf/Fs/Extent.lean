import Xv6Ringbuf.Fs.Volume

namespace Xv6Ringbuf.Fs

open Function

inductive Place where
  | indirect
  | data (bn : Fin MAXFILE)
  deriving DecidableEq

def Place.ofAddr (k : Fin (NDIRECT + 1)) : Place :=
  if h : k.val < NDIRECT then .data ⟨k.val, Nat.lt_of_lt_of_le h (Nat.le_add_right _ _)⟩ else .indirect

def Dinode.indirect (din : Dinode) : Blockno := din.addrs (Fin.last NDIRECT)

def Dinode.setAddr (din : Dinode) (k : Fin (NDIRECT + 1)) (b : Blockno) : Dinode :=
  { din with addrs := Function.update din.addrs k b }

namespace Disk

def addr (d : Disk) (din : Dinode) (bn : Nat) : Blockno :=
  if h : bn < NDIRECT then din.addrs ⟨bn, Nat.lt_succ_of_lt h⟩
  else if din.indirect = 0 then 0
  else getWord (d din.indirect) (bn - NDIRECT)

def blockAt (d : Disk) (din : Dinode) : Place → Blockno
  | .indirect => din.indirect
  | .data bn => d.addr din bn

-- A byte of a file. Where there is no block it counts as zero, as in a new block.
def byte (d : Disk) (din : Dinode) (x : Nat) : UInt8 :=
  if d.addr din (x / BSIZE) = 0 then 0 else dataAt (d (d.addr din (x / BSIZE))) (x % BSIZE)

def contents (d : Disk) (din : Dinode) : List UInt8 := (List.range din.size.toNat).map (d.byte din)

theorem length_contents (d : Disk) (din : Dinode) : (d.contents din).length = din.size.toNat := by
  rw [contents, List.length_map, List.length_range]

variable {d d' : Disk} {din din' : Dinode} {b : Blockno}

theorem addr_congr (h : din.indirect ≠ 0 → d' din.indirect = d din.indirect) (bn : Nat) :
    d'.addr din bn = d.addr din bn := by
  rw [addr, addr]
  by_cases hbn : bn < NDIRECT
  · rw [dif_pos hbn, dif_pos hbn]
  · rw [dif_neg hbn, dif_neg hbn]
    by_cases hzero : din.indirect = 0
    · rw [if_pos hzero, if_pos hzero]
    · rw [if_neg hzero, if_neg hzero, h hzero]

theorem blockAt_congr (h : din.indirect ≠ 0 → d' din.indirect = d din.indirect) (place : Place) :
    d'.blockAt din place = d.blockAt din place := by
  cases place with
  | indirect => rfl
  | data bn => exact addr_congr h bn

theorem byte_congr {x : Nat} (haddr : d'.addr din' (x / BSIZE) = d.addr din (x / BSIZE))
    (hdata : d.addr din (x / BSIZE) ≠ 0 → d' (d.addr din (x / BSIZE)) = d (d.addr din (x / BSIZE))) :
    d'.byte din' x = d.byte din x := by
  rw [byte, byte, haddr]
  by_cases hzero : d.addr din (x / BSIZE) = 0
  · rw [if_pos hzero, if_pos hzero]
  · rw [if_neg hzero, if_neg hzero, hdata hzero]

theorem addr_addrs (h : din'.addrs = din.addrs) (bn : Nat) :
    d.addr din' bn = d.addr din bn := by
  have hind : din'.indirect = din.indirect := congrFun h _
  rw [addr, addr, hind, h]

theorem blockAt_addrs (h : din'.addrs = din.addrs) (place : Place) :
    d.blockAt din' place = d.blockAt din place := by
  cases place with
  | indirect => exact congrFun h _
  | data bn => exact addr_addrs h bn

theorem byte_addrs (h : din'.addrs = din.addrs) (x : Nat) :
    d.byte din' x = d.byte din x := by
  rw [byte, byte, addr_addrs h]

theorem blockAt_setAddr {k : Fin (NDIRECT + 1)} (hzero : din.addrs k = 0)
    (hempty : k = Fin.last NDIRECT → d b = zeroBlock) (place : Place) :
    d.blockAt (din.setAddr k b) place = if place = .ofAddr k then b else d.blockAt din place := by
  cases hk : decide (k.val < NDIRECT) with
  | true =>
    have hk := of_decide_eq_true hk
    have hne : Fin.last NDIRECT ≠ k := fun heq => by
      rw [← heq] at hk
      exact Nat.lt_irrefl _ hk
    have hind : (din.setAddr k b).indirect = din.indirect := update_of_ne hne ..
    rw [Place.ofAddr, dif_pos hk]
    cases place with
    | indirect =>
      rw [if_neg nofun]
      exact hind
    | data bn =>
      simp only [blockAt, Place.data.injEq, addr]
      by_cases hbn : bn.val < NDIRECT
      · rw [dif_pos hbn, dif_pos hbn]
        by_cases heq : bn.val = k.val
        · rw [if_pos (Fin.ext heq)]
          rw [show (⟨bn.val, Nat.lt_succ_of_lt hbn⟩ : Fin (NDIRECT + 1)) = k from Fin.ext heq]
          exact update_self ..
        · rw [if_neg fun h => heq (congrArg Fin.val h)]
          exact update_of_ne (fun h => heq (congrArg Fin.val h)) ..
      · have hother : bn ≠ ⟨k.val, Nat.lt_of_lt_of_le hk (Nat.le_add_right _ _)⟩ := fun h => hbn (by
          rw [h]
          exact hk)
        rw [dif_neg hbn, dif_neg hbn, hind, if_neg hother]
  | false =>
    have hk := of_decide_eq_false hk
    have hlast : k = Fin.last NDIRECT := Fin.ext (by
      have := k.isLt
      rw [Fin.val_last]
      omega)
    have hind : (din.setAddr k b).indirect = b := by
      rw [hlast]
      exact update_self (Fin.last NDIRECT) b din.addrs
    rw [Place.ofAddr, dif_neg hk]
    cases place with
    | indirect =>
      rw [if_pos rfl]
      exact hind
    | data bn =>
      rw [if_neg nofun]
      simp only [blockAt, addr]
      by_cases hbn : bn.val < NDIRECT
      · rw [dif_pos hbn, dif_pos hbn]
        exact update_of_ne (fun h => by
          rw [hlast] at h
          have hval := congrArg Fin.val h
          rw [Fin.val_last] at hval
          exact absurd hval (Nat.ne_of_lt hbn)) ..
      · rw [dif_neg hbn, dif_neg hbn, hind]
        rw [show din.indirect = 0 by rw [Dinode.indirect, ← hlast, hzero], if_pos rfl, hempty hlast,
          getWord_zeroBlock, ite_self]

theorem addr_setWord {j : Nat} (hind : din.indirect ≠ 0) (hj : j < NINDIRECT) {bn : Nat}
    (hbn : bn < MAXFILE) :
    Disk.addr (update d din.indirect (setWord (d din.indirect) j b)) din bn =
      if bn = NDIRECT + j then b else d.addr din bn := by
  have hnindirect : NINDIRECT = 256 := rfl
  have hmaxfile : MAXFILE = NDIRECT + NINDIRECT := rfl
  rw [addr, addr]
  by_cases hlt : bn < NDIRECT
  · rw [dif_pos hlt, dif_pos hlt, if_neg (by omega)]
  · rw [dif_neg hlt, dif_neg hlt, if_neg hind, if_neg hind, update_self]
    by_cases heq : bn = NDIRECT + j
    · rw [if_pos heq, heq, Nat.add_sub_cancel_left]
      exact getWord_setWord_self _ _ (by omega)
    · rw [if_neg heq]
      exact getWord_setWord_of_ne _ _ (by omega) (by omega)

end Disk

def Allocated (sb : Superblock) (dins : UInt32 → Dinode) (inum : UInt32) : Prop :=
  sb.HasInode inum ∧ (dins inum).type ≠ 0

-- Block accounting: each data block is named in at most one place, and the bitmap
-- marks the blocks that are named and those before the data blocks. `dins` are the
-- inodes as they are now, on the disk or in memory.
structure Accounted (sb : Superblock) (d : Disk) (dins : UInt32 → Dinode) : Prop where
  metadata : ∀ b : Blockno, b.toNat < sb.datastart → d.used sb b = true
  placed : ∀ inum place, Allocated sb dins inum → d.blockAt (dins inum) place ≠ 0 →
    sb.IsData (d.blockAt (dins inum) place) ∧ d.used sb (d.blockAt (dins inum) place) = true
  apart : ∀ inum inum' place place', Allocated sb dins inum → Allocated sb dins inum' →
    d.blockAt (dins inum) place ≠ 0 → d.blockAt (dins inum) place = d.blockAt (dins inum') place' →
    inum = inum' ∧ place = place'

structure Filled (d : Disk) (din : Dinode) : Prop where
  bounded : din.size.toNat ≤ MAXFILE * BSIZE
  filled : ∀ bn, bn * BSIZE < din.size.toNat → d.addr din bn ≠ 0

-- The inode `inum` gets the free block `b` in a place that is empty. The block is
-- zero, and no other data block changes but perhaps the indirect block.
structure Growth (sb : Superblock) (inum : UInt32) (place : Place) (b : Blockno) (d : Disk)
    (dins : UInt32 → Dinode) (d' : Disk) (dins' : UInt32 → Dinode) : Prop where
  empty : d.blockAt (dins inum) place = 0
  isData : sb.IsData b
  free : d.used sb b = false
  used : ∀ b' : Blockno, b'.toNat < sb.size.toNat → d'.used sb b' = (decide (b' = b) || d.used sb b')
  dinode : ∀ inum', sb.HasInode inum' → d'.dinode sb inum' = d.dinode sb inum'
  zero : d' b = zeroBlock
  same : ∀ inum' bn, Allocated sb dins inum' → bn < MAXFILE → d.addr (dins inum') bn ≠ 0 →
    d' (d.addr (dins inum') bn) = d (d.addr (dins inum') bn)
  others : ∀ inum', inum' ≠ inum → dins' inum' = dins inum'
  own : ∃ addrs, dins' inum = { dins inum with addrs := addrs }
  places : ∀ inum' place', Allocated sb dins inum' → d'.blockAt (dins' inum') place' =
    if inum' = inum ∧ place' = place then b else d.blockAt (dins inum') place'

namespace Accounted

variable {sb : Superblock} {d : Disk} {dins : UInt32 → Dinode} (h : Accounted sb d dins)

include h

variable {inum : UInt32} {b : Blockno}

theorem indirect_ne (halloc : Allocated sb dins inum) (hfree : d.used sb b = false)
    (hne : (dins inum).indirect ≠ 0) : (dins inum).indirect ≠ b := by
  intro heq
  have hused := (h.placed inum .indirect halloc hne).2
  rw [show d.blockAt (dins inum) .indirect = b from heq, hfree] at hused
  cases hused

theorem blockAt_allot (hgeo : Geometry sb) (halloc : Allocated sb dins inum) (hdata : sb.IsData b)
    (hfree : d.used sb b = false) (place : Place) :
    (d.allot sb b).blockAt (dins inum) place = d.blockAt (dins inum) place := by
  apply Disk.blockAt_congr
  intro hne
  exact Disk.allot_of_ne hgeo hdata (h.placed inum .indirect halloc hne).1 (h.indirect_ne halloc hfree hne)

theorem growth_direct (hgeo : Geometry sb) (halloc : Allocated sb dins inum) {k : Fin (NDIRECT + 1)}
    (hzero : (dins inum).addrs k = 0) (hdata : sb.IsData b) (hfree : d.used sb b = false) :
    Growth sb inum (.ofAddr k) b d dins (d.allot sb b)
      (update dins inum ((dins inum).setAddr k b)) := by
  have hplaces : ∀ place, (d.allot sb b).blockAt ((dins inum).setAddr k b) place =
      if place = .ofAddr k then b else d.blockAt (dins inum) place := by
    intro place
    rw [Disk.blockAt_setAddr hzero (fun _ => Disk.allot_self b), h.blockAt_allot hgeo halloc hdata hfree]
  refine ⟨?_, hdata, hfree, fun b' hb' => Disk.used_allot hgeo hdata hb',
    fun inum' hinum' => Disk.dinode_allot hgeo hdata hinum', Disk.allot_self b, ?_,
    fun inum' hne => update_of_ne hne .., ⟨_, update_self ..⟩, ?_⟩
  · by_cases hk : k.val < NDIRECT
    · rw [Place.ofAddr, dif_pos hk, Disk.blockAt, Disk.addr, dif_pos hk]
      exact hzero
    · have hlast : k = Fin.last NDIRECT := Fin.ext (by
        have := k.isLt
        rw [Fin.val_last]
        omega)
      rw [Place.ofAddr, dif_neg hk, Disk.blockAt, Dinode.indirect, ← hlast]
      exact hzero
  · intro inum' bn halloc' hbn hne
    obtain ⟨hdata', hused⟩ := h.placed inum' (.data ⟨bn, hbn⟩) halloc' hne
    apply Disk.allot_of_ne hgeo hdata hdata'
    intro heq
    rw [heq, hfree] at hused
    cases hused
  · intro inum' place' halloc'
    by_cases hinum : inum' = inum
    · rw [hinum, update_self, hplaces]
      simp only [true_and]
    · rw [update_of_ne hinum, if_neg fun hand => hinum hand.1,
        h.blockAt_allot hgeo halloc' hdata hfree]

theorem growth_entry (hgeo : Geometry sb) (halloc : Allocated sb dins inum)
    (hind : (dins inum).indirect ≠ 0) {bn : Nat} (hdirect : ¬bn < NDIRECT) (hbn : bn < MAXFILE)
    (hzero : d.addr (dins inum) bn = 0) (hdata : sb.IsData b) (hfree : d.used sb b = false) :
    Growth sb inum (.data ⟨bn, hbn⟩) b d dins
      (update (d.allot sb b) (dins inum).indirect
        (setWord (d (dins inum).indirect) (bn - NDIRECT) b)) dins := by
  have hmaxfile : MAXFILE = NDIRECT + NINDIRECT := rfl
  obtain ⟨hdataind, _⟩ := h.placed inum .indirect halloc hind
  have hdataind : sb.IsData (dins inum).indirect := hdataind
  have hindne := h.indirect_ne halloc hfree hind
  have hallot : d.allot sb b (dins inum).indirect = d (dins inum).indirect :=
    Disk.allot_of_ne hgeo hdata hdataind hindne
  -- an address of a file is not its own or another's indirect block
  have hnotind : ∀ inum' bn', Allocated sb dins inum' → bn' < MAXFILE → d.addr (dins inum') bn' ≠ 0 →
      d.addr (dins inum') bn' ≠ (dins inum).indirect := by
    intro inum' bn' halloc' hbn' hne heq
    have hplace := (h.apart inum' inum (.data ⟨bn', hbn'⟩) .indirect halloc' halloc hne heq).2
    cases hplace
  refine ⟨hzero, hdata, hfree, ?_, ?_, ?_, ?_, fun _ _ => rfl, ⟨(dins inum).addrs, rfl⟩, ?_⟩
  · intro b' hb'
    rw [Disk.used_update_of_ne (BBLOCK_ne_data hgeo hb' hdataind), Disk.used_allot hgeo hdata hb']
  · intro inum' hinum'
    rw [Disk.dinode_update_of_ne (IBLOCK_ne_data hgeo hinum' hdataind), Disk.dinode_allot hgeo hdata hinum']
  · rw [update_of_ne hindne.symm, Disk.allot_self]
  · intro inum' bn' halloc' hbn' hne
    obtain ⟨hdata', hused⟩ := h.placed inum' (.data ⟨bn', hbn'⟩) halloc' hne
    rw [update_of_ne (hnotind inum' bn' halloc' hbn' hne)]
    apply Disk.allot_of_ne hgeo hdata hdata'
    intro heq
    rw [heq, hfree] at hused
    cases hused
  · intro inum' place' halloc'
    by_cases hinum : inum' = inum
    · rw [hinum]
      cases place' with
      | indirect =>
        rw [if_neg fun hand => nomatch hand.2]
        rfl
      | data bn' =>
        have hset := Disk.addr_setWord (d := d.allot sb b) (b := b) hind
          (show bn - NDIRECT < NINDIRECT by omega) bn'.isLt
        rw [hallot] at hset
        simp only [Disk.blockAt, hset, Place.data.injEq, true_and, Fin.ext_iff,
          show NDIRECT + (bn - NDIRECT) = bn by omega]
        rw [show (d.allot sb b).addr (dins inum) bn' = d.addr (dins inum) bn' from
          h.blockAt_allot hgeo halloc hdata hfree (.data bn')]
    · rw [if_neg fun hand => hinum hand.1]
      rw [Disk.blockAt_congr, h.blockAt_allot hgeo halloc' hdata hfree]
      intro hne
      apply update_of_ne
      intro heq
      exact hinum (h.apart inum' inum .indirect .indirect halloc' halloc hne heq).1

theorem of_places (hgeo : Geometry sb) {d' : Disk}
    (hplaces : ∀ inum place, Allocated sb dins inum →
      d'.blockAt (dins inum) place = d.blockAt (dins inum) place)
    (hused : ∀ b : Blockno, b.toNat < sb.size.toNat → d'.used sb b = d.used sb b) :
    Accounted sb d' dins := by
  refine ⟨?_, ?_, ?_⟩
  · intro b hb
    rw [hused b (Nat.lt_of_lt_of_le hb (datastart_le hgeo))]
    exact h.metadata b hb
  · intro inum place halloc hne
    rw [hplaces inum place halloc] at hne ⊢
    obtain ⟨hdata, hused'⟩ := h.placed inum place halloc hne
    exact ⟨hdata, (hused _ hdata.2).trans hused'⟩
  · intro inum inum' place place' halloc halloc' hne heq
    rw [hplaces inum place halloc] at hne heq
    rw [hplaces inum' place' halloc'] at heq
    exact h.apart inum inum' place place' halloc halloc' hne heq

section Frame

variable {d' : Disk} (hdata : ∀ b, sb.IsData b → d' b = d b)

include hdata

theorem blockAt_frame {inum : UInt32} (halloc : Allocated sb dins inum) (place : Place) :
    d'.blockAt (dins inum) place = d.blockAt (dins inum) place :=
  Disk.blockAt_congr (fun hne => hdata _ (h.placed inum .indirect halloc hne).1) place

theorem byte_frame {inum : UInt32} (halloc : Allocated sb dins inum) {x : Nat} (hx : x / BSIZE < MAXFILE) :
    d'.byte (dins inum) x = d.byte (dins inum) x :=
  Disk.byte_congr (h.blockAt_frame hdata halloc (.data ⟨x / BSIZE, hx⟩))
    fun hne => hdata _ (h.placed inum (.data ⟨x / BSIZE, hx⟩) halloc hne).1

theorem frame (hgeo : Geometry sb)
    (hused : ∀ b : Blockno, b.toNat < sb.size.toNat → d'.used sb b = d.used sb b) :
    Accounted sb d' dins :=
  h.of_places hgeo (fun _ place halloc => h.blockAt_frame hdata halloc place) hused

end Frame

variable {dins' : UInt32 → Dinode}

theorem congr_addrs (haddrs : ∀ inum, Allocated sb dins' inum → (dins' inum).addrs = (dins inum).addrs)
    (halloc : ∀ inum, Allocated sb dins' inum → Allocated sb dins inum) : Accounted sb d dins' := by
  refine ⟨h.metadata, ?_, ?_⟩
  · intro inum place hinum hne
    rw [Disk.blockAt_addrs (haddrs inum hinum)] at hne ⊢
    exact h.placed inum place (halloc inum hinum) hne
  · intro inum inum' place place' hinum hinum' hne heq
    rw [Disk.blockAt_addrs (haddrs inum hinum)] at hne heq
    rw [Disk.blockAt_addrs (haddrs inum' hinum')] at heq
    exact h.apart inum inum' place place' (halloc inum hinum) (halloc inum' hinum') hne heq

theorem congr (heq : ∀ inum, sb.HasInode inum → dins' inum = dins inum) :
    Accounted sb d dins' := by
  refine h.congr_addrs (fun inum hinum => by rw [heq inum hinum.1]) fun inum hinum => ⟨hinum.1, ?_⟩
  rw [← heq inum hinum.1]
  exact hinum.2

end Accounted

namespace Growth

variable {sb : Superblock} {inum : UInt32} {place : Place} {b : Blockno} {d d' : Disk}
  {dins dins' : UInt32 → Dinode} (h : Growth sb inum place b d dins d' dins')

include h

theorem type_eq (inum' : UInt32) : (dins' inum').type = (dins inum').type := by
  by_cases hinum : inum' = inum
  · obtain ⟨addrs, hown⟩ := h.own
    rw [hinum, hown]
  · rw [h.others inum' hinum]

theorem allocated_iff (inum' : UInt32) : Allocated sb dins' inum' ↔ Allocated sb dins inum' := by
  rw [Allocated, Allocated, h.type_eq]

theorem accounted (hgeo : Geometry sb) (hacc : Accounted sb d dins) : Accounted sb d' dins' := by
  have hsize := datastart_le hgeo
  -- a place that names `b` now is the new one
  have hnew : ∀ inum' place', Allocated sb dins inum' → d.blockAt (dins inum') place' ≠ b := by
    intro inum' place' halloc heq
    have hne : d.blockAt (dins inum') place' ≠ 0 := by
      rw [heq]
      exact h.isData.ne_zero
    have hused := (hacc.placed inum' place' halloc hne).2
    rw [heq, h.free] at hused
    cases hused
  refine ⟨?_, ?_, ?_⟩
  · intro b' hb'
    rw [h.used b' (by omega), hacc.metadata b' hb', Bool.or_true]
  · intro inum' place' halloc hne
    rw [h.allocated_iff] at halloc
    rw [h.places inum' place' halloc] at hne ⊢
    by_cases hand : inum' = inum ∧ place' = place
    · rw [if_pos hand]
      refine ⟨h.isData, ?_⟩
      rw [h.used b h.isData.2, decide_eq_true rfl, Bool.true_or]
    · rw [if_neg hand] at hne ⊢
      obtain ⟨hdata, hused⟩ := hacc.placed inum' place' halloc hne
      refine ⟨hdata, ?_⟩
      rw [h.used _ hdata.2, hused, Bool.or_true]
  · intro inum₁ inum₂ place₁ place₂ halloc₁ halloc₂ hne heq
    rw [h.allocated_iff] at halloc₁ halloc₂
    rw [h.places inum₁ place₁ halloc₁] at hne heq
    rw [h.places inum₂ place₂ halloc₂] at heq
    by_cases hand₁ : inum₁ = inum ∧ place₁ = place
    · by_cases hand₂ : inum₂ = inum ∧ place₂ = place
      · exact ⟨hand₁.1.trans hand₂.1.symm, hand₁.2.trans hand₂.2.symm⟩
      · rw [if_pos hand₁, if_neg hand₂] at heq
        exact absurd heq.symm (hnew inum₂ place₂ halloc₂)
    · by_cases hand₂ : inum₂ = inum ∧ place₂ = place
      · rw [if_neg hand₁, if_pos hand₂] at heq
        exact absurd heq (hnew inum₁ place₁ halloc₁)
      · rw [if_neg hand₁] at hne heq
        rw [if_neg hand₂] at heq
        exact hacc.apart inum₁ inum₂ place₁ place₂ halloc₁ halloc₂ hne heq

theorem byte {inum' : UInt32} (halloc : Allocated sb dins inum') {x : Nat} (hx : x / BSIZE < MAXFILE) :
    d'.byte (dins' inum') x = d.byte (dins inum') x := by
  have hplace := h.places inum' (.data ⟨x / BSIZE, hx⟩) halloc
  by_cases hand : inum' = inum ∧ Place.data ⟨x / BSIZE, hx⟩ = place
  · rw [if_pos hand] at hplace
    have hempty := h.empty
    rw [← hand.1, ← hand.2] at hempty
    rw [Disk.byte, Disk.byte, show d'.addr (dins' inum') (x / BSIZE) = b from hplace,
      show d.addr (dins inum') (x / BSIZE) = 0 from hempty, if_neg h.isData.ne_zero, if_pos rfl, h.zero,
      dataAt_zeroBlock]
  · rw [if_neg hand] at hplace
    exact Disk.byte_congr hplace fun hne => h.same inum' _ halloc hx hne

end Growth

end Xv6Ringbuf.Fs
