import Xv6Ringbuf.Fs.WriteLoop

namespace Xv6Ringbuf.Fs

open Interleave Handler Function

namespace Kern

variable {P : Type} [DecidableEq P] {p : P} {α : Type} {sb : Superblock} {s s' : Kern P} {i : Ip}
  {E : Stop → Prop} {src : Fsys.Src} {buf : List UInt8}

def store (sb : Superblock) (s : Kern P) (i : Ip) : Kern P :=
  s.put (IBLOCK sb (s.table i).inum) (setDinode (s.view (IBLOCK sb (s.table i).inum))
    ((s.table i).inum.toNat % IPB) (s.table i).din)

-- The kernel after a write up to offset `e`: the size is that of the longer file, and
-- the inode is on the disk.
def settle (sb : Superblock) (s : Kern P) (i : Ip) (e : Nat) : Kern P :=
  (s.setMem (s.toMem.setDin i { (s.table i).din with
    size := UInt32.ofNat (max (s.table i).din.size.toNat e) })).store sb i

theorem logs_iupdate {next : Unit → Fsys α} {Q : α → Kern P → List Blockno → Prop}
    (hfree : s.held (IBLOCK sb (s.table i).inum) = none)
    (h : Logs p (next ()) (s.store sb i)
      (fun value s' l => Q value s' (IBLOCK sb (s.table i).inum :: l)) E) :
    Logs p (Fsys.iupdate sb i >>= next) s Q E := by
  have hspec : Logs p (Fsys.iupdate sb i) s
      (fun _ s' l => s' = s.store sb i ∧ l = [IBLOCK sb (s.table i).inum]) E := by
    rw [Fsys.iupdate]
    apply logs_inode
    apply logs_bread hfree
    exact logs_log hfree (logs_pure ⟨rfl, rfl⟩)
  refine Notes.bind hspec ?_
  rintro _ _ _ ⟨rfl, rfl⟩
  exact h

section

omit [DecidableEq P]

theorem view_store (sb : Superblock) (s : Kern P) (i : Ip) :
    (s.store sb i).view = s.view.setDinode sb (s.table i).inum (s.table i).din :=
  view_put ..

theorem view_settle (sb : Superblock) (s : Kern P) (i : Ip) (e : Nat) :
    (s.settle sb i e).view = s.view.setDinode sb (s.table i).inum { (s.table i).din with
      size := UInt32.ofNat (max (s.table i).din.size.toNat e) } := by
  rw [settle, view_store, view_setMem]
  rw [show (s.setMem (s.toMem.setDin i _)).table i = _ from Mem.setDin_table_self ..]

theorem settle_table (sb : Superblock) (s : Kern P) (i : Ip) (e : Nat) :
    (s.settle sb i e).table i = { s.table i with din := { (s.table i).din with
      size := UInt32.ofNat (max (s.table i).din.size.toNat e) } } :=
  Mem.setDin_table_self ..

-- From `s` to `s'` bytes `data` were stored in the file of entry `i` from `off` on. Its
-- size is now `size`.
structure Stored (sb : Superblock) (i : Ip) (s s' : Kern P) (off : Nat) (data : List UInt8) (size : Nat) :
    Prop where
  serving : s'.Serving sb i
  mem : ∃ addrs, s'.toMem =
    s.toMem.setDin i { (s.table i).din with addrs := addrs, size := UInt32.ofNat size }
  dinode : ∀ inum, sb.HasInode inum → inum ≠ (s.table i).inum →
    s'.view.dinode sb inum = s.view.dinode sb inum
  own : ∀ x, x / BSIZE < MAXFILE →
    s'.view.byte (s'.table i).din x = overlay off data (s.view.byte (s.table i).din) x
  others : ∀ inum, Allocated sb (s.inodes sb i) inum → inum ≠ (s.table i).inum → ∀ x, x / BSIZE < MAXFILE →
    s'.view.byte (s'.inodes sb i inum) x = s.view.byte (s.inodes sb i inum) x

theorem settle_data (hgeo : Geometry sb) (hinum : sb.HasInode (s.table i).inum) (e : Nat) {b : Blockno}
    (hb : sb.IsData b) : (s.settle sb i e).view b = s.view b := by
  rw [view_settle]
  exact Disk.setDinode_of_ne _ (IBLOCK_ne_data hgeo hinum hb).symm

theorem settle_used (hgeo : Geometry sb) (hinum : sb.HasInode (s.table i).inum) (e : Nat) {b : Blockno}
    (hb : b.toNat < sb.size.toNat) : (s.settle sb i e).view.used sb b = s.view.used sb b := by
  rw [view_settle]
  exact Disk.used_update_of_ne (IBLOCK_ne_BBLOCK hgeo hinum hb).symm _

theorem Serving.settle (h : s.Serving sb i) (hgeo : Geometry sb) (e : Nat) :
    (s.settle sb i e).Serving sb i := by
  have htable := settle_table sb s i e
  have haddrs : ∀ inum, Allocated sb ((s.settle sb i e).inodes sb i) inum →
      ((s.settle sb i e).inodes sb i inum).addrs = (s.inodes sb i inum).addrs ∧
        ((s.settle sb i e).inodes sb i inum).type = (s.inodes sb i inum).type := by
    intro inum halloc
    rw [inodes, inodes, htable]
    by_cases heq : inum = (s.table i).inum
    · rw [heq, update_self, update_self]
      exact ⟨rfl, rfl⟩
    · rw [update_of_ne heq, update_of_ne heq, view_settle,
        Disk.dinode_setDinode hgeo h.inum halloc.1, if_neg heq]
      exact ⟨rfl, rfl⟩
  have hacc : Accounted sb (s.settle sb i e).view (s.inodes sb i) :=
    h.accounted.frame (fun b hb => settle_data hgeo h.inum e hb) hgeo fun b hb => settle_used hgeo h.inum e hb
  refine ⟨h.held, by rw [htable]; exact h.inum, by rw [htable]; exact h.type, ?_⟩
  refine hacc.congr_addrs (fun inum halloc => (haddrs inum halloc).1) fun inum halloc => ⟨halloc.1, ?_⟩
  rw [← (haddrs inum halloc).2]
  exact halloc.2

theorem Serving.settle_blockAt (h : s.Serving sb i) (hgeo : Geometry sb) (e : Nat) (place : Place) :
    (s.settle sb i e).view.blockAt ((s.settle sb i e).table i).din place =
      s.view.blockAt (s.table i).din place := by
  have hframe := h.accounted.blockAt_frame (fun b hb => settle_data hgeo h.inum e hb) h.allocated place
  rw [inodes_self] at hframe
  rw [settle_table, ← hframe]
  exact Disk.blockAt_addrs rfl place

theorem Changed.settle {off : Nat} {data : List UInt8} (h : Changed sb i s s' off data)
    (hgeo : Geometry sb) (e : Nat) :
    Stored sb i s (s'.settle sb i e) off data (max (s.table i).din.size.toNat e) := by
  have hinum := h.serving.inum
  have htable := settle_table sb s' i e
  have hdinode : ∀ inum, sb.HasInode inum → inum ≠ (s'.table i).inum →
      (s'.settle sb i e).view.dinode sb inum = s'.view.dinode sb inum := by
    intro inum hin hne
    rw [view_settle, Disk.dinode_setDinode hgeo hinum hin, if_neg hne]
  have hothers : ∀ inum, sb.HasInode inum → inum ≠ (s.table i).inum →
      (s'.settle sb i e).inodes sb i inum = s'.inodes sb i inum := by
    intro inum hin hne
    rw [← h.inum_eq] at hne
    rw [inodes_of_ne (by rw [htable]; exact hne), inodes_of_ne hne, hdinode inum hin hne]
  have hframe := fun b (hb : sb.IsData b) => settle_data (e := e) hgeo hinum hb
  refine ⟨h.serving.settle hgeo e, ?_, ?_, ?_, ?_⟩
  · obtain ⟨addrs, hmem⟩ := h.mem
    have hdin : (s'.table i).din = { (s.table i).din with addrs := addrs } := by
      rw [hmem, Mem.setDin_table_self]
    refine ⟨addrs, ?_⟩
    have hsettle : (s'.settle sb i e).toMem = s'.toMem.setDin i { (s'.table i).din with
        size := UInt32.ofNat (max (s'.table i).din.size.toNat e) } := rfl
    rw [hsettle, hdin, hmem, Mem.setDin_setDin]
  · intro inum hin hne
    rw [hdinode inum hin (by rw [h.inum_eq]; exact hne), h.dinode inum hin]
  · intro x hx
    have hbyte := h.serving.accounted.byte_frame hframe h.serving.allocated hx
    rw [inodes_self] at hbyte
    rw [← h.own x hx, ← hbyte, htable]
    exact Disk.byte_addrs rfl x
  · intro inum halloc hne x hx
    rw [hothers inum halloc.1 hne, h.serving.accounted.byte_frame hframe (h.allocated halloc) hx,
      h.others inum halloc hne x hx]

end

theorem Serving.writei_refused {off n : UInt32}
    (hbad : ¬(off ≤ (s.table i).din.size ∧ off.toNat + n.toNat ≤ MAXFILE * BSIZE)) :
    Logs p (Fsys.writei sb i src off n) s (fun r s' l => r = -1 ∧ s' = s ∧ l = []) E := by
  have hmaxsize : MAXFILE * BSIZE = 274432 := rfl
  rw [Fsys.writei]
  apply logs_inode
  by_cases hfirst : off > (s.table i).din.size ∨ off + n < off
  · rw [if_pos hfirst]
    exact logs_pure ⟨rfl, rfl, rfl⟩
  · rw [if_neg hfirst]
    rw [not_or] at hfirst
    have hoff : off ≤ (s.table i).din.size := UInt32.not_lt.mp hfirst.1
    have hsum := hfirst.2
    rw [UInt32.lt_iff_toNat_lt, UInt32.toNat_add] at hsum
    have hbig : MAXFILE * BSIZE < (off + n).toNat := by
      rw [UInt32.toNat_add]
      have hnot : ¬off.toNat + n.toNat ≤ MAXFILE * BSIZE := fun hle => hbad ⟨hoff, hle⟩
      have hn := n.toNat_lt
      have hoff' := off.toNat_lt
      omega
    rw [if_pos hbig]
    exact logs_pure ⟨rfl, rfl, rfl⟩

theorem Serving.writei (h : s.Serving sb i) (hgeo : Geometry sb) {off n : UInt32}
    (hgives : Fsys.Gives src buf n.toNat) (hoff : off ≤ (s.table i).din.size)
    (hmax : off.toNat + n.toNat ≤ MAXFILE * BSIZE) :
    Logs p (Fsys.writei sb i src off n) s (fun r s' l => ∃ (t : Nat) (s₁ s₂ : Kern P) (l' : List Blockno), r = t ∧
      WritePost sb i src buf n.toNat s 0 off.toNat t s₁ s₂ l' ∧ s' = s₂.settle sb i (off.toNat + t) ∧
        l = l' ++ [IBLOCK sb (s.table i).inum]) E := by
  have hmaxsize : MAXFILE * BSIZE = 274432 := rfl
  have hsum : (off + n).toNat = off.toNat + n.toNat := by
    rw [UInt32.toNat_add]
    omega
  rw [Fsys.writei]
  apply logs_inode
  rw [if_neg, if_neg (by rw [hsum]; omega)]
  · refine Notes.bind (h.writeiFrom hgeo hgives n.toNat (Nat.le_of_eq rfl) (Nat.zero_le _)
      (by rw [Nat.sub_zero]; exact hmax)) ?_
    rintro t s₂ l ⟨s₁, hpost⟩
    have hhigh := hpost.high
    -- a copy that fails leaves the memory as it is
    have hsame : s₂.toMem = s₁.toMem ∧ s₂.held = s₁.held := by
      cases hpost.ends with
      | all _ => exact ⟨rfl, rfl⟩
      | full _ _ _ => exact ⟨rfl, rfl⟩
      | failed _ _ _ _ _ _ => exact ⟨rfl, rfl⟩
    have hinum : (s₂.table i).inum = (s.table i).inum := by
      rw [hsame.1]
      exact hpost.written.inum_eq
    have hheld : ∀ b, s₂.held b = none := by
      rw [hsame.2]
      exact hpost.written.serving.held
    apply logs_inode
    by_cases hgrow : (s₂.table i).din.size.toNat < off.toNat + t
    · rw [if_pos hgrow]
      apply logs_setDin
      have hsettle : (s₂.setMem (s₂.toMem.setDin i { (s₂.table i).din with
          size := UInt32.ofNat (off.toNat + t) })).store sb i = s₂.settle sb i (off.toNat + t) := by
        rw [Kern.settle, Nat.max_eq_right (Nat.le_of_lt hgrow)]
      have htable : ((s₂.setMem (s₂.toMem.setDin i { (s₂.table i).din with
          size := UInt32.ofNat (off.toNat + t) })).table i).inum = (s.table i).inum := by
        rw [show (s₂.setMem (s₂.toMem.setDin i _)).table i = _ from Mem.setDin_table_self ..]
        exact hinum
      refine logs_iupdate (hheld _) (logs_pure ⟨t, s₁, s₂, l, rfl, hpost, hsettle, ?_⟩)
      rw [htable]
    · rw [if_neg hgrow]
      have hsettle : s₂.store sb i = s₂.settle sb i (off.toNat + t) := by
        rw [Kern.settle, Nat.max_eq_left (Nat.le_of_not_lt hgrow), UInt32.ofNat_toNat]
        rw [show s₂.toMem.setDin i (s₂.table i).din = s₂.toMem from Mem.setDin_self ..]
        rfl
      refine logs_iupdate (hheld _) (logs_pure ⟨t, s₁, s₂, l, rfl, hpost, hsettle, ?_⟩)
      rw [hinum]
  · rw [not_or]
    refine ⟨UInt32.not_lt.mpr hoff, UInt32.not_lt.mpr ?_⟩
    rw [UInt32.le_iff_toNat_le, hsum]
    omega

end Kern

end Xv6Ringbuf.Fs
