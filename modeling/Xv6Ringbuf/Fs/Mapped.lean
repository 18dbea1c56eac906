import Xv6Ringbuf.Fs.BallocSpec

namespace Xv6Ringbuf.Fs

open Interleave Handler Function

namespace Mem

variable {P : Type}

theorem setDin_self (m : Mem P) (i : Ip) : m.setDin i (m.table i).din = m := by
  rw [setDin, setEntry, update_eq_self]

theorem setDin_setDin (m : Mem P) (i : Ip) (din din' : Dinode) :
    (m.setDin i din).setDin i din' = m.setDin i din' := by
  simp [setDin, setEntry]

@[simp] theorem setDin_table_self (m : Mem P) (i : Ip) (din : Dinode) :
    (m.setDin i din).table i = { m.table i with din := din } :=
  update_self ..

end Mem

namespace Kern

variable {P : Type}

def inodes (sb : Superblock) (s : Kern P) (i : Ip) : UInt32 → Dinode :=
  Function.update (s.view.dinode sb) (s.table i).inum (s.table i).din

-- A process works on the inode of entry `i`, which is in memory.
structure Serving (sb : Superblock) (s : Kern P) (i : Ip) : Prop where
  held : ∀ b, s.held b = none
  inum : sb.HasInode (s.table i).inum
  type : (s.table i).din.type ≠ 0
  accounted : Accounted sb s.view (s.inodes sb i)

-- From `s` to `s'` the inode of entry `i` has got more blocks, and no byte of a file
-- has changed. `l` are the blocks that were logged.
structure Mapped (sb : Superblock) (i : Ip) (s s' : Kern P) (l : List Blockno) : Prop where
  serving : s'.Serving sb i
  mem : ∃ addrs, s'.toMem = s.toMem.setDin i { (s.table i).din with addrs := addrs }
  dinode : ∀ inum, sb.HasInode inum → s'.view.dinode sb inum = s.view.dinode sb inum
  byte : ∀ inum, Allocated sb (s.inodes sb i) inum → ∀ x, x / BSIZE < MAXFILE →
    s'.view.byte (s'.inodes sb i inum) x = s.view.byte (s.inodes sb i inum) x
  keep : ∀ inum place, Allocated sb (s.inodes sb i) inum → s.view.blockAt (s.inodes sb i inum) place ≠ 0 →
    s'.view.blockAt (s'.inodes sb i inum) place = s.view.blockAt (s.inodes sb i inum) place
  logged : ∀ b, b ∉ l → s'.view b = s.view b ∧ s'.unlogged b = s.unlogged b
  clean : ∀ b ∈ l, s'.unlogged b = none

section Inodes

variable {sb : Superblock} {s s' : Kern P} {i : Ip}

theorem inodes_self (sb : Superblock) (s : Kern P) (i : Ip) : s.inodes sb i (s.table i).inum = (s.table i).din := update_self ..

variable {inum : UInt32} {l : List Blockno} {b b' : Blockno} {k : Fin (NDIRECT + 1)} {bn : Nat}

theorem inodes_of_ne (h : inum ≠ (s.table i).inum) :
    s.inodes sb i inum = s.view.dinode sb inum :=
  update_of_ne h ..

theorem Serving.allocated (h : s.Serving sb i) : Allocated sb (s.inodes sb i) (s.table i).inum := by
  refine ⟨h.inum, ?_⟩
  rw [inodes_self]
  exact h.type

theorem Serving.mapped (h : s.Serving sb i) : Mapped sb i s s [] := by
  refine ⟨h, ⟨(s.table i).din.addrs, (Mem.setDin_self _ _).symm⟩, fun _ _ => rfl, fun _ _ _ _ => rfl,
    fun _ _ _ _ => rfl, fun _ _ => ⟨rfl, rfl⟩, fun b hb => ?_⟩
  cases hb

theorem Mapped.inum_eq (h : Mapped sb i s s' l) :
    (s'.table i).inum = (s.table i).inum := by
  obtain ⟨addrs, hmem⟩ := h.mem
  rw [hmem, Mem.setDin_table_self]

theorem Mapped.din_eq (h : Mapped sb i s s' l) :
    ∃ addrs, (s'.table i).din = { (s.table i).din with addrs := addrs } := by
  obtain ⟨addrs, hmem⟩ := h.mem
  refine ⟨addrs, ?_⟩
  rw [hmem, Mem.setDin_table_self]

theorem Mapped.type_eq (h : Mapped sb i s s' l) (hinum : sb.HasInode inum) :
    (s'.inodes sb i inum).type = (s.inodes sb i inum).type := by
  by_cases heq : inum = (s.table i).inum
  · obtain ⟨addrs, hdin⟩ := h.din_eq
    have hself' := inodes_self sb s' i
    rw [h.inum_eq] at hself'
    rw [heq, hself', inodes_self, hdin]
  · rw [inodes_of_ne heq, inodes_of_ne (by rw [h.inum_eq]; exact heq), h.dinode inum hinum]

theorem Mapped.allocated (h : Mapped sb i s s' l) (halloc : Allocated sb (s.inodes sb i) inum) :
    Allocated sb (s'.inodes sb i) inum := by
  refine ⟨halloc.1, ?_⟩
  rw [h.type_eq halloc.1]
  exact halloc.2

theorem Mapped.trans {s'' : Kern P} {l' : List Blockno} (h : Mapped sb i s s' l)
    (h' : Mapped sb i s' s'' l') : Mapped sb i s s'' (l ++ l') := by
  obtain ⟨addrs, hmem⟩ := h.mem
  obtain ⟨addrs', hmem'⟩ := h'.mem
  refine ⟨h'.serving, ⟨addrs', ?_⟩, ?_, ?_, ?_, ?_, ?_⟩
  · rw [hmem', hmem, Mem.setDin_setDin, Mem.setDin_table_self]
  · intro inum hinum
    rw [h'.dinode inum hinum, h.dinode inum hinum]
  · intro inum halloc x hx
    rw [h'.byte inum (h.allocated halloc) x hx, h.byte inum halloc x hx]
  · intro inum place halloc hne
    have hkeep := h.keep inum place halloc hne
    rw [h'.keep inum place (h.allocated halloc) (by rw [hkeep]; exact hne), hkeep]
  · intro b hb
    rw [List.mem_append, not_or] at hb
    obtain ⟨hview, hunlogged⟩ := h.logged b hb.1
    obtain ⟨hview', hunlogged'⟩ := h'.logged b hb.2
    exact ⟨hview'.trans hview, hunlogged'.trans hunlogged⟩
  · intro b hb
    by_cases hmem' : b ∈ l'
    · exact h'.clean b hmem'
    · rw [(h'.logged b hmem').2]
      exact h.clean b ((List.mem_append.mp hb).resolve_right hmem')

theorem Serving.mapped_of_growth (h : s.Serving sb i) (hgeo : Geometry sb) {place : Place}
    {dins : UInt32 → Dinode}
    (hg : Growth sb (s.table i).inum place b s.view (s.inodes sb i) s'.view dins)
    (hinum : (s'.table i).inum = (s.table i).inum) (hown : (s'.table i).din = dins (s.table i).inum)
    (hheld : s'.held = s.held)
    (hmem : ∃ addrs, s'.toMem = s.toMem.setDin i { (s.table i).din with addrs := addrs })
    (hlogged : ∀ b, b ∉ l → s'.view b = s.view b ∧ s'.unlogged b = s.unlogged b)
    (hclean : ∀ b ∈ l, s'.unlogged b = none) : Mapped sb i s s' l := by
  have hdins : ∀ inum, sb.HasInode inum → s'.inodes sb i inum = dins inum := by
    intro inum hin
    by_cases heq : inum = (s.table i).inum
    · have hself' := inodes_self sb s' i
      rw [hinum] at hself'
      rw [heq, hself', hown]
    · rw [inodes_of_ne (by rw [hinum]; exact heq), hg.dinode inum hin, hg.others inum heq, inodes_of_ne heq]
  refine ⟨⟨?_, ?_, ?_, (hg.accounted hgeo h.accounted).congr hdins⟩, hmem, hg.dinode, ?_, ?_, hlogged, hclean⟩
  · rw [hheld]
    exact h.held
  · rw [hinum]
    exact h.inum
  · rw [hown, hg.type_eq, inodes_self]
    exact h.type
  · intro inum halloc x hx
    rw [hdins inum halloc.1, hg.byte halloc hx]
  · intro inum place' halloc hne
    rw [hdins inum halloc.1, hg.places inum place' halloc]
    by_cases hand : inum = (s.table i).inum ∧ place' = place
    · rw [hand.1, hand.2, hg.empty] at hne
      exact absurd rfl hne
    · rw [if_neg hand]

def attach (sb : Superblock) (s : Kern P) (i : Ip) (k : Fin (NDIRECT + 1)) (b : Blockno) : Kern P :=
  (s.allot sb b).setMem (s.toMem.setDin i ((s.table i).din.setAddr k b))

def enter (sb : Superblock) (s : Kern P) (i : Ip) (j : Nat) (b : Blockno) : Kern P :=
  (s.allot sb b).put (s.table i).din.indirect (setWord (s.view (s.table i).din.indirect) j b)

theorem put_logged (s : Kern P) (data : Block) (h : b' ≠ b) :
    (s.put b data).view b' = s.view b' ∧ (s.put b data).unlogged b' = s.unlogged b' := by
  rw [view_put, update_of_ne h]
  exact ⟨rfl, update_of_ne h ..⟩

theorem put_clean (s : Kern P) (b : Blockno) (data : Block) : (s.put b data).unlogged b = none :=
  update_self ..

theorem put_keeps_clean (s : Kern P) (data : Block) (h : s.unlogged b' = none) :
    (s.put b data).unlogged b' = none := by
  by_cases heq : b' = b
  · rw [heq, put_clean]
  · rw [(put_logged s data heq).2, h]

theorem allot_logged (sb : Superblock) (s : Kern P) (b : Blockno) (h : b' ∉ [BBLOCK sb b, b]) :
    (s.allot sb b).view b' = s.view b' ∧ (s.allot sb b).unlogged b' = s.unlogged b' := by
  simp only [List.mem_cons, List.not_mem_nil, or_false, not_or] at h
  obtain ⟨hview, hunlogged⟩ := put_logged (s.put (BBLOCK sb b)
    (setBit (s.view (BBLOCK sb b)) (b.toNat % BPB))) zeroBlock h.2
  obtain ⟨hview', hunlogged'⟩ := put_logged s (setBit (s.view (BBLOCK sb b)) (b.toNat % BPB)) h.1
  exact ⟨hview.trans hview', hunlogged.trans hunlogged'⟩

theorem allot_clean (sb : Superblock) (s : Kern P) (b : Blockno) :
    ∀ b' ∈ [BBLOCK sb b, b], (s.allot sb b).unlogged b' = none := by
  intro b' hb'
  simp only [List.mem_cons, List.not_mem_nil, or_false] at hb'
  rcases hb' with rfl | rfl
  · exact put_keeps_clean _ _ (put_clean _ _ _)
  · exact put_clean _ _ _

theorem Serving.growth_attach (h : s.Serving sb i) (hgeo : Geometry sb)
    (hzero : (s.table i).din.addrs k = 0) (hdata : sb.IsData b) (hfree : s.view.used sb b = false) :
    Growth sb (s.table i).inum (.ofAddr k) b s.view (s.inodes sb i) (s.attach sb i k b).view
      (update (s.inodes sb i) (s.table i).inum ((s.table i).din.setAddr k b)) := by
  have hg := h.accounted.growth_direct hgeo h.allocated (k := k) (by rw [inodes_self]; exact hzero) hdata hfree
  rw [inodes_self] at hg
  rw [show (s.attach sb i k b).view = s.view.allot sb b from view_allot sb s b]
  exact hg

theorem attach_table (sb : Superblock) (s : Kern P) (i : Ip) (k : Fin (NDIRECT + 1)) (b : Blockno) :
    (s.attach sb i k b).table i = { s.table i with din := (s.table i).din.setAddr k b } :=
  Mem.setDin_table_self ..

theorem Serving.attach (h : s.Serving sb i) (hgeo : Geometry sb) (hzero : (s.table i).din.addrs k = 0)
    (hdata : sb.IsData b) (hfree : s.view.used sb b = false) :
    Mapped sb i s (s.attach sb i k b) [BBLOCK sb b, b] := by
  refine h.mapped_of_growth hgeo (h.growth_attach hgeo hzero hdata hfree) ?_ ?_ rfl ⟨_, rfl⟩
    (fun b' hb' => allot_logged sb s b hb') (allot_clean sb s b)
  · rw [attach_table]
  · rw [attach_table, update_self]

theorem Serving.attach_places (h : s.Serving sb i) (hgeo : Geometry sb)
    (hzero : (s.table i).din.addrs k = 0) (hdata : sb.IsData b) (hfree : s.view.used sb b = false)
    (place : Place) :
    (s.attach sb i k b).view.blockAt ((s.attach sb i k b).table i).din place =
      if place = .ofAddr k then b else s.view.blockAt (s.table i).din place := by
  have hplaces := (h.growth_attach hgeo hzero hdata hfree).places _ place h.allocated
  rw [update_self, inodes_self] at hplaces
  rw [attach_table, hplaces]
  simp only [true_and]

theorem Serving.growth_enter (h : s.Serving sb i) (hgeo : Geometry sb)
    (hind : (s.table i).din.indirect ≠ 0) (hdirect : ¬bn < NDIRECT) (hbn : bn < MAXFILE)
    (hzero : s.view.addr (s.table i).din bn = 0) (hdata : sb.IsData b)
    (hfree : s.view.used sb b = false) :
    Growth sb (s.table i).inum (.data ⟨bn, hbn⟩) b s.view (s.inodes sb i)
      (s.enter sb i (bn - NDIRECT) b).view (s.inodes sb i) := by
  have hg := h.accounted.growth_entry hgeo h.allocated (by rw [inodes_self]; exact hind) hdirect hbn
    (by rw [inodes_self]; exact hzero) hdata hfree
  rw [inodes_self] at hg
  rw [Kern.enter, view_put, view_allot]
  exact hg

theorem Serving.enter (h : s.Serving sb i) (hgeo : Geometry sb) (hind : (s.table i).din.indirect ≠ 0)
    (hdirect : ¬bn < NDIRECT) (hbn : bn < MAXFILE) (hzero : s.view.addr (s.table i).din bn = 0)
    (hdata : sb.IsData b) (hfree : s.view.used sb b = false) :
    Mapped sb i s (s.enter sb i (bn - NDIRECT) b) [BBLOCK sb b, b, (s.table i).din.indirect] := by
  refine h.mapped_of_growth hgeo (h.growth_enter hgeo hind hdirect hbn hzero hdata hfree) rfl
    (inodes_self sb s i).symm rfl ⟨(s.table i).din.addrs, (Mem.setDin_self _ _).symm⟩ ?_ ?_
  · intro b' hb'
    simp only [List.mem_cons, List.not_mem_nil, or_false, not_or] at hb'
    have hnot : b' ∉ [BBLOCK sb b, b] := by simpa using ⟨hb'.1, hb'.2.1⟩
    obtain ⟨hview', hunlogged'⟩ := allot_logged sb s b hnot
    obtain ⟨hview'', hunlogged''⟩ := put_logged (s.allot sb b)
      (setWord (s.view (s.table i).din.indirect) (bn - NDIRECT) b) hb'.2.2
    exact ⟨hview''.trans hview', hunlogged''.trans hunlogged'⟩
  · intro b' hb'
    by_cases heq : b' = (s.table i).din.indirect
    · rw [heq]
      exact put_clean _ _ _
    · apply put_keeps_clean
      apply allot_clean
      simp only [List.mem_cons, List.not_mem_nil, or_false] at hb' ⊢
      rcases hb' with hb' | hb' | hb'
      · exact .inl hb'
      · exact .inr hb'
      · exact absurd hb' heq

theorem Serving.enter_places (h : s.Serving sb i) (hgeo : Geometry sb)
    (hind : (s.table i).din.indirect ≠ 0) (hdirect : ¬bn < NDIRECT) (hbn : bn < MAXFILE)
    (hzero : s.view.addr (s.table i).din bn = 0) (hdata : sb.IsData b)
    (hfree : s.view.used sb b = false) (place : Place) :
    (s.enter sb i (bn - NDIRECT) b).view.blockAt (s.table i).din place =
      if place = .data ⟨bn, hbn⟩ then b else s.view.blockAt (s.table i).din place := by
  have hplaces := (h.growth_enter hgeo hind hdirect hbn hzero hdata hfree).places _ place h.allocated
  rw [inodes_self] at hplaces
  rw [hplaces]
  simp only [true_and]

end Inodes

end Kern

end Xv6Ringbuf.Fs
