import Xv6Ringbuf.Fs.WriteiSpec
import Xv6Ringbuf.Kernel.UserCopy
import Xv6Ringbuf.Kernel.UserCopySpec

namespace Xv6Ringbuf.Fs.Fsys

open Kernel Machine

-- `either_copyin` from the memory of a process.
def userSrc (u : State) (addr : UInt64) : Src := fun tot m =>
  match (copyin (addr + UInt64.ofNat tot) m).run u with
  | .ok ((bytes, r), _) => (bytes, decide (r = 0))
  | .error _ => ([], false)

def userBytes (u : State) (addr : UInt64) (n : Nat) : List UInt8 :=
  (List.range n).map fun k => u.pagetable.getByte u.mem (addr + UInt64.ofNat k).toNat

theorem userBytes_length (u : State) (addr : UInt64) (n : Nat) : (userBytes u addr n).length = n := by
  rw [userBytes, List.length_map, List.length_range]

variable {tot m k : Nat} {addr : UInt64} {u : State}

theorem userBytes_piece (u : State) (addr : UInt64) {n : Nat} (h : tot + m ≤ n) :
    ((userBytes u addr n).drop tot).take m =
      (List.range m).map fun k => u.pagetable.getByte u.mem (addr + UInt64.ofNat (tot + k)).toNat := by
  apply List.ext_getElem
  · rw [List.length_take, List.length_drop, userBytes_length, List.length_map, List.length_range]
    omega
  · intro k _ _
    simp [userBytes]

theorem toNat_bufferAddr (h : (addr + UInt64.ofNat tot).toNat + k < 2 ^ 64) :
    (addr + UInt64.ofNat (tot + k)).toNat = (addr + UInt64.ofNat tot).toNat + k := by
  rw [show addr + UInt64.ofNat (tot + k) = addr + UInt64.ofNat tot + UInt64.ofNat k by
    rw [UInt64.add_assoc, UInt64.ofNat_add], UInt64.toNat_add _ (UInt64.ofNat k), UInt64.toNat_ofNat']
  omega

def Readable (u : State) (addr : UInt64) (k : Nat) : Prop :=
  u.pagetable.user ((addr + UInt64.ofNat k).toNat / 4096) ≠ none

theorem readable_of_accessible (h : Accessible u.pagetable (addr + UInt64.ofNat tot).toNat m)
    (hk : k < m) :
    (addr + UInt64.ofNat (tot + k)).toNat = (addr + UInt64.ofNat tot).toNat + k ∧
      Readable u addr (tot + k) := by
  have hpage := lt_of_user (h k hk)
  have haddr : (addr + UInt64.ofNat (tot + k)).toNat = (addr + UInt64.ofNat tot).toNat + k :=
    toNat_bufferAddr (by omega)
  refine ⟨haddr, ?_⟩
  rw [Readable, haddr]
  exact h k hk

-- The first byte of the buffer that cannot be read.
structure FirstGap (u : State) (addr : UInt64) (gap : Nat) : Prop where
  before : ∀ k < gap, Readable u addr k
  unreadable : ¬Readable u addr gap

theorem FirstGap.unique {gap gap' : Nat} (h : FirstGap u addr gap) (h' : FirstGap u addr gap') :
    gap = gap' := by
  rcases Nat.lt_trichotomy gap gap' with hlt | heq | hgt
  · exact absurd (h'.before gap hlt) h.unreadable
  · exact heq
  · exact absurd (h.before gap' hgt) h'.unreadable

theorem getBytes_userBytes (h : Accessible u.pagetable (addr + UInt64.ofNat tot).toNat m) :
    u.pagetable.getBytes u.mem (addr + UInt64.ofNat tot).toNat m =
      (List.range m).map fun k => u.pagetable.getByte u.mem (addr + UInt64.ofNat (tot + k)).toNat := by
  apply List.map_congr_left
  intro k hk
  rw [(readable_of_accessible h (List.mem_range.mp hk)).1]

section Copyin

variable [Image] {u : State}

theorem userSrc_copied (hpages : UserPages u.pagetable) (addr : UInt64) (tot m : Nat) :
    ∃ k r, CopiedIn u.pagetable u.mem (addr + UInt64.ofNat tot).toNat m k (userSrc u addr tot m).1 r ∧
      (userSrc u addr tot m).2 = decide (r = 0) := by
  have hcopy := copyinLoop_wp (m + 1) (addr + UInt64.ofNat tot) m (Nat.lt_succ_self m) u hpages
  obtain ⟨⟨bytes, r⟩, u', hrun, _, k, hcopied⟩ := hcopy.returns
  have hsrc : userSrc u addr tot m = (bytes, decide (r = 0)) := by
    unfold userSrc copyin
    rw [hrun]
  rw [hsrc]
  exact ⟨k, r, hcopied, rfl⟩

theorem userSrc_eq (hpages : UserPages u.pagetable) (addr : UInt64) (tot m : Nat) :
    ((userSrc u addr tot m).2 = true ↔ Accessible u.pagetable (addr + UInt64.ofNat tot).toNat m) ∧
      ((userSrc u addr tot m).2 = true →
        (userSrc u addr tot m).1 = u.pagetable.getBytes u.mem (addr + UInt64.ofNat tot).toNat m) := by
  obtain ⟨k, r, hcopied, hr⟩ := userSrc_copied hpages addr tot m
  rw [hr, decide_eq_true_iff]
  refine ⟨hcopied.accessible_iff, fun hzero => ?_⟩
  rw [hcopied.bytes, hcopied.zero_iff.mp hzero]

theorem userSrc_gives (hpages : UserPages u.pagetable) (addr : UInt64) (n : Nat) :
    Gives (userSrc u addr) (userBytes u addr n) n := by
  refine ⟨Nat.le_of_eq (userBytes_length u addr n).symm, ?_⟩
  intro tot m hle hok
  obtain ⟨haccess, hbytes⟩ := userSrc_eq hpages addr tot m
  rw [hbytes hok, userBytes_piece u addr hle]
  exact getBytes_userBytes (haccess.mp hok)

theorem userSrc_failed (hpages : UserPages u.pagetable) (addr : UInt64) {n tot m : Nat} (hle : tot + m ≤ n)
    (hbefore : ∀ k < tot, Readable u addr k) (hfail : (userSrc u addr tot m).2 = false) :
    ∃ k, k < m ∧ (userSrc u addr tot m).1 = ((userBytes u addr n).drop tot).take k ∧
      FirstGap u addr (tot + k) := by
  obtain ⟨k, r, hcopied, hr⟩ := userSrc_copied hpages addr tot m
  have hlt : k < m := by
    refine Nat.lt_of_le_of_ne hcopied.le fun heq => ?_
    rw [hr, decide_eq_false_iff_not, hcopied.zero_iff] at hfail
    exact hfail heq
  refine ⟨k, hlt, ?_, ?_, ?_⟩
  · rw [hcopied.bytes, userBytes_piece u addr (by omega)]
    exact getBytes_userBytes hcopied.access
  · intro j hj
    by_cases hbelow : j < tot
    · exact hbefore j hbelow
    · have hread := readable_of_accessible hcopied.access (show j - tot < k by omega)
      rw [Nat.add_sub_of_le (Nat.le_of_not_lt hbelow)] at hread
      exact hread.2
  · -- The byte before is below `MAXVA`.
    have hnowrap : (addr + UInt64.ofNat tot).toNat + k < 2 ^ 64 := by
      have hword := (addr + UInt64.ofNat tot).toNat_lt
      by_cases hzero : k = 0
      · omega
      · have hpage := lt_of_user (hcopied.access (k - 1) (by omega))
        omega
    rw [Readable, toNat_bufferAddr hnowrap]
    exact fun hread => hread (hcopied.stop hlt)

end Copyin

end Xv6Ringbuf.Fs.Fsys

namespace Xv6Ringbuf.Fs

open Interleave Handler Machine

namespace Disk

theorem missing_le (d : Disk) (din : Dinode) (a c : Nat) : d.missing din a c ≤ c - a + 1 := by
  have hcount := List.countP_le_length (p := fun bn => decide (d.addr din bn = 0))
    (l := List.range' a (c - a))
  rw [List.length_range'] at hcount
  have hind : (if din.indirect = 0 ∧ a < c ∧ NDIRECT < c then 1 else 0) ≤ 1 := by
    split
    · exact Nat.le_refl 1
    · exact Nat.zero_le 1
  rw [missing]
  omega

theorem missing_le_of_there {d : Disk} {din : Dinode} {a c : Nat} (hlt : a < c) (h : d.addr din a ≠ 0) :
    d.missing din a c ≤ c - a := by
  have hind : ¬a < NDIRECT → din.indirect ≠ 0 := by
    intro hdirect hzero
    rw [addr, dif_neg hdirect, if_pos hzero] at h
    exact h rfl
  have hrest := missing_le d din (a + 1) c
  rw [missing_step hlt (fun _ _ _ => rfl) (fun _ => rfl) hind, missing_there h]
  omega

end Disk

namespace Kern

variable {P : Type} {sb : Superblock} {s : Kern P} {i : Ip}

theorem toLog_le (hfilled : ∀ bn, bn * BSIZE < (s.table i).din.size.toNat →
    s.view.addr (s.table i).din bn ≠ 0) {n off : Nat} (hoff : off ≤ (s.table i).din.size.toNat)
    (hn : n ≤ Fsys.maxWrite) : s.toLog i n 0 off ≤ 8 := by
  have hbsize : BSIZE = 1024 := rfl
  have hmaxWrite : Fsys.maxWrite = 3072 := rfl
  unfold toLog
  by_cases hpos : 0 < n
  · rw [if_pos hpos, Nat.sub_zero, hbsize]
    have hcount := s.view.missing_le (s.table i).din (off / 1024) ((off + n + 1024 - 1) / 1024)
    by_cases haligned : off % 1024 = 0
    · omega
    · have hthere := hfilled (off / 1024) (by rw [hbsize]; omega)
      have hcount' := Disk.missing_le_of_there (c := (off + n + 1024 - 1) / 1024) (by omega) hthere
      omega
  · rw [if_neg hpos]
    exact Nat.zero_le 8

end Kern

-- `maxWrite` is what `filewrite` passes at most. The blocks are counted once each, as
-- `log_write` absorbs a block that is in the log already.
theorem writei_fits_one_operation {P : Type} [DecidableEq P] [Kernel.Image] (p : P) {sb : Superblock}
    (hgeo : Geometry sb) {s : Kern P} {i : Ip} (hserving : s.Serving sb i)
    (hfilled : ∀ bn, bn * BSIZE < (s.table i).din.size.toNat → s.view.addr (s.table i).din bn ≠ 0)
    {u : Kernel.State} (hpages : Kernel.UserPages u.pagetable) (addr : UInt64) {off n : UInt32}
    (hoff : off ≤ (s.table i).din.size) (hn : n.toNat ≤ Fsys.maxWrite)
    (hmax : off.toNat + n.toNat ≤ MAXFILE * BSIZE) :
    ∃ r s' l, (interp (noting (fun a s => s.handle p a) Sys.logs) .hang
        (Fsys.writei sb i (Fsys.userSrc u addr) off n)).run (s, []) = .ok (r, (s', l)) ∧
      l.dedup.length ≤ MAXOPBLOCKS := by
  have hgives := Fsys.userSrc_gives hpages addr n.toNat
  have hwrite : s.Logs p (Fsys.writei sb i (Fsys.userSrc u addr) off n) _ fun _ => False :=
    hserving.writei hgeo hgives hoff hmax
  obtain ⟨r, ⟨s', l⟩, hrun, t, s₁, s₂, l', _, hpost, _, hl⟩ := hwrite.returns
  refine ⟨r, s', l, hrun, ?_⟩
  obtain ⟨cover, hcover, hsize⟩ := hpost.log
  have hlog := Kern.toLog_le hfilled (UInt32.le_iff_toNat_le.mp hoff) hn
  have hsub : l.toFinset ⊆ (cover ++ [(s₁.table i).din.indirect, IBLOCK sb (s.table i).inum]).toFinset := by
    intro b hb
    rw [List.mem_toFinset] at hb ⊢
    rw [show l = l' ++ [IBLOCK sb (s.table i).inum] from hl, List.mem_append, List.mem_singleton] at hb
    rw [List.mem_append]
    rcases hb with hb | rfl
    · rcases hcover b hb with hmem | ⟨rfl, _⟩
      · exact .inl hmem
      · exact .inr List.mem_cons_self
    · exact .inr (List.mem_cons_of_mem _ List.mem_cons_self)
  have hcard := (Finset.card_le_card hsub).trans (List.toFinset_card_le _)
  rw [List.card_toFinset, List.length_append] at hcard
  have hmaxop : MAXOPBLOCKS = 10 := rfl
  simp only [List.length_cons, List.length_nil] at hcard
  omega

def smallSb : Superblock := ⟨FSMAGIC, 12, 8, 16, 0, 2, 2, 3⟩

def smallDisk : Disk := fun b => if b = 3 then fun off => if off.val = 0 then 15 else 0 else zeroBlock

def emptyFile : Kern Unit where
  table := Function.update Table.empty 0 ⟨ROOTDEV, 1, 1, true, { Dinode.zero with type := T_FILE, nlink := 1 }⟩
  locked _ := true
  ftable _ := ⟨.FD_NONE, 0, false, false, 0, 0, 0⟩
  procs _ := none
  disk := smallDisk
  unlogged _ := none
  held _ := none

theorem smallSb_geometry : Geometry smallSb := ⟨by decide, by decide⟩

theorem smallDisk_used {b : Blockno} (h : b.toNat < 12) :
    smallDisk.used smallSb b = decide (b.toNat < 4) := by
  have hblock : BBLOCK smallSb b = 3 := by
    apply UInt32.toNat_inj.mp
    rw [toNat_BBLOCK smallSb_geometry h, show BPB = 8192 from rfl]
    show b.toNat / 8192 + 3 = 3
    omega
  rw [Disk.used, hblock]
  have hbits : ∀ n < 12, getBit (smallDisk 3) (n % BPB) = decide (n < 4) := by decide
  exact hbits _ h

theorem eq_of_allocated {s : Kern Unit} (hblank : ∀ b, b ≠ 3 → s.view b = zeroBlock) {inum : UInt32}
    (h : Allocated smallSb (s.inodes smallSb 0) inum) : inum = (s.table 0).inum := by
  obtain ⟨hinum, htype⟩ := h
  by_contra hne
  have hblock : IBLOCK smallSb inum ≠ 3 := by
    intro heq
    have hlt := IBLOCK_lt smallSb_geometry hinum
    rw [heq] at hlt
    exact absurd hlt (by decide)
  apply htype
  rw [Kern.inodes_of_ne hne, Disk.dinode, hblank _ hblock, getDinode, getWord_zeroBlock]
  rfl

theorem emptyFile_serving : emptyFile.Serving smallSb 0 := by
  have hnone : ∀ inum place, Allocated smallSb (emptyFile.inodes smallSb 0) inum →
      emptyFile.view.blockAt (emptyFile.inodes smallSb 0 inum) place = 0 := by
    intro inum place halloc
    rw [show inum = 1 from eq_of_allocated (s := emptyFile) (fun b hb => if_neg hb) halloc]
    cases place with
    | indirect => rfl
    | data bn =>
      show Disk.addr _ _ _ = 0
      unfold Disk.addr
      split
      · rfl
      · rfl
  refine ⟨fun _ => rfl, by decide, by decide, ?_, ?_, ?_⟩
  · intro b hb
    have hlt : b.toNat < 4 := hb
    have hused := smallDisk_used (b := b) (by omega)
    rw [decide_eq_true hlt] at hused
    exact hused
  · intro inum place halloc hne
    exact absurd (hnone inum place halloc) hne
  · intro inum inum' place place' halloc _ hne
    exact absurd (hnone inum place halloc) hne

theorem writei_fits_one_operation_empty : ∃ r s' l,
    (interp (noting (fun a (s : Kern Unit) => s.handle () a) Sys.logs) .hang
      (Fsys.writei smallSb 0 (Fsys.userSrc Kernel.oneUserPage 0) 0 3072)).run (emptyFile, []) =
        .ok (r, (s', l)) ∧ l.dedup.length ≤ MAXOPBLOCKS :=
  @writei_fits_one_operation _ _ Kernel.smallImage () smallSb smallSb_geometry emptyFile 0
    emptyFile_serving (fun bn h => absurd h (Nat.not_lt_zero _)) _ Kernel.oneUserPage_pages 0 0 3072
    (by decide) (by decide) (by decide)

end Xv6Ringbuf.Fs
