import Xv6Ringbuf.Fs.Spilled

namespace Xv6Ringbuf.Fs

open Interleave Handler Machine

namespace Disk

theorem getElem?_contents (d : Disk) (din : Dinode) {x : Nat} (h : x < din.size.toNat) :
    (d.contents din)[x]? = some (d.byte din x) := by
  rw [contents, List.getElem?_map, List.getElem?_range h]
  rfl

end Disk

-- A call of `writei` that returns `r` has left the bytes of the file outside of the `r`
-- bytes at `off` as they were, for every later read, and has logged all that it changed.
def LeavesRest {P : Type} [DecidableEq P] (p : P) (sb : Superblock) (i : Ip) (src : Fsys.Src) (off n : UInt32)
    (s : Kern P) : Prop :=
  ∃ r s' l, (interp (noting (fun a s => s.handle p a) Sys.logs) .hang (Fsys.writei sb i src off n)).run
      (s, []) = .ok (r, (s', l)) ∧
    (∀ (start len : UInt32), start.toNat + len.toNat < 2 ^ 32 →
      ∃ bytes bytes' : List UInt8,
        (Kern.run p (Fsys.readi sb i Fsys.kernelDst start len)).run s = .ok (((bytes.length : Nat), bytes), s) ∧
        (Kern.run p (Fsys.readi sb i Fsys.kernelDst start len)).run s' =
          .ok (((bytes'.length : Nat), bytes'), s') ∧
        ∀ x, start.toNat ≤ x → x < (s.table i).din.size.toNat →
          ¬(off.toNat ≤ x ∧ (x : Int) < off.toNat + r) → bytes'[x - start.toNat]? = bytes[x - start.toNat]?) ∧
    ∀ b, s'.view b ≠ s.view b → b ∈ l

namespace Kern

variable {P : Type} [DecidableEq P] {p : P} {sb : Superblock} {s s' : Kern P} {i : Ip}

theorem leavesRest_iff {src : Fsys.Src} {off n : UInt32} {r : Int} {l : List Blockno}
    (hrun : (interp (noting (fun a s => s.handle p a) Sys.logs) .hang (Fsys.writei sb i src off n)).run
      (s, []) = .ok (r, (s', l)))
    (hheld : ∀ b, s.held b = none) (hfilled : Filled s.view (s.table i).din)
    (hheld' : ∀ b, s'.held b = none) (hfilled' : Filled s'.view (s'.table i).din)
    (hsize : (s.table i).din.size.toNat ≤ (s'.table i).din.size.toNat) :
    LeavesRest p sb i src off n s ↔
      Spared i off.toNat r s s' l := by
  have hword := (s.table i).din.size.toNat_lt
  have hdst : ∀ (len : UInt32) tot m, tot + m ≤ len.toNat → Fsys.kernelDst tot m = true := fun _ _ _ _ => rfl
  constructor
  · rintro ⟨r', s'', l', hrun', hreads, hlogged⟩
    rw [hrun, Except.ok.injEq, Prod.mk.injEq, Prod.mk.injEq] at hrun'
    obtain ⟨rfl, rfl, rfl⟩ := hrun'
    refine ⟨fun x hx hout => ?_, hlogged⟩
    have hbounded := hfilled.bounded
    have hmax : MAXFILE * BSIZE = 274432 := rfl
    have hx' : (UInt32.ofNat x).toNat = x := UInt32.toNat_ofNat_of_lt' (Nat.lt_trans hx hword)
    have hwrap : (UInt32.ofNat x).toNat + (1 : UInt32).toNat < 2 ^ 32 := by
      rw [hx', show (1 : UInt32).toNat = 1 from rfl]
      omega
    obtain ⟨bytes, bytes', hread, hread', hsame⟩ := hreads (UInt32.ofNat x) 1 hwrap
    obtain ⟨_, hread₁, rfl⟩ := readi_returns (p := p) hheld hfilled (hdst 1) hwrap
    obtain ⟨_, hread₂, rfl⟩ := readi_returns (p := p) hheld' hfilled' (hdst 1) hwrap
    rw [hread₁, Except.ok.injEq, Prod.mk.injEq, Prod.mk.injEq] at hread
    rw [hread₂, Except.ok.injEq, Prod.mk.injEq, Prod.mk.injEq] at hread'
    have hat := hsame x (Nat.le_of_eq hx') hx hout
    rw [← hread.1.2, ← hread'.1.2, hx', Nat.sub_self, List.getElem?_take_of_lt (by decide),
      List.getElem?_take_of_lt (by decide), List.getElem?_drop, List.getElem?_drop, Nat.add_zero,
      Disk.getElem?_contents _ _ hx, Disk.getElem?_contents _ _ (by omega), Option.some.injEq] at hat
    exact hat
  · rintro ⟨hbytes, hlogged⟩
    refine ⟨r, s', l, hrun, fun start len hwrap => ?_, hlogged⟩
    obtain ⟨bytes, hread, rfl⟩ := readi_returns (p := p) hheld hfilled (hdst len) hwrap
    obtain ⟨bytes', hread', rfl⟩ := readi_returns (p := p) hheld' hfilled' (hdst len) hwrap
    refine ⟨_, _, hread, hread', fun x hstart hx hout => ?_⟩
    by_cases hlen : x - start.toNat < len.toNat
    · rw [List.getElem?_take_of_lt hlen, List.getElem?_take_of_lt hlen, List.getElem?_drop,
        List.getElem?_drop, Nat.add_sub_of_le hstart, Disk.getElem?_contents _ _ hx,
        Disk.getElem?_contents _ _ (by omega), hbytes x hx hout]
    · have hshort : ∀ (bytes : List UInt8), (bytes.take len.toNat)[x - start.toNat]? = none := by
        intro bytes
        apply List.getElem?_eq_none
        rw [List.length_take]
        omega
      rw [hshort, hshort]

end Kern

-- `either_copyin` may fail after it has written a part of the buffer. `writei` then does
-- not log the buffer, but the bytes stay in the cache: only `Harmless` ones do not show.
theorem writei_leaves_rest_iff {P : Type} [DecidableEq P] [Kernel.Image] (p : P) {sb : Superblock}
    (hgeo : Geometry sb) {s : Kern P} {i : Ip} (hserving : s.Serving sb i)
    (hfilled : Filled s.view (s.table i).din) {u : Kernel.State} (hpages : Kernel.UserPages u.pagetable)
    (addr : UInt64) (off n : UInt32) :
    LeavesRest p sb i (Fsys.userSrc u addr) off n s ↔
      (off ≤ (s.table i).din.size → off.toNat + n.toNat ≤ MAXFILE * BSIZE →
        Harmless sb s i u addr off.toNat n.toNat) := by
  by_cases hgood : off ≤ (s.table i).din.size ∧ off.toNat + n.toNat ≤ MAXFILE * BSIZE
  · obtain ⟨hoff, hmax⟩ := hgood
    have hgives := Fsys.userSrc_gives hpages addr n.toNat
    have hwrite : s.Logs p (Fsys.writei sb i (Fsys.userSrc u addr) off n) _ fun _ => False :=
      hserving.writei hgeo hgives hoff hmax
    obtain ⟨r, ⟨s', l⟩, hrun, t, s₁, s₂, l', rfl, hpost, rfl, rfl⟩ := hwrite.returns
    have hbuf : n.toNat ≤ (Fsys.userBytes u addr n.toNat).length := hgives.length
    have hhigh := hpost.high
    have hends := hpost.ends
    rw [Nat.sub_zero] at hends
    obtain ⟨rest, hrest, hblocks⟩ := hends.rest hpost.written.serving hgeo (by omega)
    have hoff' := UInt32.le_iff_toNat_le.mp hoff
    have hbounded := hfilled.bounded
    have hsize := (hpost.stored hgeo hbuf hrest).size_eq (by omega)
    rw [Kern.leavesRest_iff hrun hserving.held hfilled (hrest.serving.settle hgeo _).held
      (hpost.filled hserving hgeo hbuf hfilled hoff' hmax hrest hblocks) (by rw [hsize]; omega),
      hpost.harmless_iff hpages hserving hgeo hfilled hmax]
    exact ⟨fun hharm _ _ => hharm, fun hharm => hharm hoff hmax⟩
  · have hwrite : s.Logs p (Fsys.writei sb i (Fsys.userSrc u addr) off n) _ fun _ => False :=
      Kern.Serving.writei_refused hgood
    obtain ⟨r, ⟨s', l⟩, hrun, rfl, rfl, rfl⟩ := hwrite.returns
    refine iff_of_true ?_ fun hoff hmax => absurd ⟨hoff, hmax⟩ hgood
    exact (Kern.leavesRest_iff hrun hserving.held hfilled hserving.held hfilled (Nat.le_refl _)).mpr
      ⟨fun _ _ _ => rfl, fun _ hdiff => absurd rfl hdiff⟩

theorem writei_leaves_rest_empty : LeavesRest () smallSb 0 (Fsys.userSrc Kernel.oneUserPage 4094) 0 4 emptyFile := by
  refine (@writei_leaves_rest_iff _ _ Kernel.smallImage () smallSb smallSb_geometry emptyFile 0
    emptyFile_serving ⟨by decide, fun bn hbn => absurd hbn (Nat.not_lt_zero _)⟩ _ Kernel.oneUserPage_pages
    4094 0 4).mpr ?_
  -- The file has no block.
  intro _ _ gap hgap _ _ haddr
  have hgap : gap < 4 := hgap
  have hzero : (UInt32.toNat 0 + gap) / BSIZE = 0 :=
    Nat.div_eq_of_lt (by rw [UInt32.toNat_zero, show BSIZE = 1024 from rfl]; omega)
  rw [hzero] at haddr
  exact absurd rfl haddr

def zeroFile : Kern Unit :=
  { emptyFile with
    table := Function.update Table.empty 0 ⟨ROOTDEV, 1, 1, true,
      { Dinode.zero with type := T_FILE, nlink := 1, size := 1024, addrs := fun k => if k.val = 0 then 4 else 0 }⟩
    disk := fun b => if b = 3 then fun off => if off.val = 0 then 31 else 0 else zeroBlock }

theorem zeroFile_addr (bn : Nat) : zeroFile.view.addr (zeroFile.table 0).din bn = if bn = 0 then 4 else 0 := by
  rw [Disk.addr]
  by_cases hdirect : bn < NDIRECT
  · rw [dif_pos hdirect]
    rfl
  · have hind : (zeroFile.table 0).din.indirect = 0 := rfl
    rw [dif_neg hdirect, if_pos hind, if_neg (by rintro rfl; exact hdirect (by decide))]

theorem zeroFile_filled : Filled zeroFile.view (zeroFile.table 0).din := by
  refine ⟨by decide, fun bn hbn => ?_⟩
  have hbn : bn * 1024 < 1024 := hbn
  rw [zeroFile_addr, if_pos (by omega)]
  decide

theorem zeroFile_serving : zeroFile.Serving smallSb 0 := by
  have hplace : ∀ inum place, Allocated smallSb (zeroFile.inodes smallSb 0) inum →
      zeroFile.view.blockAt (zeroFile.inodes smallSb 0 inum) place ≠ 0 →
        inum = 1 ∧ place = .data ⟨0, by decide⟩ ∧
          zeroFile.view.blockAt (zeroFile.inodes smallSb 0 inum) place = 4 := by
    intro inum place halloc hne
    obtain rfl : inum = 1 := eq_of_allocated (s := zeroFile) (fun b hb => if_neg hb) halloc
    cases place with
    | indirect => exact absurd rfl hne
    | data bn =>
      have haddr := zeroFile_addr bn.val
      have hne : zeroFile.view.addr (zeroFile.table 0).din bn.val ≠ 0 := hne
      by_cases hbn : bn.val = 0
      · rw [if_pos hbn] at haddr
        exact ⟨rfl, congrArg Place.data (Fin.ext hbn), haddr⟩
      · rw [if_neg hbn] at haddr
        exact absurd haddr hne
  have hused : ∀ b : Blockno, b.toNat < 5 → zeroFile.view.used smallSb b = true := by
    intro b hb
    have hblock : BBLOCK smallSb b = 3 := by
      apply UInt32.toNat_inj.mp
      rw [toNat_BBLOCK smallSb_geometry (show b.toNat < 12 by omega), show BPB = 8192 from rfl]
      show b.toNat / 8192 + 3 = 3
      omega
    have hbits : ∀ n < 5, getBit (zeroFile.view 3) (n % BPB) = true := by decide
    rw [Disk.used, hblock]
    exact hbits _ hb
  refine ⟨fun _ => rfl, by decide, by decide, ?_, ?_, ?_⟩
  · intro b hb
    have hb : b.toNat < 4 := hb
    exact hused b (by omega)
  · intro inum place halloc hne
    rw [(hplace inum place halloc hne).2.2]
    exact ⟨by decide, hused 4 (by decide)⟩
  · intro inum inum' place place' halloc halloc' hne heq
    obtain ⟨hinum, hplace₁, _⟩ := hplace inum place halloc hne
    obtain ⟨hinum', hplace₂, _⟩ := hplace inum' place' halloc' (by rw [← heq]; exact hne)
    exact ⟨hinum.trans hinum'.symm, hplace₁.trans hplace₂.symm⟩

def sevens : Kernel.State := { Kernel.oneUserPage with mem := fun _ => 7 }

-- Two bytes can be copied before the page ends. The call returns 0, and they are in the
-- buffer of block 4, which is not logged.
theorem writei_end_of_page_spoils : zeroFile.Serving smallSb 0 ∧
    Filled zeroFile.view (zeroFile.table 0).din ∧ @Kernel.UserPages Kernel.smallImage sevens.pagetable ∧
    ¬LeavesRest () smallSb 0 (Fsys.userSrc sevens 4094) 0 4 zeroFile := by
  refine ⟨zeroFile_serving, zeroFile_filled, Kernel.oneUserPage_pages, ?_⟩
  rintro ⟨r, s', l, hrun, _, hlogged⟩
  have hout : ((interp (noting (fun a (s : Kern Unit) => s.handle () a) Sys.logs) .hang
      (Fsys.writei smallSb 0 (Fsys.userSrc sevens 4094) 0 4)).run (zeroFile, [])).map
        (fun out => (dataAt (out.2.1.view 4) 0, out.2.2.elem 4)) = .ok (7, false) := by decide +kernel
  rw [hrun] at hout
  have hpair : (dataAt (s'.view 4) 0, l.elem 4) = (7, false) := Except.ok.inj hout
  rw [Prod.mk.injEq] at hpair
  have hmem := hlogged 4 fun hsame => by
    rw [hsame] at hpair
    exact absurd hpair.1 (by decide)
  rw [← List.elem_iff, hpair.2] at hmem
  cases hmem

end Xv6Ringbuf.Fs
