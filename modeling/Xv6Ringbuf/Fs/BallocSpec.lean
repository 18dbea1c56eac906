import Xv6Ringbuf.Fs.Code
import Xv6Ringbuf.Fs.Extent
import Xv6Ringbuf.Fs.KernRules

namespace Xv6Ringbuf.Fs

open Interleave Handler Function

variable {sb : Superblock} {data : Block} {b rounds bi₀ bi : Nat}

theorem freeBit_some (h : Fsys.freeBit sb data b rounds bi₀ = some bi) :
    bi < bi₀ + rounds ∧ b + bi < sb.size.toNat ∧ getBit data bi = false := by
  induction rounds generalizing bi₀ with
  | zero => cases h
  | succ rounds ih =>
    rw [Fsys.freeBit] at h
    by_cases hsize : b + bi₀ < sb.size.toNat
    · rw [if_pos hsize] at h
      by_cases hbit : getBit data bi₀ = true
      · rw [if_pos hbit] at h
        obtain ⟨hlt, hrest⟩ := ih h
        exact ⟨by omega, hrest⟩
      · rw [if_neg hbit] at h
        obtain rfl := Option.some.inj h
        exact ⟨by omega, hsize, eq_false_of_ne_true hbit⟩
    · rw [if_neg hsize] at h
      cases h

theorem freeBit_none (h : Fsys.freeBit sb data b rounds bi₀ = none) (hge : bi₀ ≤ bi)
    (hlt : bi < bi₀ + rounds) (hsize : b + bi < sb.size.toNat) : getBit data bi = true := by
  induction rounds generalizing bi₀ with
  | zero => omega
  | succ rounds ih =>
    rw [Fsys.freeBit, if_pos (by omega)] at h
    by_cases hbit : getBit data bi₀ = true
    · rw [if_pos hbit] at h
      by_cases heq : bi = bi₀
      · rw [heq]
        exact hbit
      · exact ih h (by omega) (by omega)
    · rw [if_neg hbit] at h
      cases h

namespace Kern

variable {P : Type} {s : Kern P}

def allot (sb : Superblock) (s : Kern P) (b : Blockno) : Kern P :=
  (s.put (BBLOCK sb b) (setBit (s.view (BBLOCK sb b)) (b.toNat % BPB))).put b zeroBlock

@[simp] theorem view_allot (sb : Superblock) (s : Kern P) (b : Blockno) :
    (s.allot sb b).view = s.view.allot sb b := by
  rw [allot, view_put, view_put, Disk.allot, Disk.markUsed]

theorem put_take {b b' : Blockno} (h : b ≠ b') (data : Block) :
    (s.take b').put b data = (s.put b data).take b' := by
  have hview : (s.put b data).view b' = s.view b' := by
    rw [view_put, update_of_ne h.symm]
  simp only [take, hview]
  rfl

theorem allot_take {sb : Superblock} {b b' : Blockno} (hbitmap : BBLOCK sb b ≠ b') (h : b ≠ b') :
    (s.take b').allot sb b = (s.allot sb b).take b' := by
  rw [allot, put_take hbitmap, put_take h, view_take, allot]

def HoldsData (sb : Superblock) (s : Kern P) : Prop :=
  ∀ b, s.held b ≠ none → sb.IsData b ∧ s.view.used sb b = true

theorem holdsData_of_none {sb : Superblock} (h : ∀ b, s.held b = none) : s.HoldsData sb :=
  fun b hb => absurd (h b) hb

theorem HoldsData.take {sb : Superblock} (h : s.HoldsData sb) {b : Blockno} (hdata : sb.IsData b)
    (hused : s.view.used sb b = true) : (s.take b).HoldsData sb := by
  intro b' hb'
  by_cases heq : b' = b
  · rw [heq]
    exact ⟨hdata, hused⟩
  · refine h b' fun hnone => hb' ?_
    exact (update_of_ne heq ..).trans hnone

variable [DecidableEq P] {p : P} {α : Type} {Q : α → Kern P → List Blockno → Prop} {E : Stop → Prop}

theorem logs_bzero {b : Blockno} {next : Unit → Fsys α} (hfree : s.held b = none)
    (h : Logs p (next ()) (s.put b zeroBlock) (fun value s' l => Q value s' (b :: l)) E) :
    Logs p (Fsys.bzero b >>= next) s Q E := by
  have hspec : Logs p (Fsys.bzero b) s (fun _ s' l => s' = s.put b zeroBlock ∧ l = [b]) E := by
    rw [Fsys.bzero]
    apply logs_bread hfree
    exact logs_log hfree (logs_pure ⟨rfl, rfl⟩)
  refine Notes.bind hspec ?_
  rintro _ _ _ ⟨rfl, rfl⟩
  exact h

section Balloc

variable {sb : Superblock} (hgeo : Geometry sb) (hheld : s.HoldsData sb)

include hgeo hheld

omit [DecidableEq P] in
theorem HoldsData.bitmap_free {b : Blockno} (h : b.toNat < sb.size.toNat) :
    s.held (BBLOCK sb b) = none := by
  by_contra hne
  exact BBLOCK_ne_data hgeo h (hheld _ hne).1 rfl

theorem ballocFrom_spec (rounds k : Nat) (hk : k + rounds = (sb.size.toNat + BPB - 1) / BPB)
    (hmeta : ∀ b : Blockno, b.toNat < sb.datastart → s.view.used sb b = true)
    (hprev : ∀ b : Blockno, b.toNat < k * BPB → b.toNat < sb.size.toNat → s.view.used sb b = true) :
    Logs p (Fsys.ballocFrom sb rounds (k * BPB)) s (fun r s' l =>
      r = 0 ∧ s' = s ∧ l = [] ∧ s.view.free sb = ∅ ∨
        sb.IsData r ∧ s.view.used sb r = false ∧ s' = s.allot sb r ∧ l = [BBLOCK sb r, r]) E := by
  have hbpb : BPB = 8192 := rfl
  have hsize := sb.size.toNat_lt
  induction rounds generalizing k with
  | zero =>
    apply logs_pure
    refine .inl ⟨rfl, rfl, rfl, Disk.free_eq_empty_iff.mpr fun b hb => hprev b ?_ hb⟩
    rw [hbpb] at hk ⊢
    omega
  | succ rounds ih =>
    have hlt : k * BPB < sb.size.toNat := by
      rw [hbpb] at hk ⊢
      omega
    have hstart : (UInt32.ofNat (k * BPB)).toNat = k * BPB :=
      UInt32.toNat_ofNat_of_lt' (Nat.lt_trans hlt hsize)
    have hnotheld := hheld.bitmap_free hgeo (show (UInt32.ofNat (k * BPB)).toNat < _ by rw [hstart]; exact hlt)
    -- the bits of this block
    have hblock : ∀ b : Blockno, b.toNat / BPB = k → BBLOCK sb b = BBLOCK sb (UInt32.ofNat (k * BPB)) := by
      intro b hb
      rw [BBLOCK, BBLOCK]
      congr 1
      apply UInt32.toNat_inj.mp
      rw [UInt32.toNat_div, UInt32.toNat_div, hstart, show (UInt32.ofNat BPB).toNat = BPB from rfl, hb]
      rw [hbpb]
      omega
    rw [Fsys.ballocFrom]
    apply logs_bread hnotheld
    cases hfree : Fsys.freeBit sb (s.view (BBLOCK sb (UInt32.ofNat (k * BPB)))) (k * BPB) BPB 0 with
    | some bi =>
      obtain ⟨hbi, hin, hbit⟩ := freeBit_some hfree
      rw [Nat.zero_add] at hbi
      have hr : (UInt32.ofNat (k * BPB + bi)).toNat = k * BPB + bi :=
        UInt32.toNat_ofNat_of_lt' (Nat.lt_trans hin hsize)
      generalize hname : UInt32.ofNat (k * BPB + bi) = r at hr
      have hquot : r.toNat / BPB = k := by
        rw [hr]
        rw [hbpb] at hbi ⊢
        omega
      have hmod : r.toNat % BPB = bi := by
        rw [hr]
        rw [hbpb] at hbi ⊢
        omega
      have hused : s.view.used sb r = false := by
        rw [Disk.used, hblock r hquot, hmod]
        exact hbit
      have hdata : sb.IsData r := by
        refine ⟨Nat.le_of_not_lt fun hsmall => ?_, by rw [hr]; exact hin⟩
        rw [hmeta r hsmall] at hused
        cases hused
      have hrfree : (s.put (BBLOCK sb r) (setBit (s.view (BBLOCK sb r)) (r.toNat % BPB))).held r = none := by
        by_contra hne
        have := (hheld r hne).2
        rw [hused] at this
        cases this
      rw [← hblock r hquot, ← hmod]
      rw [← hblock r hquot] at hnotheld
      simp only [hname, hmod]
      apply logs_log hnotheld
      apply logs_bzero (by rw [← hmod]; exact hrfree)
      apply logs_pure
      refine .inr ⟨hdata, hused, ?_, rfl⟩
      rw [allot, hmod]
    | none =>
      apply logs_brelse hnotheld
      rw [show k * BPB + BPB = (k + 1) * BPB by rw [Nat.succ_mul]]
      apply ih (k + 1) (by omega)
      intro b hb hbsize
      by_cases hbefore : b.toNat < k * BPB
      · exact hprev b hbefore hbsize
      · have hquot : b.toNat / BPB = k := by
          rw [hbpb] at hb hbefore ⊢
          omega
        rw [Disk.used, hblock b hquot]
        apply freeBit_none hfree (Nat.zero_le _)
        · rw [hbpb]
          omega
        · rw [hbpb] at hbefore hquot ⊢
          omega

theorem logs_balloc {next : Blockno → Fsys α}
    (hmeta : ∀ b : Blockno, b.toNat < sb.datastart → s.view.used sb b = true)
    (hfull : s.view.free sb = ∅ → Logs p (next 0) s Q E)
    (hnew : ∀ b, sb.IsData b → s.view.used sb b = false →
      Logs p (next b) (s.allot sb b) (fun value s' l => Q value s' (BBLOCK sb b :: b :: l)) E) :
    Logs p (Fsys.balloc sb >>= next) s Q E := by
  have hspec := ballocFrom_spec hgeo hheld (p := p) (E := E) _ 0 (Nat.zero_add _) hmeta
    fun b hb _ => absurd hb (by simp)
  rw [Nat.zero_mul] at hspec
  refine Notes.bind hspec ?_
  rintro r s' l (⟨rfl, rfl, rfl, hempty⟩ | ⟨hdata, hused, rfl, rfl⟩)
  · exact hfull hempty
  · exact hnew r hdata hused

end Balloc

end Kern

end Xv6Ringbuf.Fs
