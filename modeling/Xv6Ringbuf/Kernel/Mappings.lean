import Xv6Ringbuf.Kernel.System

namespace Xv6Ringbuf.Kernel

open Function

def MapsRing (leaf : Nat → Option Pte) (n : Nat) (rb : Ringbuf) : Prop :=
  ∀ m, m ≤ n → n < m + 33 → leaf m = some (ringPte rb (n - m))

theorem mapsRing_mapRing (leaf : Nat → Option Pte) (n : Nat) (rb : Ringbuf) :
    MapsRing (mapRing leaf n rb) n rb := by
  intro m hm hm'
  rw [mapRing, if_pos ⟨hm, hm'⟩]

variable {leaf leaf' : Nat → Option Pte} {rb : Ringbuf} {rbs : Ringbufs} {name : List UInt8}
  {k : Fin MAX_RINGBUFS}

theorem MapsRing.congr {n : Nat} {rb' : Ringbuf} (h : MapsRing leaf n rb)
    (hleaf : ∀ m, m ≤ n → n < m + 33 → leaf' m = leaf m) (hbuf : rb'.buf = rb.buf)
    (hbook : rb'.book = rb.book) : MapsRing leaf' n rb' := by
  intro m hm hm'
  rw [hleaf m hm hm', h m hm hm', ringPte, ringPte, hbook, dataPage, dataPage, hbuf]

theorem LeafChange.keeps (h : LeafChange leaf leaf') {m : Nat} (hsome : leaf m ≠ none)
    (hsome' : leaf' m ≠ none) : leaf' m = leaf m := by
  cases h with
  | same h => rw [h]
  | mapped n rb _ hnone h =>
    rw [h, mapRing, if_neg]
    rintro ⟨hm, hm'⟩
    exact hsome (hnone m hm hm')
  | unmapped n h =>
    rw [h, unmapRing] at hsome' ⊢
    split at hsome'
    · exact absurd rfl hsome'
    · rw [if_neg ‹_›]

def openSlot (rbs : Ringbufs) (name : List UInt8) : Fin MAX_RINGBUFS :=
  (findName rbs name).getD (Fin.ofNat MAX_RINGBUFS (getRingbufIndex rbs))

theorem Source.openSlot (h : Source rbs name k rb) : openSlot rbs name = k := by
  cases h with
  | create hfind hk =>
    rw [Kernel.openSlot, hfind]
    apply Fin.ext
    rw [Option.getD_none, Fin.val_ofNat, ← hk]
    exact Nat.mod_eq_of_lt k.isLt
  | append hfind => rw [Kernel.openSlot, hfind, Option.getD_some]

theorem Source.refcount_nonneg (h : Source rbs name k rb) : 0 ≤ rb.refcount := by
  cases h with
  | create => exact Int.le_refl 0
  | append _ href => exact href

def Recreates (sys : Sys) (c : Call) (r : Int32) (k : Fin MAX_RINGBUFS) : Prop :=
  r = 0 ∧ c.opens ≠ 0 ∧ findName sys.ringbufs c.name = none ∧ openSlot sys.ringbufs c.name = k

instance (sys : Sys) (c : Call) (r : Int32) (k : Fin MAX_RINGBUFS) : Decidable (Recreates sys c r k) :=
  inferInstanceAs (Decidable (_ ∧ _))

-- A ring with references keeps its pages, and its name as long as it has
-- references, unless a new ring replaces it.
structure SameRing (rb rb' : Ringbuf) : Prop where
  buf : rb'.buf = rb.buf
  book : rb'.book = rb.book
  name : 0 < rb'.refcount → rb'.name = rb.name

theorem Effect.sameRing [Image] {sys : Sys} {c : Call} {s' : State} {r : Int32}
    (h : Effect (sys.state c) s' c.name c.opens c.addr r) {j : Fin MAX_RINGBUFS}
    (hlive : 0 < (sys.ringbufs j).refcount) :
    SameRing (sys.ringbufs j) (s'.ringbufs j) ∨ Recreates sys c r j := by
  have hsame : SameRing (sys.ringbufs j) (sys.ringbufs j) := ⟨rfl, rfl, fun _ => rfl⟩
  have hupdate : ∀ {k rb}, s'.ringbufs = update sys.ringbufs k rb →
      (j = k → SameRing (sys.ringbufs j) rb) → SameRing (sys.ringbufs j) (s'.ringbufs j) := by
    intro k rb hrings hrb
    rw [hrings]
    by_cases heq : j = k
    · rw [heq, update_self, ← heq]
      exact hrb heq
    · rw [update_of_ne heq]
      exact hsame
  cases h with
  | refused hs =>
    rw [hs]
    exact .inl hsame
  | unknown hs =>
    rw [hs]
    exact .inl hsame
  | opened _ hopens heffect =>
    cases heffect with
    | refused hs =>
      rw [hs]
      exact .inl hsame
    | opened k n base rb rb' _ _ _ hsource hopened _ hrings _ =>
      cases hsource with
      | create hfind hk =>
        by_cases heq : j = k
        · refine .inr ⟨rfl, hopens, hfind, ?_⟩
          rw [heq]
          exact (Source.create hfind hk).openSlot
        · exact .inl (hupdate hrings fun h => absurd h heq)
      | append hfind href =>
        refine .inl (hupdate hrings ?_)
        rintro rfl
        rw [hopened.kept (Int.ne_of_gt hlive)]
        exact ⟨rfl, rfl, fun _ => rfl⟩
    | lost k n rb rb' _ _ _ _ _ hrings _ =>
      rw [hrings.live j (Int.ne_of_gt hlive)]
      exact .inl hsame
  | closed k _ _ _ heffect =>
    left
    cases heffect with
    | miscounted _ _ _ hrings =>
      apply hupdate hrings
      rintro rfl
      exact ⟨rfl, rfl, fun _ => rfl⟩
    | unmapped _ _ _ _ _ hrings =>
      apply hupdate hrings
      rintro rfl
      exact ⟨rfl, rfl, fun _ => rfl⟩
    | freed _ _ _ _ _ _ _ _ hrings =>
      apply hupdate hrings
      rintro rfl
      exact ⟨rfl, rfl, fun hpos => absurd hpos (Int.lt_irrefl 0)⟩

end Xv6Ringbuf.Kernel
