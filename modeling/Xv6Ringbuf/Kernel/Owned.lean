import Xv6Ringbuf.Kernel.RingCall

namespace Xv6Ringbuf.Kernel

open Function

-- The pages on the free list and of the rings with references are pages that
-- `kfree` accepts.
structure PagesValid [Image] (free : List UInt64) (rbs : Ringbufs) : Prop where
  free : ∀ pa ∈ free, ValidPage pa
  live : ∀ k, 0 < (rbs k).refcount → ∀ pa ∈ (rbs k).pages, ValidPage pa

-- No page is in two places: on the free list, in a ring with references.
structure Owned (free : List UInt64) (rbs : Ringbufs) : Prop where
  nodup : free.Nodup
  pages : ∀ k, 0 < (rbs k).refcount → (rbs k).pages.Nodup
  off : ∀ k, 0 < (rbs k).refcount → ∀ pa ∈ (rbs k).pages, pa ∉ free
  apart : ∀ j k, 0 < (rbs j).refcount → 0 < (rbs k).refcount → j ≠ k →
    ∀ pa ∈ (rbs j).pages, pa ∉ (rbs k).pages

variable {rbs : Ringbufs} {k : Fin MAX_RINGBUFS} {name : List UInt8} {s s' : State} {addr : UInt64}
  {r : Int32}

theorem SameRings.mem_live {rbs' : Ringbufs} (h : SameRings rbs rbs') (hlive : 0 < (rbs' k).refcount) :
    0 < (rbs k).refcount ∧ rbs' k = rbs k := by
  rw [h.refcount] at hlive
  exact ⟨hlive, h.live k (by omega)⟩

theorem Source.live {rb : Ringbuf} (h : Source rbs name k rb) (hne : rb.refcount ≠ 0) :
    rb = rbs k ∧ 0 < (rbs k).refcount := by
  cases h with
  | create => exact absurd rfl hne
  | append hfind href => exact ⟨rfl, by omega⟩

-- The ring table and the free list change in one of four ways.
inductive TableChange [Image] (free free' : List UInt64) (rbs rbs' : Ringbufs) : Prop where
  | same (popped : List UInt64) (hfree : free = popped ++ free') (hrings : SameRings rbs rbs')
  -- A ring gets a reference and keeps its pages, or it gets fresh ones.
  | counted (popped : List UInt64) (k : Fin MAX_RINGBUFS) (rb : Ringbuf)
      (hfree : free = popped ++ free') (hrings : rbs' = update rbs k rb)
      (hlive : 0 < (rbs k).refcount ∧ rb.pages = (rbs k).pages ∨ rb.pages.Sublist popped)
  | dropped (k : Fin MAX_RINGBUFS) (rb : Ringbuf) (hfree : free' = free)
      (hrings : rbs' = update rbs k rb)
      (hlive : 0 < rb.refcount → 0 < (rbs k).refcount ∧ rb.pages = (rbs k).pages)
  | freed (freed : List UInt64) (k : Fin MAX_RINGBUFS) (rb : Ringbuf)
      (hfree : free' = freed ++ free) (hrings : rbs' = update rbs k rb)
      (hperm : freed.Perm (rbs k).pages) (hvalid : ∀ pa ∈ (rbs k).pages, ValidPage pa)
      (hlive : 0 < (rbs k).refcount) (hdead : rb.refcount = 0)

theorem OpenEffect.tableChange [Image] (h : OpenEffect s s' name addr r) :
    TableChange s.freelist s'.freelist s.ringbufs s'.ringbufs := by
  cases h with
  | refused hs =>
    rw [hs]
    exact .same [] rfl (SameRings.refl _)
  | opened k n base rb rb' _ _ _ hsource hopened _ hrings _ =>
    obtain ⟨popped, hfree, hsub, _⟩ := hopened.free
    refine .counted popped k _ hfree hrings ?_
    by_cases hzero : rb.refcount = 0
    · exact .inr (hsub hzero)
    · obtain ⟨rfl, hlive⟩ := hsource.live hzero
      rw [hopened.kept hzero]
      exact .inl ⟨hlive, rfl⟩
  | lost k n rb rb' _ _ _ hopened _ hrings _ =>
    obtain ⟨popped, hfree, _⟩ := hopened.free
    exact .same popped hfree hrings

theorem Closed.tableChange [Image] {va : UInt64} (h : Closed s s' k va r) :
    TableChange s.freelist s'.freelist s.ringbufs s'.ringbufs := by
  have hkept : 0 < (s.ringbufs k).refcount - 1 → 0 < (s.ringbufs k).refcount := by omega
  cases h with
  | miscounted _ _ hfree hrings =>
    exact .dropped k _ hfree hrings fun hlive => ⟨hkept hlive, rfl⟩
  | unmapped _ _ _ hfree _ hrings =>
    exact .dropped k _ hfree hrings fun hlive => ⟨hkept hlive, rfl⟩
  | freed freed _ _ _ href hvalid hperm hfree hrings =>
    exact .freed freed k _ hfree hrings hperm hvalid (by omega) rfl

theorem Effect.tableChange [Image] {opens : Int32} (h : Effect s s' name opens addr r) :
    TableChange s.freelist s'.freelist s.ringbufs s'.ringbufs := by
  cases h with
  | refused hs =>
    rw [hs]
    exact .same [] rfl (SameRings.refl _)
  | unknown hs =>
    rw [hs]
    exact .same [] rfl (SameRings.refl _)
  | opened _ _ heffect => exact heffect.tableChange
  | closed _ _ _ _ heffect => exact heffect.tableChange

section TableChange

variable [Image] {free free' : List UInt64} {rbs rbs' : Ringbufs}

theorem PagesValid.update {k : Fin MAX_RINGBUFS} {rb : Ringbuf} (h : PagesValid free rbs)
    (hfree : ∀ pa ∈ free', ValidPage pa) (hrb : 0 < rb.refcount → ∀ pa ∈ rb.pages, ValidPage pa) :
    PagesValid free' (update rbs k rb) := by
  refine ⟨hfree, ?_⟩
  intro j hlive
  by_cases heq : j = k
  · rw [heq, update_self] at hlive ⊢
    exact hrb hlive
  · rw [update_of_ne heq] at hlive ⊢
    exact h.live j hlive

theorem TableChange.valid (h : TableChange free free' rbs rbs') (hvalid : PagesValid free rbs) :
    PagesValid free' rbs' := by
  cases h with
  | same popped hfree hrings =>
    refine ⟨fun pa hpa => hvalid.free pa (hfree ▸ List.mem_append_right _ hpa), ?_⟩
    intro k hlive
    obtain ⟨hlive', heq⟩ := hrings.mem_live hlive
    rw [heq]
    exact hvalid.live k hlive'
  | counted popped k rb hfree hrings hlive =>
    rw [hrings]
    refine hvalid.update (fun pa hpa => hvalid.free pa (hfree ▸ List.mem_append_right _ hpa)) ?_
    rintro - pa hpa
    rcases hlive with ⟨hlive, hpages⟩ | hsub
    · exact hvalid.live k hlive pa (hpages ▸ hpa)
    · exact hvalid.free pa (hfree ▸ List.mem_append_left _ (hsub.subset hpa))
  | dropped k rb hfree hrings hlive =>
    rw [hfree, hrings]
    refine hvalid.update hvalid.free fun hpos pa hpa => ?_
    obtain ⟨hlive', hpages⟩ := hlive hpos
    exact hvalid.live k hlive' pa (hpages ▸ hpa)
  | freed freed k rb hfree hrings hperm hpages _ hdead =>
    rw [hrings]
    refine hvalid.update ?_ fun hpos => by omega
    intro pa hpa
    rw [hfree, List.mem_append] at hpa
    rcases hpa with hpa | hpa
    · exact hpages pa (hperm.subset hpa)
    · exact hvalid.free pa hpa

omit [Image] in
theorem Owned.update {k : Fin MAX_RINGBUFS} {rb : Ringbuf} (h : Owned free rbs)
    (hnodup : free'.Nodup)
    (hfree : ∀ pa ∈ free', pa ∈ free ∨ 0 < (rbs k).refcount ∧ pa ∈ (rbs k).pages)
    (hrb : 0 < rb.refcount → rb.pages.Nodup ∧ ∀ pa ∈ rb.pages, pa ∉ free' ∧
      ∀ j, j ≠ k → 0 < (rbs j).refcount → pa ∉ (rbs j).pages) :
    Owned free' (update rbs k rb) := by
  refine ⟨hnodup, ?_, ?_, ?_⟩
  · intro j hlive
    by_cases heq : j = k
    · rw [heq, update_self] at hlive ⊢
      exact (hrb hlive).1
    · rw [update_of_ne heq] at hlive ⊢
      exact h.pages j hlive
  · intro j hlive pa hpa
    by_cases heq : j = k
    · rw [heq, update_self] at hlive hpa
      exact ((hrb hlive).2 pa hpa).1
    · rw [update_of_ne heq] at hlive hpa
      intro hmem
      rcases hfree pa hmem with hmem | ⟨hlive', hmem⟩
      · exact h.off j hlive pa hpa hmem
      · exact h.apart j k hlive hlive' heq pa hpa hmem
  · intro i j hi hj hne pa hpa hpa'
    by_cases hik : i = k
    · have hjk : j ≠ k := fun heq => hne (hik.trans heq.symm)
      rw [hik, update_self] at hi hpa
      rw [update_of_ne hjk] at hj hpa'
      exact ((hrb hi).2 pa hpa).2 j hjk hj hpa'
    · rw [update_of_ne hik] at hi hpa
      by_cases hjk : j = k
      · rw [hjk, update_self] at hj hpa'
        exact ((hrb hj).2 pa hpa').2 i hik hi hpa
      · rw [update_of_ne hjk] at hj hpa'
        exact h.apart i j hi hj hne pa hpa hpa'

omit [Image] in
theorem Owned.kept {k : Fin MAX_RINGBUFS} {pages : List UInt64} (h : Owned free rbs)
    (hfree : ∀ pa ∈ free', pa ∈ free) (hlive : 0 < (rbs k).refcount)
    (hpages : pages = (rbs k).pages) :
    pages.Nodup ∧ ∀ pa ∈ pages, pa ∉ free' ∧
      ∀ j, j ≠ k → 0 < (rbs j).refcount → pa ∉ (rbs j).pages := by
  rw [hpages]
  refine ⟨h.pages k hlive, fun pa hpa => ⟨fun hmem => ?_, fun j hj hlive' hmem => ?_⟩⟩
  · exact h.off k hlive pa hpa (hfree pa hmem)
  · exact h.apart k j hlive hlive' hj.symm pa hpa hmem

theorem TableChange.owned (h : TableChange free free' rbs rbs') (howned : Owned free rbs) :
    Owned free' rbs' := by
  have hpopped : ∀ {popped}, free = popped ++ free' → free'.Nodup ∧ ∀ pa ∈ free', pa ∈ free := by
    intro popped hfree
    refine ⟨?_, fun pa hpa => hfree ▸ List.mem_append_right _ hpa⟩
    have hnodup := howned.nodup
    rw [hfree] at hnodup
    exact (List.nodup_append.mp hnodup).2.1
  cases h with
  | same popped hfree hrings =>
    obtain ⟨hnodup, hsubset⟩ := hpopped hfree
    refine ⟨hnodup, ?_, ?_, ?_⟩
    · intro k hlive
      obtain ⟨hlive', heq⟩ := hrings.mem_live hlive
      rw [heq]
      exact howned.pages k hlive'
    · intro k hlive pa hpa hmem
      obtain ⟨hlive', heq⟩ := hrings.mem_live hlive
      exact howned.off k hlive' pa (heq ▸ hpa) (hsubset pa hmem)
    · intro j k hj hk hne pa hpa hpa'
      obtain ⟨hj', hjeq⟩ := hrings.mem_live hj
      obtain ⟨hk', hkeq⟩ := hrings.mem_live hk
      exact howned.apart j k hj' hk' hne pa (hjeq ▸ hpa) (hkeq ▸ hpa')
  | counted popped k rb hfree hrings hlive =>
    obtain ⟨hnodup, hsubset⟩ := hpopped hfree
    rw [hrings]
    refine howned.update hnodup (fun pa hpa => .inl (hsubset pa hpa)) fun _ => ?_
    rcases hlive with ⟨hlive, hpages⟩ | hsub
    · exact howned.kept hsubset hlive hpages
    · have hall := howned.nodup
      rw [hfree, List.nodup_append] at hall
      refine ⟨hsub.nodup hall.1, fun pa hpa => ⟨fun hmem => ?_, fun j _ hlive hmem => ?_⟩⟩
      · exact hall.2.2 pa (hsub.subset hpa) pa hmem rfl
      · exact howned.off j hlive pa hmem (hfree ▸ List.mem_append_left _ (hsub.subset hpa))
  | dropped k rb hfree hrings hlive =>
    rw [hfree, hrings]
    refine howned.update howned.nodup (fun pa hpa => .inl hpa) fun hpos => ?_
    obtain ⟨hlive', hpages⟩ := hlive hpos
    exact howned.kept (fun pa hpa => hpa) hlive' hpages
  | freed freed k rb hfree hrings hperm _ hlive hdead =>
    rw [hrings]
    refine howned.update ?_ ?_ fun hpos => by omega
    · rw [hfree, List.nodup_append]
      refine ⟨hperm.nodup_iff.mpr (howned.pages k hlive), howned.nodup, ?_⟩
      rintro pa hpa _ hmem rfl
      exact howned.off k hlive pa (hperm.subset hpa) hmem
    · intro pa hpa
      rw [hfree, List.mem_append] at hpa
      rcases hpa with hpa | hpa
      · exact .inr ⟨hlive, hperm.subset hpa⟩
      · exact .inl hpa

end TableChange

-- The page table changes in one of three ways.
inductive LeafChange (leaf leaf' : Nat → Option Pte) : Prop where
  | same (h : leaf' = leaf)
  | mapped (n : Nat) (rb : Ringbuf) (hlow : 2 ^ 19 + 32 ≤ n)
      (hnone : ∀ m, m ≤ n → n < m + 33 → leaf m = none) (h : leaf' = mapRing leaf n rb)
  | unmapped (n : Nat) (h : leaf' = unmapRing leaf n)

variable {opens : Int32} {n m : Nat} {rb rb' : Ringbuf} {pa : UInt64} {pte : Pte}

theorem Effect.leafChange [Image] {s s' : State} {name : List UInt8} {addr : UInt64} {r : Int32}
    (h : Effect s s' name opens addr r) :
    LeafChange s.pagetable.leaf s'.pagetable.leaf := by
  cases h with
  | refused hs => exact .same (by rw [hs])
  | unknown hs => exact .same (by rw [hs])
  | opened _ _ heffect =>
    cases heffect with
    | refused hs => exact .same (by rw [hs])
    | opened k n base rb rb' _ hlow _ _ hopened =>
      exact .mapped n rb' hlow hopened.unmapped hopened.leaf
    | lost k n rb rb' hlow _ _ hopened => exact .mapped n rb' hlow hopened.unmapped hopened.leaf
  | closed _ _ _ _ heffect =>
    cases heffect with
    | miscounted _ hpt => exact .same (by rw [hpt])
    | unmapped _ _ hleaf => exact .unmapped _ hleaf
    | freed _ _ _ hleaf => exact .unmapped _ hleaf

theorem ringPte_mem (rb : Ringbuf) (i : Nat) : (ringPte rb i).pa ∈ rb.pages := by
  rw [Ringbuf.mem_pages, ringPte]
  split
  · exact .inr (List.mem_ofFn.mpr ⟨_, rfl⟩)
  · exact .inl rfl

theorem Opened.mem_pages {s s' : State} (h : Opened s s' n rb rb') (hpa : pa ∈ rb'.pages) :
    (rb.refcount ≠ 0 ∧ pa ∈ rb.pages) ∨ (rb.refcount = 0 ∧ pa ∈ s.freelist) := by
  by_cases hzero : rb.refcount = 0
  · obtain ⟨popped, hfree, hsub, _⟩ := h.free
    refine .inr ⟨hzero, ?_⟩
    rw [hfree]
    exact List.mem_append_left _ ((hsub hzero).subset hpa)
  · rw [h.kept hzero] at hpa
    exact .inl ⟨hzero, hpa⟩

theorem Opened.free_subset {s s' : State} (h : Opened s s' n rb rb') (hpa : pa ∈ s'.freelist) :
    pa ∈ s.freelist := by
  obtain ⟨popped, hfree, _⟩ := h.free
  rw [hfree]
  exact List.mem_append_right _ hpa

theorem Opened.new_leaf [Image] {s s' : State} {name : List UInt8} {k : Fin MAX_RINGBUFS}
    (hsource : Source s.ringbufs name k rb) (h : Opened s s' n rb rb')
    (hvalid : PagesValid s.freelist s.ringbufs) (hleaf : s'.pagetable.leaf m = some pte) :
    s.pagetable.leaf m = some pte ∨ ValidPage pte.pa := by
  rw [h.leaf, mapRing] at hleaf
  split at hleaf
  · cases hleaf
    right
    rcases h.mem_pages (ringPte_mem rb' (n - m)) with ⟨hne, hpa⟩ | ⟨_, hpa⟩
    · obtain ⟨rfl, hlive⟩ := hsource.live hne
      exact hvalid.live k hlive _ hpa
    · exact hvalid.free _ hpa
  · exact .inl hleaf

theorem Effect.new_leaf [Image] {s s' : State} {name : List UInt8} {addr : UInt64} {r : Int32}
    (h : Effect s s' name opens addr r) (hvalid : PagesValid s.freelist s.ringbufs)
    (hleaf : s'.pagetable.leaf m = some pte) :
    s.pagetable.leaf m = some pte ∨ ValidPage pte.pa := by
  have hunmapped : ∀ {n}, s'.pagetable.leaf = unmapRing s.pagetable.leaf n →
      s.pagetable.leaf m = some pte := by
    intro n hunmap
    rw [hunmap, unmapRing] at hleaf
    split at hleaf
    · cases hleaf
    · exact hleaf
  cases h with
  | refused hs => exact .inl (hs ▸ hleaf)
  | unknown hs => exact .inl (hs ▸ hleaf)
  | opened _ _ heffect =>
    cases heffect with
    | refused hs => exact .inl (hs ▸ hleaf)
    | opened k n base rb rb' _ _ _ hsource hopened => exact hopened.new_leaf hsource hvalid hleaf
    | lost k n rb rb' _ _ hsource hopened => exact hopened.new_leaf hsource hvalid hleaf
  | closed _ _ _ _ heffect =>
    cases heffect with
    | miscounted _ hpt => exact .inl (hpt ▸ hleaf)
    | unmapped _ _ hunmap => exact .inl (hunmapped hunmap)
    | freed _ _ _ hunmap => exact .inl (hunmapped hunmap)

theorem LeafChange.low {leaf leaf' : Nat → Option Pte} (h : LeafChange leaf leaf') (hm : m < 2 ^ 19)
    (hnone : leaf m = none) : leaf' m = none := by
  cases h with
  | same h => rw [h, hnone]
  | mapped n rb hlow _ h => rw [h, mapRing, if_neg (by omega), hnone]
  | unmapped n h =>
    rw [h, unmapRing, hnone]
    exact ite_self _

end Xv6Ringbuf.Kernel
