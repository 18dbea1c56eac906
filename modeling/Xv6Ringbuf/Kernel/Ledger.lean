import Xv6Ringbuf.Kernel.Mappings

namespace Xv6Ringbuf.Kernel

open Function

-- A mapping that a process has open: the name it was opened by, the slot of the
-- ring at that time and the base that the process was given.
structure Mapping where
  pid : Pid
  name : List UInt8
  slot : Fin MAX_RINGBUFS
  base : UInt64
deriving DecidableEq

def Mapping.page (m : Mapping) : Nat := vpn m.base

def closing (sys : Sys) (c : Call) : Mapping :=
  ⟨c.pid, key c.name, openSlot sys.ringbufs c.name, closeBase (sys.state c) c.addr⟩

def ledger (sys : Sys) (c : Call) (r : Int32) (s' : State) (maps : List Mapping) : List Mapping :=
  if r ≠ 0 then maps
  else if c.opens ≠ 0 then
    ⟨c.pid, key c.name, openSlot sys.ringbufs c.name, s'.given.getD 0⟩ :: maps
  else maps.erase (closing sys c)

def Apart (m m' : Mapping) : Prop :=
  m.pid = m'.pid → m.page + 33 ≤ m'.page ∨ m'.page + 33 ≤ m.page

instance : Std.Symm Apart := ⟨fun _ _ h hpid => (h hpid.symm).symm⟩

-- Each open mapping shows its ring under its name, and each ring counts its
-- open mappings.
structure Ledger (sys : Sys) (maps : List Mapping) : Prop where
  at_base : ∀ m ∈ maps, At m.base m.page ∧ 2 ^ 19 + 32 ≤ m.page ∧ m.page < 2 ^ 26 - 3
  mapped : ∀ m ∈ maps, MapsRing (sys.pagetables m.pid).leaf m.page (sys.ringbufs m.slot)
  apart : maps.Pairwise Apart
  count : ∀ k, (sys.ringbufs k).refcount = maps.countP fun m => m.slot = k
  named : ∀ m ∈ maps, m.name = key (sys.ringbufs m.slot).name

-- A call that keeps the books in order: a close asks for a mapping that the
-- caller has open, and a new ring goes to a slot without references.
structure Proper (sys : Sys) (maps : List Mapping) (c : Call) : Prop where
  close : c.opens = 0 → getRingbufIndex sys.ringbufs < MAX_RINGBUFS →
    findName sys.ringbufs c.name ≠ none → closing sys c ∈ maps
  create : c.opens ≠ 0 → getRingbufIndex sys.ringbufs < MAX_RINGBUFS →
    findName sys.ringbufs c.name = none → (sys.ringbufs (openSlot sys.ringbufs c.name)).refcount ≤ 0

section Facts

variable {sys : Sys} {maps : List Mapping} (h : Ledger sys maps)

include h

variable {m : Mapping}

theorem Ledger.live (hm : m ∈ maps) : 0 < (sys.ringbufs m.slot).refcount := by
  rw [h.count]
  exact Int.natCast_pos.mpr (List.countP_pos_iff.mpr ⟨m, hm, by simp⟩)

theorem Ledger.refcount_nonneg (k : Fin MAX_RINGBUFS) : 0 ≤ (sys.ringbufs k).refcount := by
  rw [h.count]
  exact Int.natCast_nonneg _

theorem Ledger.nodup : maps.Nodup := by
  apply h.apart.imp
  rintro m m' hapart rfl
  have := hapart rfl
  omega

theorem Ledger.apart_of_ne {m' : Mapping} (hm : m ∈ maps) (hm' : m' ∈ maps) (hne : m ≠ m') :
    Apart m m' :=
  h.apart.forall hm hm' hne

theorem Ledger.mapped_caller {c : Call} (hm : m ∈ maps) (hpid : m.pid = c.pid) :
    MapsRing (sys.state c).pagetable.leaf m.page (sys.ringbufs m.slot) := by
  have hmapped := h.mapped m hm
  rw [hpid] at hmapped
  exact hmapped

theorem Ledger.walkaddr_ne_zero [Image] (hsound : Sound sys) (hm : m ∈ maps) :
    (sys.pagetables m.pid).walkaddr m.base ≠ 0 := by
  rw [walkaddr_of_leaf (h.at_base m hm).1 (h.mapped m hm _ (Nat.le_refl _) (by omega)) rfl,
    Nat.sub_self]
  apply (hsound.valid.live m.slot (h.live hm) _ _).ne_zero
  exact Ringbuf.mem_pages.mpr (.inr (List.mem_ofFn.mpr ⟨_, rfl⟩))

end Facts

variable {leaf : Nat → Option Pte} {n n' : Nat} {rb : Ringbuf}

theorem apart_of_unmapped (hmaps : MapsRing leaf n rb)
    (hnone : ∀ m, m ≤ n' → n' < m + 33 → leaf m = none) :
    n' + 33 ≤ n ∨ n + 33 ≤ n' := by
  by_contra hoverlap
  have hsome := hmaps (min n n') (by omega) (by omega)
  rw [hnone (min n n') (by omega) (by omega)] at hsome
  cases hsome

theorem MapsRing.mapRing (hmaps : MapsRing leaf n rb) (rb' : Ringbuf)
    (hnone : ∀ m, m ≤ n' → n' < m + 33 → leaf m = none) : MapsRing (mapRing leaf n' rb') n rb := by
  intro m hm hm'
  have hapart := apart_of_unmapped hmaps hnone
  rw [Kernel.mapRing, if_neg (by omega)]
  exact hmaps m hm hm'

theorem MapsRing.unmapRing (hmaps : MapsRing leaf n rb) (hapart : n' + 33 ≤ n ∨ n + 33 ≤ n') :
    MapsRing (unmapRing leaf n') n rb := by
  intro m hm hm'
  rw [Kernel.unmapRing, if_neg (by omega)]
  exact hmaps m hm hm'

section Step

variable [Image] {sys : Sys} {c : Call} {r : Int32} {s' : State} {maps : List Mapping}
  (hsound : Sound sys) (hrun : sys.run c = .ok (r, s')) (h : Ledger sys maps)
  (hproper : Proper sys maps c)

include hsound hrun h

theorem Ledger.failed (hproper : Proper sys maps c) (hr : r ≠ 0) :
    SameRings sys.ringbufs s'.ringbufs ∧
      ∀ m ∈ maps, MapsRing ((sys.next c s').pagetables m.pid).leaf m.page (sys.ringbufs m.slot) := by
  have hsame : s' = sys.state c → SameRings sys.ringbufs s'.ringbufs ∧ ∀ m ∈ maps,
      MapsRing ((sys.next c s').pagetables m.pid).leaf m.page (sys.ringbufs m.slot) := by
    rintro rfl
    rw [Sys.next_state]
    exact ⟨SameRings.refl _, h.mapped⟩
  cases hsound.effect hrun with
  | refused hs => exact hsame hs
  | unknown hs => exact hsame hs
  | opened _ _ heffect =>
    cases heffect with
    | refused hs => exact hsame hs
    | opened => exact absurd rfl hr
    | lost k n rb rb' _ _ _ hopened _ hrings _ =>
      refine ⟨hrings, fun m hm => ?_⟩
      rw [Sys.next_pagetables]
      by_cases heq : m.pid = c.pid
      · rw [if_pos heq, hopened.leaf]
        exact (h.mapped_caller hm heq).mapRing rb' hopened.unmapped
      · rw [if_neg heq]
        exact h.mapped m hm
  | closed k hcount hopens hfind heffect =>
    cases heffect with
    | miscounted hwalk =>
      have hfound : findName sys.ringbufs c.name ≠ none := Option.ne_none_iff_exists'.mpr ⟨k, hfind⟩
      have hwalk' := h.walkaddr_ne_zero hsound (hproper.close hopens hcount hfound)
      simp only [closing] at hwalk'
      exact absurd hwalk hwalk'
    | unmapped => exact absurd rfl hr
    | freed => exact absurd rfl hr

theorem Ledger.sameRing (hproper : Proper sys maps c) {m : Mapping} (hm : m ∈ maps) :
    SameRing (sys.ringbufs m.slot) (s'.ringbufs m.slot) := by
  apply ((hsound.effect hrun).sameRing (h.live hm)).resolve_right
  rintro ⟨hr, hopens, hfind, hslot⟩
  obtain ⟨k, n, base, rb, rb', _, _, _, hsource, _⟩ := hsound.opened hrun hr hopens
  have hlive := h.live hm
  have hcount : getRingbufIndex sys.ringbufs < MAX_RINGBUFS := by
    cases hsource with
    | create _ hk => exact hk ▸ k.isLt
    | append hfind' => exact absurd hfind (by rw [hfind']; simp)
  have hdead := hproper.create hopens hcount hfind
  rw [hslot] at hdead
  omega

theorem Ledger.named_next (hproper : Proper sys maps c) {m : Mapping} (hm : m ∈ maps)
    (hlive : 0 < (s'.ringbufs m.slot).refcount) : m.name = key (s'.ringbufs m.slot).name := by
  rw [h.named m hm, (h.sameRing hsound hrun hproper hm).name hlive]

theorem Ledger.next_failed (hproper : Proper sys maps c) (hr : r ≠ 0) :
    Ledger (sys.next c s') maps := by
  obtain ⟨hrings, hmaps⟩ := h.failed hsound hrun hproper hr
  have hentry : ∀ m ∈ maps, (sys.next c s').ringbufs m.slot = sys.ringbufs m.slot :=
    fun m hm => hrings.live m.slot (Int.ne_of_gt (h.live hm))
  refine ⟨h.at_base, ?_, h.apart, fun k => (hrings.refcount k).trans (h.count k), ?_⟩
  · intro m hm
    rw [hentry m hm]
    exact hmaps m hm
  · intro m hm
    rw [hentry m hm]
    exact h.named m hm

theorem Ledger.next_opened (hproper : Proper sys maps c) (hr : r = 0) (hopens : c.opens ≠ 0) :
    Ledger (sys.next c s') (⟨c.pid, key c.name, openSlot sys.ringbufs c.name, s'.given.getD 0⟩ :: maps) := by
  obtain ⟨k, n, base, rb, rb', hbase, hlow, hhigh, hsource, hopened, hrings, hgiven⟩ :=
    hsound.opened hrun hr hopens
  have hname : key rb.name = key c.name := by
    cases hsource with
    | create => exact key_key c.name
    | append hfind => exact findName_eq_some hfind
  -- The slot has the references that its entry says.
  have hrefcount : rb.refcount = (sys.ringbufs k).refcount := by
    cases hsource with
    | append => rfl
    | create hfind hk =>
      have hdead := hproper.create hopens (hk ▸ k.isLt) hfind
      have hpos := h.refcount_nonneg k
      rw [(Source.create hfind hk).openSlot] at hdead
      exact Int.le_antisymm hpos hdead
  have hentry : (sys.next c s').ringbufs k = { rb' with refcount := rb'.refcount + 1 } := by
    change s'.ringbufs k = _
    rw [hrings, update_self]
  rw [hsource.openSlot, hgiven, Option.getD_some]
  have hcount : ∀ j, ((sys.next c s').ringbufs j).refcount =
      ((⟨c.pid, key c.name, k, base⟩ :: maps : List Mapping).countP fun m => m.slot = j) := by
    intro j
    rw [List.countP_cons, Int.natCast_add, ← h.count j]
    by_cases heq : j = k
    · rw [heq, hentry, if_pos (by simp)]
      change rb'.refcount + 1 = _
      rw [hopened.refcount, hrefcount]
      rfl
    · rw [if_neg (by simpa using Ne.symm heq)]
      change (s'.ringbufs j).refcount = _
      rw [hrings, update_of_ne heq]
      exact (Int.add_zero _).symm
  have hpage : vpn base = n := hbase.vpn
  refine ⟨?_, ?_, ?_, hcount, ?_⟩
  · rw [List.forall_mem_cons]
    refine ⟨?_, h.at_base⟩
    simp only [Mapping.page, hpage]
    exact ⟨hbase, hlow, hhigh⟩
  · rw [List.forall_mem_cons]
    constructor
    · rw [hentry, Sys.next_pagetables, if_pos rfl, hopened.leaf]
      simp only [Mapping.page, hpage]
      exact mapsRing_mapRing _ n rb'
    · intro m hm
      have hsame := h.sameRing hsound hrun hproper hm
      rw [Sys.next_pagetables]
      by_cases heq : m.pid = c.pid
      · rw [if_pos heq, hopened.leaf]
        exact ((h.mapped_caller hm heq).mapRing rb' hopened.unmapped).congr (fun _ _ _ => rfl)
          hsame.buf hsame.book
      · rw [if_neg heq]
        exact (h.mapped m hm).congr (fun _ _ _ => rfl) hsame.buf hsame.book
  · rw [List.pairwise_cons]
    refine ⟨?_, h.apart⟩
    intro m hm hpid
    have hapart := apart_of_unmapped (h.mapped_caller hm hpid.symm) hopened.unmapped
    simp only [Mapping.page, hpage] at hapart ⊢
    exact hapart
  · rw [List.forall_mem_cons]
    constructor
    · rw [hentry]
      change key c.name = key rb'.name
      rw [hopened.name, hname]
    · intro m hm
      have hlive : 0 < ((sys.next c s').ringbufs m.slot).refcount := by
        rw [hcount]
        exact Int.natCast_pos.mpr (List.countP_pos_iff.mpr ⟨m, List.mem_cons_of_mem _ hm, by simp⟩)
      exact h.named_next hsound hrun hproper hm hlive

theorem Ledger.next_closed (hproper : Proper sys maps c) (hr : r = 0) (hopens : c.opens = 0) :
    Ledger (sys.next c s') (maps.erase (closing sys c)) := by
  obtain ⟨k, hcount, hfind, hleaf, hrefcount, _⟩ := hsound.closed hrun hr hopens
  have hclosing : closing sys c ∈ maps :=
    hproper.close hopens hcount (Option.ne_none_iff_exists'.mpr ⟨k, hfind⟩)
  have hslot : (closing sys c).slot = k := by
    simp only [closing, openSlot, hfind, Option.getD_some]
  have hperm := List.perm_cons_erase hclosing
  have hcount' : ∀ j, ((sys.next c s').ringbufs j).refcount =
      ((maps.erase (closing sys c)).countP fun m => m.slot = j) := by
    intro j
    change (s'.ringbufs j).refcount = _
    rw [hrefcount, h.count, hperm.countP_eq, List.countP_cons, hslot, Int.natCast_add]
    by_cases heq : j = k
    · rw [if_pos heq, if_pos (by simp [heq])]
      omega
    · rw [if_neg heq, if_neg (by simpa using Ne.symm heq)]
      omega
  refine ⟨fun m hm => h.at_base m (List.mem_of_mem_erase hm), ?_,
    h.apart.sublist List.erase_sublist, hcount', ?_⟩
  · intro m hm
    have hm' := (h.nodup.mem_erase_iff.mp hm)
    have hsame := h.sameRing hsound hrun hproper hm'.2
    rw [Sys.next_pagetables]
    by_cases heq : m.pid = c.pid
    · rw [if_pos heq, hleaf]
      have hapart := h.apart_of_ne hclosing hm'.2 (Ne.symm hm'.1) heq.symm
      exact ((h.mapped_caller hm'.2 heq).unmapRing hapart).congr (fun _ _ _ => rfl)
        hsame.buf hsame.book
    · rw [if_neg heq]
      exact (h.mapped m hm'.2).congr (fun _ _ _ => rfl) hsame.buf hsame.book
  · intro m hm
    have hlive : 0 < ((sys.next c s').ringbufs m.slot).refcount := by
      rw [hcount']
      exact Int.natCast_pos.mpr (List.countP_pos_iff.mpr ⟨m, hm, by simp⟩)
    exact h.named_next hsound hrun hproper (List.mem_of_mem_erase hm) hlive

theorem Ledger.next (hproper : Proper sys maps c) :
    Ledger (sys.next c s') (ledger sys c r s' maps) := by
  rw [ledger]
  by_cases hr : r = 0
  · rw [if_neg (not_not.mpr hr)]
    by_cases hopens : c.opens = 0
    · rw [if_neg (not_not.mpr hopens)]
      exact h.next_closed hsound hrun hproper hr hopens
    · rw [if_pos hopens]
      exact h.next_opened hsound hrun hproper hr hopens
  · rw [if_pos hr]
    exact h.next_failed hsound hrun hproper hr

end Step

-- The pages of the mappings that a process has open.
def InRing (maps : List Mapping) (pid : Pid) (n : Nat) : Prop :=
  ∃ m ∈ maps, m.pid = pid ∧ n ≤ m.page ∧ m.page < n + 33

section Leaves

variable [Image] {sys : Sys} {c : Call} {r : Int32} {s' : State} {maps : List Mapping}
  (hsound : Sound sys) (hrun : sys.run c = .ok (r, s'))
  (hcell : c.opens ≠ 0 → CellMapped (sys.pagetables c.pid) c.addr 8)

include hsound hrun hcell

theorem Sound.leaf_failed (hr : r ≠ 0) : s'.pagetable.leaf = (sys.pagetables c.pid).leaf := by
  have hsame : s' = sys.state c → s'.pagetable.leaf = (sys.pagetables c.pid).leaf := by
    rintro rfl
    rfl
  cases hsound.effect hrun with
  | refused hs => exact hsame hs
  | unknown hs => exact hsame hs
  | opened _ hopens heffect =>
    cases heffect with
    | refused hs => exact hsame hs
    | opened => exact absurd rfl hr
    | lost k n rb rb' _ _ _ hopened hlost =>
      -- What is mapped stays mapped, so that the base can be copied out.
      refine absurd ((hcell hopens).mono ?_) hlost
      intro m pte hleaf
      rw [hopened.leaf, mapRing]
      split
      · rename_i hrange
        have hnone : (sys.pagetables c.pid).leaf m = none := hopened.unmapped m hrange.1 hrange.2
        rw [hleaf] at hnone
        cases hnone
      · exact hleaf
  | closed _ _ _ _ heffect =>
    cases heffect with
    | miscounted _ hpt => rw [hpt]; rfl
    | unmapped => exact absurd rfl hr
    | freed => exact absurd rfl hr

-- A page that is mapped after a call was mapped before, and a mapping that it is part
-- of stays open, or it is part of the mapping that was opened.
theorem Sound.leaf_next (pid : Pid) (n : Nat) (pte : Pte)
    (hleaf : ((sys.next c s').pagetables pid).leaf n = some pte) :
    (sys.pagetables pid).leaf n = some pte ∧
        (InRing maps pid n → InRing (ledger sys c r s' maps) pid n) ∨
      InRing (ledger sys c r s' maps) pid n ∧ pte.perm = permRing := by
  rw [Sys.next_pagetables] at hleaf
  rw [ledger]
  by_cases hr : r = 0
  · rw [if_neg (not_not.mpr hr)]
    by_cases hopens : c.opens = 0
    · rw [if_neg (not_not.mpr hopens)]
      obtain ⟨k, _, _, hleaf', _⟩ := hsound.closed hrun hr hopens
      have hold : (sys.pagetables pid).leaf n = some pte ∧
          ¬(pid = c.pid ∧ n ≤ (closing sys c).page ∧ (closing sys c).page < n + 33) := by
        by_cases hpid : pid = c.pid
        · rw [if_pos hpid, hleaf', unmapRing] at hleaf
          split at hleaf
          · cases hleaf
          · rename_i hout
            exact ⟨hpid ▸ hleaf, fun hin => hout hin.2⟩
        · rw [if_neg hpid] at hleaf
          exact ⟨hleaf, fun hin => hpid hin.1⟩
      refine .inl ⟨hold.1, ?_⟩
      rintro ⟨m, hm, hpid, hrange⟩
      refine ⟨m, (List.mem_erase_of_ne ?_).mpr hm, hpid, hrange⟩
      rintro rfl
      exact hold.2 ⟨hpid.symm, hrange⟩
    · rw [if_pos hopens]
      obtain ⟨k, n', base, rb, rb', hbase, _, _, _, hopened, _, hgiven⟩ :=
        hsound.opened hrun hr hopens
      by_cases hnew : pid = c.pid ∧ n ≤ n' ∧ n' < n + 33
      · obtain ⟨rfl, hrange⟩ := hnew
        rw [if_pos rfl, hopened.leaf, mapRing, if_pos hrange] at hleaf
        cases hleaf
        refine .inr ⟨⟨_, List.mem_cons_self, rfl, ?_⟩, rfl⟩
        rw [Mapping.page, hgiven, Option.getD_some, hbase.vpn]
        exact hrange
      · refine .inl ⟨?_, ?_⟩
        · by_cases hpid : pid = c.pid
          · rw [if_pos hpid, hopened.leaf, mapRing, if_neg fun hin => hnew ⟨hpid, hin⟩] at hleaf
            exact hpid ▸ hleaf
          · rwa [if_neg hpid] at hleaf
        · rintro ⟨m, hm, hrest⟩
          exact ⟨m, List.mem_cons_of_mem _ hm, hrest⟩
  · rw [if_pos hr]
    refine .inl ⟨?_, id⟩
    by_cases hpid : pid = c.pid
    · rw [if_pos hpid, hsound.leaf_failed hrun hcell hr] at hleaf
      exact hpid ▸ hleaf
    · rwa [if_neg hpid] at hleaf

end Leaves

theorem Initial.ledger [Image] {sys : Sys} (h : Initial sys) : Ledger sys [] := by
  refine ⟨by simp, by simp, List.Pairwise.nil, fun k => ?_, by simp⟩
  rw [h.rings]
  rfl

end Xv6Ringbuf.Kernel
