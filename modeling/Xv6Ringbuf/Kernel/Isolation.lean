import Xv6Ringbuf.Kernel.RefCount

namespace Xv6Ringbuf.Kernel

open Function

theorem mapsRing_iff (leaf : Nat → Option Pte) (n : Nat) (rb : Ringbuf) :
    (∀ i < 33, n < i ∨ leaf (n - i) = some (ringPte rb i)) ↔ MapsRing leaf n rb := by
  constructor
  · intro h m hm hm'
    have hi := (h (n - m) (by omega)).resolve_left (by omega)
    rwa [show n - (n - m) = m by omega] at hi
  · intro h i hi
    by_cases hle : n < i
    · exact .inl hle
    · have hm := h (n - i) (by omega) (by omega)
      rw [show n - (n - i) = i by omega] at hm
      exact .inr hm

instance (leaf : Nat → Option Pte) (n : Nat) (rb : Ringbuf) : Decidable (MapsRing leaf n rb) :=
  decidable_of_iff _ (mapsRing_iff leaf n rb)

-- Calls by any users that do no harm: a close gets the base of a mapping of the
-- ring that it names, an open of a ring in use gets a cell that can be written,
-- and a new ring goes to a slot without references.
structure Harmless (sys : Sys) (c : Call) : Prop where
  close : c.opens = 0 → ∀ k, findName sys.ringbufs c.name = some k →
    0 < (sys.ringbufs k).refcount ∧ closeBase (sys.state c) c.addr % PGSIZE = 0 ∧
    MapsRing (sys.pagetables c.pid).leaf (vpn (closeBase (sys.state c) c.addr)) (sys.ringbufs k)
  join : c.opens ≠ 0 → ∀ k, findName sys.ringbufs c.name = some k → 0 < (sys.ringbufs k).refcount →
    CellMapped (sys.pagetables c.pid) c.addr 8
  create : c.opens ≠ 0 → findName sys.ringbufs c.name = none →
    (sys.ringbufs (openSlot sys.ringbufs c.name)).refcount ≤ 0

instance (sys : Sys) (c : Call) : Decidable (Harmless sys c) :=
  decidable_of_iff (_ ∧ _ ∧ _) ⟨fun h => ⟨h.1, h.2.1, h.2.2⟩, fun h => ⟨h.close, h.join, h.create⟩⟩

-- A page that a process maps is not free. If it is a page of a ring with
-- references, then the process has it as a part of an open mapping.
def Covered (sys : Sys) (maps : List Mapping) : Prop :=
  ∀ pid n pte, (sys.pagetables pid).leaf n = some pte → pte.pa ∉ sys.freelist ∧
    ((∃ m ∈ maps, m.pid = pid ∧ n ≤ m.page ∧ m.page < n + 33) ∨
      ∀ k, 0 < (sys.ringbufs k).refcount → pte.pa ∉ (sys.ringbufs k).pages)

theorem dataPage_ne_book {rb : Ringbuf} (h : rb.pages.Nodup) (i : Nat) : dataPage rb i ≠ rb.book := by
  intro heq
  rw [Ringbuf.pages, List.nodup_append] at h
  exact h.2.2 (dataPage rb i) (List.mem_ofFn.mpr ⟨_, rfl⟩) rb.book (List.mem_singleton.mpr rfl) heq

section Close

variable {sys : Sys} {maps : List Mapping} (howned : Owned sys.freelist sys.ringbufs)
  (hledger : Ledger sys maps) (h : Covered sys maps)

include howned hledger h

theorem Covered.mapping {pid : Pid} {n : Nat} {k : Fin MAX_RINGBUFS}
    (hlive : 0 < (sys.ringbufs k).refcount)
    (hmaps : MapsRing (sys.pagetables pid).leaf n (sys.ringbufs k)) :
    ∃ m ∈ maps, m.pid = pid ∧ m.slot = k ∧ m.page = n := by
  have hcover : ∀ i, i ≤ n → i < 33 → ∃ m ∈ maps, m.pid = pid ∧ n - i ≤ m.page ∧
      m.page < n - i + 33 := by
    intro i hi hlt
    have hleaf := hmaps (n - i) (by omega) (by omega)
    rcases (h pid (n - i) _ hleaf).2 with hm | hnone
    · exact hm
    · exact absurd (ringPte_mem _ _) (hnone k hlive)
  obtain ⟨m₀, hm₀, _, _, hpage₀⟩ := hcover 0 (by omega) (by decide)
  have hlow := (hledger.at_base m₀ hm₀).2.1
  -- The book page tells where the mapping is.
  obtain ⟨m, hm, hpid, hpage, hpage'⟩ := hcover 32 (by omega) (by decide)
  have hleaf := hledger.mapped m hm (n - 32) hpage hpage'
  rw [hpid, hmaps (n - 32) (by omega) (by omega), show n - (n - 32) = 32 by omega] at hleaf
  have hpte := Option.some.inj hleaf
  have hslot : m.slot = k := by
    by_contra hne
    have hmem := ringPte_mem (sys.ringbufs k) 32
    rw [hpte] at hmem
    exact howned.apart m.slot k (hledger.live hm) hlive hne _ (ringPte_mem _ _) hmem
  refine ⟨m, hm, hpid, hslot, ?_⟩
  rw [hslot] at hpte
  by_contra hne
  have hpa := congrArg Pte.pa hpte
  simp only [ringPte, if_neg (show ¬32 < 32 by omega)] at hpa
  rw [if_pos (by omega)] at hpa
  exact dataPage_ne_book (howned.pages k hlive) _ hpa.symm

theorem Covered.proper {c : Call} (hharmless : Harmless sys c) : Proper sys maps c := by
  constructor
  · intro hopens _ hfind
    obtain ⟨k, hfind⟩ := Option.ne_none_iff_exists'.mp hfind
    obtain ⟨hlive, hmod, hmaps⟩ := hharmless.close hopens k hfind
    obtain ⟨m, hm, hpid, hslot, hpage⟩ := h.mapping howned hledger hlive hmaps
    have hbase : m.base = closeBase (sys.state c) c.addr := by
      have heq := (hledger.at_base m hm).1.eq
      have hmod' := congrArg UInt64.toNat hmod
      rw [UInt64.toNat_mod, toNat_PGSIZE, show (0 : UInt64).toNat = 0 by rfl] at hmod'
      apply UInt64.toNat_inj.mp
      rw [heq, hpage]
      unfold vpn
      omega
    have hname : m.name = key c.name := by
      rw [hledger.named m hm, hslot]
      exact findName_eq_some hfind
    have hclosing : closing sys c = m := by
      rw [closing, openSlot, hfind, Option.getD_some, ← hpid, ← hname, ← hslot, ← hbase]
    rw [hclosing]
    exact hm
  · intro hopens _ hfind
    exact hharmless.create hopens hfind

end Close

section Next

variable [Image] {sys : Sys} {c : Call} {r : Int32} {s' : State} {maps : List Mapping}
  (hsound : Sound sys) (hrun : sys.run c = .ok (r, s'))
  (howned : Owned sys.freelist sys.ringbufs) (hledger : Ledger sys maps) (h : Covered sys maps)
  (hharmless : Harmless sys c)

include h

omit [Image] in
theorem Covered.kept {pid : Pid} {n : Nat} {pte : Pte} {maps' : List Mapping}
    (hleaf : (sys.pagetables pid).leaf n = some pte)
    (hfree : pte.pa ∉ sys.freelist → pte.pa ∉ s'.freelist)
    (hmaps : ∀ m ∈ maps, m.pid = pid → n ≤ m.page → m.page < n + 33 → m ∈ maps')
    (hrings : ∀ k, 0 < (s'.ringbufs k).refcount → pte.pa ∈ (s'.ringbufs k).pages →
      pte.pa ∈ sys.freelist ∨ 0 < (sys.ringbufs k).refcount ∧ pte.pa ∈ (sys.ringbufs k).pages) :
    pte.pa ∉ s'.freelist ∧ ((∃ m ∈ maps', m.pid = pid ∧ n ≤ m.page ∧ m.page < n + 33) ∨
      ∀ k, 0 < (s'.ringbufs k).refcount → pte.pa ∉ (s'.ringbufs k).pages) := by
  obtain ⟨hoff, hcover⟩ := h pid n pte hleaf
  refine ⟨hfree hoff, ?_⟩
  rcases hcover with ⟨m, hm, hpid, hle, hlt⟩ | hnone
  · exact .inl ⟨m, hmaps m hm hpid hle hlt, hpid, hle, hlt⟩
  · right
    intro k hlive hmem
    rcases hrings k hlive hmem with hmem | ⟨hlive, hmem⟩
    · exact hoff hmem
    · exact hnone k hlive hmem

include hsound hrun howned

theorem Covered.next_opened (hr : r = 0) (hopens : c.opens ≠ 0) :
    Covered (sys.next c s') (⟨c.pid, key c.name, openSlot sys.ringbufs c.name, s'.given.getD 0⟩ :: maps) := by
  have howned' := hsound.owned hrun howned
  obtain ⟨k, n, base, rb, rb', hbase, _, _, hsource, hopened, hrings, hgiven⟩ :=
    hsound.opened hrun hr hopens
  have hentry : s'.ringbufs k = { rb' with refcount := rb'.refcount + 1 } := by
    rw [hrings, update_self]
  have hlive : 0 < (s'.ringbufs k).refcount := by
    have hpos := hsource.refcount_nonneg
    rw [hentry]
    change 0 < rb'.refcount + 1
    rw [hopened.refcount]
    omega
  intro pid m pte hleaf
  rw [Sys.next_pagetables] at hleaf
  by_cases hnew : pid = c.pid ∧ m ≤ n ∧ n < m + 33
  · obtain ⟨rfl, hm, hm'⟩ := hnew
    rw [if_pos rfl, hopened.leaf, mapRing, if_pos ⟨hm, hm'⟩] at hleaf
    cases hleaf
    have hmem : (ringPte rb' (n - m)).pa ∈ (s'.ringbufs k).pages := by
      rw [hentry]
      exact ringPte_mem rb' (n - m)
    refine ⟨howned'.off k hlive _ hmem, .inl ⟨_, List.mem_cons_self, rfl, ?_⟩⟩
    rw [hgiven, Option.getD_some, Mapping.page, hbase.vpn]
    exact ⟨hm, hm'⟩
  · have hold : (sys.pagetables pid).leaf m = some pte := by
      by_cases hpid : pid = c.pid
      · rw [if_pos hpid, hopened.leaf, mapRing, if_neg fun hin => hnew ⟨hpid, hin⟩] at hleaf
        rw [hpid]
        exact hleaf
      · rwa [if_neg hpid] at hleaf
    refine h.kept hold (fun hoff hmem => hoff (hopened.free_subset hmem))
      (fun m hm _ _ _ => List.mem_cons_of_mem _ hm) ?_
    intro j hlive hmem
    by_cases heq : j = k
    · rw [heq, hentry] at hmem
      rcases hopened.mem_pages hmem with ⟨hne, hmem⟩ | ⟨_, hmem⟩
      · obtain ⟨rfl, hlive⟩ := hsource.live hne
        exact .inr (heq ▸ ⟨hlive, hmem⟩)
      · exact .inl hmem
    · rw [hrings, update_of_ne heq] at hlive hmem
      exact .inr ⟨hlive, hmem⟩

theorem Covered.next_failed (hharmless : Harmless sys c) (hledger : Ledger sys maps) (hr : r ≠ 0) :
    Covered (sys.next c s') maps := by
  have hsame : s' = sys.state c → Covered (sys.next c s') maps := by
    rintro rfl
    rwa [Sys.next_state]
  cases hsound.effect hrun with
  | refused hs => exact hsame hs
  | unknown hs => exact hsame hs
  | opened _ hopens heffect =>
    cases heffect with
    | refused hs => exact hsame hs
    | opened => exact absurd rfl hr
    | lost k n rb rb' _ _ hsource hopened hcell hrings _ =>
      -- A ring in use is not opened in vain.
      have hfresh : rb.refcount = 0 := by
        by_contra hne
        have hlive := (hsource.live hne).2
        cases hsource with
        | create => exact hne rfl
        | append hfind =>
          apply hcell
          apply (hharmless.join hopens k hfind hlive).mono
          intro m pte hleaf
          rw [hopened.leaf, mapRing, if_neg]
          · exact hleaf
          · rintro ⟨hm, hm'⟩
            have hnone := hopened.unmapped m hm hm'
            change (sys.pagetables c.pid).leaf m = none at hnone
            rw [hleaf] at hnone
            cases hnone
      obtain ⟨popped, hfree, hsub, _⟩ := hopened.free
      have hnodup := howned.nodup
      change sys.freelist = popped ++ s'.freelist at hfree
      rw [hfree, List.nodup_append] at hnodup
      intro pid m pte hleaf
      rw [Sys.next_pagetables] at hleaf
      by_cases hnew : pid = c.pid ∧ m ≤ n ∧ n < m + 33
      · rw [if_pos hnew.1, hopened.leaf, mapRing, if_pos hnew.2] at hleaf
        cases hleaf
        have hmem := (hsub hfresh).subset (ringPte_mem rb' (n - m))
        refine ⟨fun hmem' => hnodup.2.2 _ hmem _ hmem' rfl, .inr fun j hlive hmem' => ?_⟩
        obtain ⟨hlive, heq⟩ := hrings.mem_live hlive
        refine howned.off j hlive _ ?_ (hfree ▸ List.mem_append_left _ hmem)
        change _ ∈ (s'.ringbufs j).pages at hmem'
        rwa [heq] at hmem'
      · have hold : (sys.pagetables pid).leaf m = some pte := by
          by_cases hpid : pid = c.pid
          · rw [if_pos hpid, hopened.leaf, mapRing, if_neg fun hin => hnew ⟨hpid, hin⟩] at hleaf
            rw [hpid]
            exact hleaf
          · rwa [if_neg hpid] at hleaf
        refine h.kept hold (fun hoff hmem => hoff (hopened.free_subset hmem))
          (fun m hm _ _ _ => hm) ?_
        intro j hlive hmem
        obtain ⟨hlive, heq⟩ := hrings.mem_live hlive
        rw [heq] at hmem
        exact .inr ⟨hlive, hmem⟩
  | closed k hcount hopens hfind heffect =>
    cases heffect with
    | miscounted hwalk =>
      have hfound : findName sys.ringbufs c.name ≠ none := Option.ne_none_iff_exists'.mpr ⟨k, hfind⟩
      have hwalk' := hledger.walkaddr_ne_zero hsound
        ((h.proper howned hledger hharmless).close hopens hcount hfound)
      simp only [closing] at hwalk'
      exact absurd hwalk hwalk'
    | unmapped => exact absurd rfl hr
    | freed => exact absurd rfl hr

theorem Covered.next_closed (hproper : Proper sys maps c) (hledger : Ledger sys maps) (hr : r = 0)
    (hopens : c.opens = 0) : Covered (sys.next c s') (maps.erase (closing sys c)) := by
  have hledger' := hledger.next_closed hsound hrun hproper hr hopens
  obtain ⟨k, hcount, hfind, hleaf', hrefcount, hfree⟩ := hsound.closed hrun hr hopens
  have hclosing := hproper.close hopens hcount (Option.ne_none_iff_exists'.mpr ⟨k, hfind⟩)
  have hslot : (closing sys c).slot = k := by
    rw [closing, openSlot, hfind, Option.getD_some]
  have hlive : 0 < (sys.ringbufs k).refcount := hslot ▸ hledger.live hclosing
  -- What is left of the page tables, and the mapping that a place is a part of.
  have hold : ∀ pid m pte, ((sys.next c s').pagetables pid).leaf m = some pte →
      (sys.pagetables pid).leaf m = some pte ∧ ∀ mp ∈ maps, mp.pid = pid → m ≤ mp.page →
        mp.page < m + 33 → mp ∈ maps.erase (closing sys c) := by
    intro pid m pte hleaf
    rw [Sys.next_pagetables] at hleaf
    by_cases hpid : pid = c.pid
    · rw [if_pos hpid, hleaf', unmapRing] at hleaf
      split at hleaf
      · cases hleaf
      · rename_i hrange
        refine ⟨hpid ▸ hleaf, fun mp hmp _ hle hlt => ?_⟩
        refine (List.mem_erase_of_ne ?_).mpr hmp
        rintro rfl
        exact hrange ⟨hle, hlt⟩
    · rw [if_neg hpid] at hleaf
      refine ⟨hleaf, fun mp hmp hpid' _ _ => (List.mem_erase_of_ne ?_).mpr hmp⟩
      rintro rfl
      exact hpid hpid'.symm
  have hrings : ∀ j, 0 < (s'.ringbufs j).refcount →
      0 < (sys.ringbufs j).refcount ∧ (s'.ringbufs j).pages = (sys.ringbufs j).pages := by
    intro j hlive'
    have hlive : 0 < (sys.ringbufs j).refcount := by
      rw [hrefcount] at hlive'
      split at hlive' <;> omega
    refine ⟨hlive, ?_⟩
    have hsame := ((hsound.effect hrun).sameRing hlive).resolve_right fun h => absurd hopens h.2.1
    rw [Ringbuf.pages, Ringbuf.pages, hsame.buf, hsame.book]
  intro pid m pte hleaf
  obtain ⟨hleaf, hmaps⟩ := hold pid m pte hleaf
  refine h.kept hleaf ?_ hmaps ?_
  · -- A page that is freed is not part of another mapping.
    intro hoff hmem
    rcases hfree pte.pa hmem with hmem | ⟨hone, hmem⟩
    · exact hoff hmem
    · rcases (h pid m pte hleaf).2 with ⟨mp, hmp, hpid, hle, hlt⟩ | hnone
      · have hslot' : mp.slot ≠ k := by
          rintro rfl
          have hlive' := hledger'.live (hmaps mp hmp hpid hle hlt)
          change 0 < (s'.ringbufs mp.slot).refcount at hlive'
          rw [hrefcount, if_pos rfl, hone] at hlive'
          exact absurd hlive' (by decide)
        have hpte := hledger.mapped mp hmp m hle hlt
        rw [hpid, hleaf] at hpte
        have hmem' := ringPte_mem (sys.ringbufs mp.slot) (mp.page - m)
        rw [← Option.some.inj hpte] at hmem'
        exact howned.apart mp.slot k (hledger.live hmp) hlive hslot' _ hmem' hmem
      · exact hnone k hlive hmem
  · intro j hlive hmem
    obtain ⟨hlive, hpages⟩ := hrings j hlive
    rw [hpages] at hmem
    exact .inr ⟨hlive, hmem⟩

theorem Covered.next (hharmless : Harmless sys c) (hledger : Ledger sys maps) :
    Covered (sys.next c s') (ledger sys c r s' maps) := by
  rw [ledger]
  by_cases hr : r = 0
  · rw [if_neg (not_not.mpr hr)]
    by_cases hopens : c.opens = 0
    · rw [if_neg (not_not.mpr hopens)]
      exact h.next_closed hsound hrun howned (h.proper howned hledger hharmless) hledger hr hopens
    · rw [if_pos hopens]
      exact h.next_opened hsound hrun howned hr hopens
  · rw [if_pos hr]
    exact h.next_failed hsound hrun howned hharmless hledger hr

end Next

theorem Initial.covered [Image] {sys : Sys} (h : Initial sys) : Covered sys [] :=
  fun pid n pte hleaf => ⟨h.mapped pid n pte hleaf, .inr fun k hlive => absurd hlive (h.dead k)⟩

def othersRefs (sys : Sys) (maps : List Mapping) (pid : Pid) (k : Fin MAX_RINGBUFS) : Int :=
  (sys.ringbufs k).refcount - (maps.countP fun m => m.pid = pid ∧ m.slot = k : Nat)

theorem Ledger.othersRefs_eq {sys : Sys} {maps : List Mapping} (h : Ledger sys maps) (pid : Pid)
    (k : Fin MAX_RINGBUFS) :
    othersRefs sys maps pid k = (maps.countP fun m => m.pid ≠ pid ∧ m.slot = k : Nat) := by
  rw [othersRefs, h.count k]
  have hsplit : (maps.countP fun m => m.slot = k) =
      (maps.countP fun m => m.pid = pid ∧ m.slot = k) +
        maps.countP fun m => m.pid ≠ pid ∧ m.slot = k := by
    clear h
    induction maps with
    | nil => rfl
    | cons m maps ih =>
      rw [List.countP_cons, List.countP_cons, List.countP_cons, ih]
      by_cases hpid : m.pid = pid
      · by_cases hk : m.slot = k
        · simp [hpid, hk]
          omega
        · simp [hpid, hk]
      · by_cases hk : m.slot = k
        · simp [hpid, hk]
          omega
        · simp [hpid, hk]
  omega

theorem countP_ledger (sys : Sys) (c : Call) (r : Int32) (s' : State) (maps : List Mapping)
    (k : Fin MAX_RINGBUFS) :
    ((ledger sys c r s' maps).countP fun m => m.pid ≠ c.pid ∧ m.slot = k) =
      maps.countP fun m => m.pid ≠ c.pid ∧ m.slot = k := by
  rw [ledger]
  by_cases hr : r ≠ 0
  · rw [if_pos hr]
  · rw [if_neg hr]
    by_cases hopens : c.opens ≠ 0
    · rw [if_pos hopens, List.countP_cons, if_neg (by simp), Nat.add_zero]
    · rw [if_neg hopens]
      by_cases hmem : closing sys c ∈ maps
      · rw [(List.perm_cons_erase hmem).countP_eq, List.countP_cons, if_neg (by simp [closing]),
          Nat.add_zero]
      · rw [List.erase_of_not_mem hmem]

-- In every run of harmless calls, no page that a process maps is free, and no
-- call takes away references of other processes.
theorem mapped_pages_not_free [Image] {sys₀ sys : Sys} {maps : List Mapping} (hinit : Initial sys₀)
    (hrun : Run ledger (fun sys _ c => Harmless sys c) (sys₀, []) (sys, maps)) :
    (∀ pid n pte, (sys.pagetables pid).leaf n = some pte → pte.pa ∉ sys.freelist) ∧
    ∀ c r s', Harmless sys c → sys.run c = .ok (r, s') → ∀ k,
      othersRefs sys maps c.pid k ≤
        othersRefs (sys.next c s') (ledger sys c r s' maps) c.pid k := by
  have hinv : Sound sys ∧ Owned sys.freelist sys.ringbufs ∧ Ledger sys maps ∧ Covered sys maps := by
    refine Run.invariant (P := fun sys maps => Sound sys ∧ Owned sys.freelist sys.ringbufs ∧
      Ledger sys maps ∧ Covered sys maps) hrun
      ⟨hinit.sound, hinit.owned, hinit.ledger, hinit.covered⟩ ?_
    rintro sys maps c r s' ⟨hsound, howned, hledger, hcovered⟩ hharmless hstep
    exact ⟨hsound.next hstep, hsound.owned hstep howned,
      hledger.next hsound hstep (hcovered.proper howned hledger hharmless),
      hcovered.next hsound hstep howned hharmless hledger⟩
  obtain ⟨hsound, howned, hledger, hcovered⟩ := hinv
  refine ⟨fun pid n pte hleaf => (hcovered pid n pte hleaf).1, ?_⟩
  intro c r s' hharmless hstep k
  have hledger' := hledger.next hsound hstep (hcovered.proper howned hledger hharmless)
  rw [hledger.othersRefs_eq, hledger'.othersRefs_eq, countP_ledger]

theorem mapped_pages_not_free_joined : ∃ (sys : Sys) (m : Mapping),
    @Run smallImage _ ledger (fun sys _ c => Harmless sys c) (smallSys 80, []) (sys, [m]) ∧
    ∀ pid n pte, (sys.pagetables pid).leaf n = some pte → pte.pa ∉ sys.freelist := by
  let _ := smallImage
  have hplay : (play ledger (fun sys _ c => Harmless sys c) (smallSys 80, [])
      [⟨1, [97, 0], 1, 0, fun _ => 0⟩, ⟨2, [97, 0], 1, 0, fun _ => 0⟩,
        ⟨1, [97, 0], 0, 0, withCell 0x87ffe000 0x3fffffc000⟩]).map Prod.snd =
          some [⟨2, key [97], 0, 0x3fffffb000⟩] := by decide +kernel
  obtain ⟨⟨sys, maps⟩, hplay, hmaps⟩ := Option.map_eq_some_iff.mp hplay
  obtain rfl : maps = _ := hmaps
  have hrun := run_of_play hplay
  exact ⟨sys, _, hrun, (mapped_pages_not_free (smallSys_initial (by decide)) hrun).1⟩

-- A process opens a ring, another one opens a second ring and closes the first
-- one with the base of the second one. The pages of the first ring are freed while
-- its process still maps them, and its reference is gone.
theorem foreign_close_frees_mapped_page : ∃ (sys : Sys) (maps : List Mapping),
    @Initial smallImage (smallSys 80) ∧
    @Run smallImage _ ledger (fun _ _ _ => True) (smallSys 80, []) (sys, maps) ∧
    (∃ n pte, (sys.pagetables 1).leaf n = some pte ∧ pte.pa ∈ sys.freelist) ∧
    (⟨1, key [97], 0, 0x3fffffc000⟩ : Mapping) ∈ maps ∧ (sys.ringbufs 0).refcount = 0 := by
  let _ := smallImage
  have hplay : (play ledger (fun _ _ _ => True) (smallSys 80, [])
      [⟨1, [97, 0], 1, 0, fun _ => 0⟩, ⟨2, [98, 0], 1, 0, fun _ => 0⟩,
        ⟨2, [97, 0], 0, 0, withCell 0x87ffd000 0x3fffffc000⟩]).map
          (fun w => decide ((((w.1.pagetables 1).leaf 67108860).map fun pte =>
            decide (pte.pa ∈ w.1.freelist)) = some true ∧
            (⟨1, key [97], 0, 0x3fffffc000⟩ : Mapping) ∈ w.2 ∧
            (w.1.ringbufs 0).refcount = 0)) = some true := by
    decide +kernel
  obtain ⟨⟨sys, maps⟩, hplay, hbad⟩ := Option.map_eq_some_iff.mp hplay
  obtain ⟨hfree, hheld, hgone⟩ := of_decide_eq_true hbad
  obtain ⟨pte, hleaf, hmem⟩ := Option.map_eq_some_iff.mp hfree
  exact ⟨sys, maps, smallSys_initial (by decide), run_of_play hplay,
    ⟨_, pte, hleaf, of_decide_eq_true hmem⟩, hheld, hgone⟩

end Xv6Ringbuf.Kernel
