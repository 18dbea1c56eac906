import Xv6Ringbuf.Kernel.Capacity

namespace Xv6Ringbuf.Kernel

open Machine Function

-- Each named slot has references and 17 pages of its own.
structure Registered [Image] (sys : Sys) : Prop where
  hole : ∀ pid, ∃ n, 0 < n ∧ n < 2 ^ 19 ∧ (sys.pagetables pid).leaf n = none
  user : ∀ pid n pte, (sys.pagetables pid).leaf n = some pte → pte.perm.u = true → ValidPage pte.pa
  free : ∀ pa ∈ sys.freelist, ValidPage pa
  nodup : sys.freelist.Nodup
  references : ∀ k, key (sys.ringbufs k).name ≠ key [] → 1 ≤ (sys.ringbufs k).refcount
  distinct : ∀ k, key (sys.ringbufs k).name ≠ key [] → (sys.ringbufs k).pages.Nodup
  pages : ∀ k, key (sys.ringbufs k).name ≠ key [] → ∀ pa ∈ (sys.ringbufs k).pages,
    ValidPage pa ∧ pa ∉ sys.freelist

theorem unmapRing_mapRing {leaf : Nat → Option Pte} {n : Nat} (rb : Ringbuf)
    (hnone : ∀ m, m ≤ n → n < m + 33 → leaf m = none) : unmapRing (mapRing leaf n rb) n = leaf := by
  funext m
  rw [unmapRing, mapRing]
  by_cases hin : m ≤ n ∧ n < m + 33
  · rw [if_pos hin, hnone m hin.1 hin.2]
  · rw [if_neg hin, if_neg hin]

section Open

variable [Image] {sys : Sys} (h : Registered sys) {name : List UInt8} {len : Nat}
  (hlen : strlen name = some len) (hpos : 1 ≤ len)

include h hlen hpos

variable {k : Fin MAX_RINGBUFS} {rb rb' : Ringbuf}

theorem Registered.source (hsource : Source sys.ringbufs name k rb) :
    findName sys.ringbufs name = none ∧ rb = newRing name ∨
      findName sys.ringbufs name = some k ∧ rb = sys.ringbufs k ∧ 1 ≤ rb.refcount ∧
        ∀ pa ∈ rb.pages, ValidPage pa := by
  cases hsource with
  | create hfind => exact .inl ⟨hfind, rfl⟩
  | append hfind =>
    have hnamed : key (sys.ringbufs k).name ≠ key [] := by
      rw [findName_eq_some hfind]
      exact key_ne_of_strlen hpos hlen
    exact .inr ⟨hfind, rfl, h.references k hnamed, fun pa hpa => (h.pages k hnamed pa hpa).1⟩

theorem Registered.openPages {s s₁ : State} {n : Nat} (hfree : s.freelist = sys.freelist)
    (hsource : Source sys.ringbufs name k rb) (hopened : Opened s s₁ n rb rb') :
    ∀ pa ∈ rb'.pages, ValidPage pa := by
  intro pa hpa
  rcases hopened.mem_pages hpa with ⟨hne, hpa⟩ | ⟨_, hpa⟩
  · rcases h.source hlen hpos hsource with ⟨_, rfl⟩ | ⟨_, _, _, hvalid⟩
    · exact absurd rfl hne
    · exact hvalid pa hpa
  · rw [hfree] at hpa
    exact h.free pa hpa

end Open

-- What an open and the close after it leave: the mappings as they were, and the
-- pages that the open took, but for page tables, back on the free list.
structure Restored (sys : Sys) (pid : Pid) (name : List UInt8) (s₁ s₂ : State) (sys₂ : Sys) : Prop where
  leaf : s₂.pagetable.leaf = (sys.pagetables pid).leaf
  others : ∀ other ≠ pid, sys₂.pagetables other = sys.pagetables other
  created : findName sys.ringbufs name = none → ∃ pages : List UInt64, pages.Nodup ∧ pages.length = 17 ∧
    (∀ pa ∈ pages, pa ∈ sys.freelist ∧ pa ∉ s₁.freelist) ∧ s₂.freelist.Perm (pages ++ s₁.freelist)
  joined : findName sys.ringbufs name ≠ none → s₂.freelist = s₁.freelist
  tables : ∃ n, sys.freelist.length =
    s₂.freelist.length + need (sys.pagetables pid).missing (window n 0 33)

theorem length_pages (rb : Ringbuf) : rb.pages.length = 17 := by
  rw [Ringbuf.pages, List.length_append, List.length_ofFn, List.length_singleton]

theorem Opened.fresh {s s₁ : State} {n : Nat} {rb rb' : Ringbuf} (h : Opened s s₁ n rb rb')
    (hnodup : s.freelist.Nodup) (hzero : rb.refcount = 0) :
    rb'.pages.Nodup ∧ ∀ pa ∈ rb'.pages, pa ∈ s.freelist ∧ pa ∉ s₁.freelist := by
  obtain ⟨popped, hfree, hsub, _⟩ := h.free
  rw [hfree, List.nodup_append] at hnodup
  refine ⟨hnodup.1.sublist (hsub hzero), fun pa hpa => ?_⟩
  have hpopped := (hsub hzero).subset hpa
  refine ⟨hfree ▸ List.mem_append_left _ hpopped, fun hin => ?_⟩
  exact hnodup.2.2 pa hpopped pa hin rfl

structure Closable [Image] (s : State) (name : List UInt8) (addr : UInt64) (k : Fin MAX_RINGBUFS)
    (n : Nat) (base : UInt64) : Prop where
  at_base : At base n
  low : 32 ≤ n
  find : findName s.ringbufs name = some k
  mapped : MapsRing s.pagetable.leaf n (s.ringbufs k)
  valid : ∀ pa ∈ (s.ringbufs k).pages, ValidPage pa
  holds : closeBase s addr = base
  readable : Readable (cell s.pagetable addr)

theorem Closable.closes [Image] {s : State} {name : List UInt8} {addr : UInt64} {k : Fin MAX_RINGBUFS}
    {n : Nat} {base : UInt64} (h : Closable s name addr k n base)
    (hcount : getRingbufIndex s.ringbufs < MAX_RINGBUFS) {len : Nat} (hlen : strlen name = some len)
    (hle : len ≤ RINGBUF_NAME_LEN) :
    ∃ s', (ringbuf name 0 addr).run s = .ok (0, s') ∧ s'.pagetable.leaf = unmapRing s.pagetable.leaf n ∧
      ((s.ringbufs k).refcount = 1 →
        ∃ freed, freed.Perm (s.ringbufs k).pages ∧ s'.freelist = freed ++ s.freelist) ∧
      ((s.ringbufs k).refcount ≠ 1 → s'.freelist = s.freelist) := by
  have hbase : s.pagetable.walkaddr base ≠ 0 := by
    rw [walkaddr_of_leaf h.at_base (h.mapped n (Nat.le_refl n) (by omega)) rfl]
    exact (h.valid _ (ringPte_mem _ _)).ne_zero
  have hvpn : vpn base = n := h.at_base.vpn
  have hclose : CloseOk s k addr := by
    refine ⟨h.readable, fun _ => ?_, fun _ _ => h.valid⟩
    rw [h.holds]
    refine ⟨h.at_base.aligned.mod, ?_, fun m hm hm' => ?_⟩
    · have hlow := h.low
      omega
    · rw [hvpn] at hm hm'
      exact ⟨_, h.mapped m hm hm', show permRing ≠ _ by decide, by simp⟩
  have hok : RingOk s name 0 addr := by
    refine .inr ⟨len, hlen, .inr ?_⟩
    unfold DispatchOk
    rw [h.find]
    exact ⟨fun hne => absurd rfl hne, fun _ => hclose⟩
  have hwp := ringbuf_wp name 0 addr (s := s) fun hne => absurd rfl hne
  obtain ⟨r, s', hrun, _, heffect⟩ :=
    (hwp.mono (fun _ _ hreturned => hreturned) fun _ hbad => hbad.1 hok).returns
  cases heffect with
  | refused _ hwhy => exact absurd hwhy (not_refused_early hcount hlen hle)
  | unknown _ _ hnone =>
    rw [h.find] at hnone
    cases hnone
  | opened _ hopen => exact absurd rfl hopen
  | closed j _ _ hfind hclosed =>
    rw [h.find] at hfind
    cases hfind
    rw [h.holds] at hclosed
    cases hclosed with
    | miscounted hwalk => exact absurd hwalk hbase
    | unmapped _ _ hleaf hfree href =>
      rw [hvpn] at hleaf
      exact ⟨s', hrun, hleaf, fun hone => absurd hone href, fun _ => hfree⟩
    | freed freed _ _ hleaf href _ hperm hfree =>
      rw [hvpn] at hleaf
      exact ⟨s', hrun, hleaf, fun _ => ⟨freed, hperm, hfree⟩, fun hne => absurd href hne⟩

-- A ring with a name of 1 to 15 characters that a process opens and closes at
-- once: the close succeeds and undoes the open.
theorem open_then_close_restores [Image] {sys : Sys} (h : Registered sys) (pid : Pid) {name : List UInt8}
    {len : Nat} (hlen : strlen name = some len) (hpos : 1 ≤ len) (hle : len ≤ 15) {addr : UInt64}
    (haddr : addr.toNat % 8 = 0) (mem : UInt64 → UInt8) {s₁ : State}
    (hopen : sys.run ⟨pid, name, 1, addr, mem⟩ = .ok (0, s₁))
    (hlive : getRingbufIndex s₁.ringbufs < MAX_RINGBUFS) :
    ∃ s₂, (sys.next ⟨pid, name, 1, addr, mem⟩ s₁).run ⟨pid, name, 0, addr, s₁.mem⟩ = .ok (0, s₂) ∧
      Restored sys pid name s₁ s₂
        ((sys.next ⟨pid, name, 1, addr, mem⟩ s₁).next ⟨pid, name, 0, addr, s₁.mem⟩ s₂) := by
  have heffect : Effect (sys.state ⟨pid, name, 1, addr, mem⟩) s₁ name 1 addr 0 :=
    ringbuf_effect ⟨h.hole pid, h.free⟩ hopen
  cases heffect with
  | closed _ _ hclose => cases hclose
  | opened _ _ hopenEffect =>
    cases hopenEffect with
    | opened k n base rb rb' hbase hlow hhigh hsource hopened hcell hrings hgiven _ htold =>
      have hentry : s₁.ringbufs k = { rb' with refcount := rb'.refcount + 1 } := by
        rw [hrings, update_self]
      have hvalid := h.openPages hlen hpos rfl hsource hopened
      have huser : ∀ n pte, s₁.pagetable.leaf n = some pte → pte.perm.u = true → ValidPage pte.pa := by
        intro m pte hleaf hu
        rw [hopened.leaf, mapRing] at hleaf
        split at hleaf
        · cases hleaf
          exact hvalid _ (ringPte_mem _ _)
        · exact h.user pid m pte hleaf hu
      have hwalk : s₁.pagetable.walkaddr addr ≠ 0 := by
        have hzero := hcell 0 (by decide)
        rwa [show UInt64.ofNat 0 = 0 by rfl, UInt64.add_zero, walkaddr_roundDown] at hzero
      have hoffset : addr % 4096 ≤ 4088 := by
        rw [UInt64.le_iff_toNat_le, UInt64.toNat_mod, show (4096 : UInt64).toNat = 4096 by rfl,
          show (4088 : UInt64).toNat = 4088 by rfl]
        omega
      have hstate : (sys.next ⟨pid, name, 1, addr, mem⟩ s₁).state ⟨pid, name, 0, addr, s₁.mem⟩ =
          { s₁ with reads := [], given := none } := by
        simp only [Sys.state, Sys.next, update_self]
      have hclosable : Closable { s₁ with reads := [], given := none } name addr k n base := by
        refine ⟨hbase, by omega, ?_, ?_, ?_, htold haddr base hgiven, readable_cell huser hwalk hoffset⟩
        · exact hsource.findName_opened hrings hopened.name
        · simp only [hentry, hopened.leaf]
          exact mapsRing_mapRing _ n rb'
        · simp only [hentry]
          exact hvalid
      obtain ⟨s₂, hclose, hleaf, hfreed, hkept⟩ := hclosable.closes hlive hlen (show len ≤ 16 by omega)
      simp only [hentry, hopened.refcount] at hfreed hkept
      obtain ⟨popped, hpopped, _, hcost⟩ := hopened.free
      have hlength := congrArg List.length hpopped
      rw [List.length_append, hcost, openCost] at hlength
      change sys.freelist.length = (if rb.refcount = 0 then 17 else 0) +
        need (sys.pagetables pid).missing (window n 0 33) + s₁.freelist.length at hlength
      refine ⟨s₂, ?_, ?_, ?_, ?_, ?_, n, ?_⟩
      · rw [Sys.run, hstate]
        exact hclose
      · rw [hleaf, hopened.leaf]
        exact unmapRing_mapRing rb' hopened.unmapped
      · intro other hother
        rw [Sys.next_pagetables, if_neg hother, Sys.next_pagetables, if_neg hother]
      · intro hcreate
        rcases h.source hlen hpos hsource with ⟨_, rfl⟩ | ⟨hfind, _⟩
        · obtain ⟨freed, hperm, hfree⟩ := hfreed rfl
          obtain ⟨hnodup, htaken⟩ := hopened.fresh h.nodup rfl
          refine ⟨rb'.pages, hnodup, length_pages rb', htaken, ?_⟩
          rw [hfree]
          exact hperm.append_right _
        · rw [hcreate] at hfind
          cases hfind
      · intro hjoin
        rcases h.source hlen hpos hsource with ⟨hfind, _⟩ | ⟨_, _, hrefs, _⟩
        · exact absurd hfind hjoin
        · exact hkept (by omega)
      · rcases h.source hlen hpos hsource with ⟨_, rfl⟩ | ⟨_, _, hrefs, _⟩
        · obtain ⟨freed, hperm, hfree⟩ := hfreed rfl
          have hfreedLength : freed.length = 17 := hperm.length_eq.trans (length_pages rb')
          rw [if_pos (show (newRing name).refcount = 0 by rfl)] at hlength
          rw [hfree, List.length_append, hfreedLength]
          omega
        · rw [if_neg (by omega)] at hlength
          rw [hkept (by omega)]
          omega

theorem open_then_close_restores_created : ∃ s₁ s₂,
    @Sys.run smallImage (smallSys 80) ⟨1, [97, 0], 1, 0, fun _ => 0⟩ = .ok (0, s₁) ∧
    @Sys.run smallImage ((smallSys 80).next ⟨1, [97, 0], 1, 0, fun _ => 0⟩ s₁)
      ⟨1, [97, 0], 0, 0, s₁.mem⟩ = .ok (0, s₂) ∧
    s₂.pagetable.leaf = ((smallSys 80).pagetables 1).leaf := by
  let _ := smallImage
  have hresult : ((smallSys 80).run ⟨1, [97, 0], 1, 0, fun _ => 0⟩).toOption.map (fun result =>
      (result.1, decide (getRingbufIndex result.2.ringbufs < MAX_RINGBUFS))) = some (0, true) := by
    decide +kernel
  obtain ⟨⟨r, s₁⟩, hok, hfacts⟩ := Option.map_eq_some_iff.mp hresult
  obtain ⟨rfl, hlive⟩ := Prod.mk.inj hfacts
  have hinit := smallSys_initial (show 80 ≤ 256 by decide)
  have hregistered : Registered (smallSys 80) :=
    ⟨hinit.hole, hinit.user, hinit.valid, hinit.nodup, fun k hnamed => absurd rfl hnamed,
      fun k hnamed => absurd rfl hnamed, fun k hnamed => absurd rfl hnamed⟩
  have hopen := ok_of_toOption hok
  obtain ⟨s₂, hclose, hrestored⟩ := open_then_close_restores hregistered 1
    (show strlen [97, 0] = some 1 by rfl) (by decide) (by decide) (by decide) (fun _ => 0) hopen (of_decide_eq_true hlive)
  exact ⟨s₁, s₂, hopen, hclose, hrestored.leaf⟩

end Xv6Ringbuf.Kernel
