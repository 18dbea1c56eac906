import Xv6Ringbuf.Kernel.RefCount

namespace Xv6Ringbuf.Kernel

instance (sys : Sys) (maps : List Mapping) (c : Call) : Decidable (Orderly sys maps c) :=
  inferInstanceAs (Decidable (_ ∧ _))

structure Closes (sys : Sys) (m : Mapping) (c : Call) : Prop where
  pid : c.pid = m.pid
  opens : c.opens = 0
  name : key c.name = m.name
  length : ∃ len ≤ 16, strlen c.name = some len
  holds : Holds (sys.pagetables c.pid) c.mem c.addr m.base

-- There is room for one more name, and the eight bytes of physical memory that
-- the kernel reads are the base.
def Served (sys : Sys) (m : Mapping) (c : Call) : Prop :=
  getRingbufIndex sys.ringbufs < MAX_RINGBUFS ∧ Readable (cell (sys.pagetables c.pid) c.addr) ∧
    closeBase (sys.state c) c.addr = m.base

theorem readable_cell [Image] {pt : Pagetable} {addr : UInt64}
    (huser : ∀ n pte, pt.leaf n = some pte → pte.perm.u = true → ValidPage pte.pa)
    (hwalk : pt.walkaddr addr ≠ 0) (hcell : addr % 4096 ≤ 4088) : Readable (cell pt addr) := by
  obtain ⟨_, pte, hleaf, hu, hpa⟩ := leaf_of_walkaddr hwalk
  have hbounds := (huser _ _ hleaf hu).bounds
  rw [UInt64.le_iff_toNat_le, show (4088 : UInt64).toNat = 4088 by rfl] at hcell
  have hsum : (cell pt addr).toNat = pte.pa.toNat + (addr % 4096).toNat := by
    rw [cell, ← hpa, UInt64.toNat_add]
    omega
  constructor
  · rw [UInt64.le_iff_toNat_le, hsum, show KERNBASE.toNat = 0x80000000 by rfl]
    omega
  · rw [UInt64.le_iff_toNat_le, hsum, show (PHYSTOP - 8).toNat = 0x87fffff8 by rfl]
    omega

theorem Closes.served [Image] {sys : Sys} (h : Sound sys) {m : Mapping} {c : Call}
    (hc : Closes sys m c) (hcell : c.addr % 4096 ≤ 4088)
    (hcount : getRingbufIndex sys.ringbufs < MAX_RINGBUFS) : Served sys m c := by
  refine ⟨hcount, readable_cell (h.user c.pid) ?_ hcell, hc.holds.word hcell⟩
  have hzero := hc.holds.1 0 (by decide)
  rwa [show UInt64.ofNat 0 = 0 by rfl, UInt64.add_zero, walkaddr_roundDown] at hzero

theorem unmapRing_inj {leaf : Nat → Option Pte} {rb : Ringbuf} {n k : Nat} (hn : 32 ≤ n)
    (hmapped : MapsRing leaf n rb)
    (hgone : ∀ i, i ≤ n → n < i + 33 → unmapRing leaf k i = none) : k = n := by
  have hrange : ∀ i, i ≤ n → n < i + 33 → i ≤ k ∧ k < i + 33 := by
    intro i hi hi'
    by_contra hout
    have hnone := hgone i hi hi'
    rw [unmapRing, if_neg hout, hmapped i hi hi'] at hnone
    cases hnone
  have hhigh := hrange n (by omega) (by omega)
  have hlow := hrange (n - 32) (by omega) (by omega)
  omega

section Close

variable [Image] {sys : Sys} {maps : List Mapping} (h : Kept sys maps) {m : Mapping} {c : Call}
  (hm : m ∈ maps) (hc : Closes sys m c)

include h hm hc

theorem Closes.findName : findName sys.ringbufs c.name = some m.slot :=
  h.ledger.findName h.named (hc.name ▸ (h.slot_name hm).2) hm hc.name.symm

theorem Closes.closeOk (hserved : Served sys m c) : CloseOk (sys.state c) m.slot c.addr := by
  obtain ⟨_, hreadable, hbase⟩ := hserved
  refine ⟨hreadable, ?_, fun _ _ => h.sound.valid.live m.slot (h.ledger.live hm)⟩
  intro _
  rw [hbase]
  obtain ⟨hat, hlow, _⟩ := h.ledger.at_base m hm
  refine ⟨hat.aligned.mod, by change 31 ≤ m.page; omega, ?_⟩
  intro i hi hi'
  have hleaf := h.ledger.mapped m hm i hi hi'
  rw [← hc.pid] at hleaf
  exact ⟨_, hleaf, show permRing ≠ _ by decide, by simp⟩

theorem Closes.ringOk (hserved : Served sys m c) :
    RingOk (sys.state c) c.name c.opens c.addr := by
  obtain ⟨len, hle, hlen⟩ := hc.length
  refine .inr ⟨len, hlen, .inr ?_⟩
  rw [DispatchOk, show Kernel.findName (sys.state c).ringbufs c.name = _ from hc.findName h hm]
  exact ⟨fun hopens => absurd hc.opens hopens, fun _ => hc.closeOk h hm hserved⟩

theorem Closes.result (hserved : Served sys m c) {r : Int32} {s' : State}
    (hrun : sys.run c = .ok (r, s')) : r = 0 := by
  obtain ⟨hcount, _, hbase⟩ := hserved
  obtain ⟨len, hle, hlen⟩ := hc.length
  cases h.sound.effect hrun with
  | refused _ hwhy => exact absurd hwhy (not_refused_early hcount hlen hle)
  | unknown _ _ hnone =>
    change Kernel.findName sys.ringbufs c.name = none at hnone
    rw [hc.findName h hm] at hnone
    cases hnone
  | opened _ hopens => exact absurd hc.opens hopens
  | closed k _ _ _ heffect =>
    cases heffect with
    | miscounted hwalk =>
      have hwalk' := h.ledger.walkaddr_ne_zero h.sound hm
      rw [← hc.pid, ← hbase] at hwalk'
      exact absurd hwalk hwalk'
    | unmapped => rfl
    | freed => rfl

theorem Closes.closes (hserved : Served sys m c) :
    ∃ s', sys.run c = .ok (0, s') ∧
      ∀ i, i ≤ m.page → m.page < i + 33 → s'.pagetable.leaf i = none := by
  obtain ⟨r, s', hrun⟩ := h.sound.returns (hc.ringOk h hm hserved)
  obtain rfl := hc.result h hm hserved hrun
  obtain ⟨k, _, _, hleaf, _⟩ := h.sound.closed hrun rfl hc.opens
  refine ⟨s', hrun, fun i hi hi' => ?_⟩
  rw [hleaf, hserved.2.2, unmapRing, if_pos ⟨hi, hi'⟩]

theorem Closes.served_of_closed {s' : State} (hrun : sys.run c = .ok (0, s'))
    (hgone : ∀ i, i ≤ m.page → m.page < i + 33 → s'.pagetable.leaf i = none) : Served sys m c := by
  obtain ⟨k, hcount, hfind, hleaf, _⟩ := h.sound.closed hrun rfl hc.opens
  obtain ⟨hat, hlow, _⟩ := h.ledger.at_base m hm
  have hmapped := h.ledger.mapped m hm
  rw [← hc.pid] at hmapped
  have hpage : vpn (closeBase (sys.state c) c.addr) = m.page :=
    unmapRing_inj (by omega) hmapped (fun i hi hi' => hleaf ▸ hgone i hi hi')
  obtain ⟨hreadable, hunmappable⟩ := h.sound.unmappable hrun rfl hc.opens
  have hmod := hunmappable.mod
  refine ⟨hcount, hreadable, UInt64.toNat_inj.mp ?_⟩
  rw [hat.eq, ← hpage, vpn]
  omega

end Close

theorem Kept.open_result [Image] {sys : Sys} {maps : List Mapping} (h : Kept sys maps) {c : Call}
    {len : Nat} {r : Int32} {s' : State} (hopens : c.opens ≠ 0) (hle : len ≤ 16)
    (hlen : strlen c.name = some len) (hrun : sys.run c = .ok (r, s')) :
    r = 0 ↔ getRingbufIndex sys.ringbufs < MAX_RINGBUFS ∧
      (sys.pagetables c.pid).room ≠ none ∧ CellMapped s'.pagetable c.addr 8 := by
  cases h.sound.effect hrun with
  | refused _ hwhy =>
    refine iff_of_false (by decide) ?_
    rintro ⟨hcount, _⟩
    exact not_refused_early hcount hlen hle hwhy
  | unknown _ hclose => exact absurd hclose hopens
  | closed _ _ hclose => exact absurd hclose hopens
  | opened hcount _ heffect =>
    cases heffect with
    | opened _ _ _ _ _ _ _ _ _ _ hcell _ _ hplaced =>
      exact iff_of_true rfl ⟨hcount, hplaced.room, hcell⟩
    | lost _ _ _ _ _ _ _ _ hcell => exact iff_of_false (by decide) fun hjoin => hcell hjoin.2.2
    | refused _ hwhy =>
      refine iff_of_false (by decide) ?_
      rintro ⟨_, hroom, _⟩
      rcases hwhy with hnone | ⟨j, hj, hneg⟩
      · exact hroom hnone
      · exact absurd hneg (Int.not_lt.mpr (h.ledger.refcount_nonneg j))

-- In every run of orderly and tidy calls: a close of an open mapping removes it
-- exactly when the table has a free entry and the kernel reads the base, and an
-- open, of a new ring or of one that exists, succeeds exactly when there is a free
-- entry, room in the address space and a mapped cell for the answer.
theorem open_ring_closes_and_joins [Image] {sys₀ sys : Sys} {maps : List Mapping}
    (hinit : Initial sys₀)
    (hrun : Run ledger (fun sys maps c => Orderly sys maps c ∧ Tidy sys c) (sys₀, []) (sys, maps)) :
    (∀ m ∈ maps, ∀ c, Closes sys m c →
      ((∃ s', sys.run c = .ok (0, s') ∧
        ∀ i, i ≤ m.page → m.page < i + 33 → s'.pagetable.leaf i = none) ↔ Served sys m c)) ∧
    ∀ c len r s', c.opens ≠ 0 → len ≤ 16 → strlen c.name = some len → sys.run c = .ok (r, s') →
      (r = 0 ↔ getRingbufIndex sys.ringbufs < MAX_RINGBUFS ∧
        (sys.pagetables c.pid).room ≠ none ∧ CellMapped s'.pagetable c.addr 8) := by
  have h : Kept sys maps := Kept.run hinit (fun _ _ _ hallowed => hallowed) hrun
  refine ⟨fun m hm c hc => ⟨?_, hc.closes h hm⟩, fun c len r s' => h.open_result⟩
  rintro ⟨s', hclosed, hgone⟩
  exact hc.served_of_closed h hm hclosed hgone

theorem open_ring_closes_and_joins_two : ∃ (sys : Sys) (maps : List Mapping) (s' : State),
    @Run smallImage _ ledger (fun sys maps c => Orderly sys maps c ∧ Tidy sys c)
      (smallSys 80, []) (sys, maps) ∧
    @Sys.run smallImage sys ⟨2, [97, 0], 0, 0, withCell 0x87ffd000 0x3fffffb000⟩ = .ok (0, s') := by
  let _ := smallImage
  let c : Call := ⟨2, [97, 0], 0, 0, withCell 0x87ffd000 0x3fffffb000⟩
  let m : Mapping := ⟨2, key [97], 0, 0x3fffffb000⟩
  have hplay : (play ledger (fun sys maps c => Orderly sys maps c ∧ Tidy sys c) (smallSys 80, [])
      [⟨1, [97, 0], 1, 0, fun _ => 0⟩, ⟨2, [97, 0], 1, 0, fun _ => 0⟩]).map
        (fun w => decide (m ∈ w.2 ∧ Holds (w.1.pagetables 2) c.mem c.addr m.base ∧
          getRingbufIndex w.1.ringbufs < MAX_RINGBUFS)) = some true := by decide +kernel
  obtain ⟨⟨sys, maps⟩, hplay, hfacts⟩ := Option.map_eq_some_iff.mp hplay
  obtain ⟨hm, hholds, hcount⟩ := of_decide_eq_true hfacts
  have hrun := run_of_play hplay
  have hc : Closes sys m c := ⟨rfl, rfl, by decide, ⟨1, by decide, by decide⟩, hholds⟩
  have hinit := smallSys_initial (show 80 ≤ 256 by decide)
  have hsound := (Kept.run hinit (fun _ _ _ hallowed => hallowed) hrun).sound
  obtain ⟨s', hclose, _⟩ := ((open_ring_closes_and_joins hinit hrun).1 m hm c hc).mpr
    (hc.served hsound (by decide) hcount)
  exact ⟨sys, maps, s', hrun, hclose⟩

-- Ten processes open a ring each. Then the first one cannot close its ring.
theorem open_ring_does_not_close : ∃ (sys : Sys) (maps : List Mapping) (m : Mapping) (c : Call),
    @Initial smallImage (smallSys 200) ∧
    @Run smallImage _ ledger (fun sys maps c => Orderly sys maps c ∧ Tidy sys c)
      (smallSys 200, []) (sys, maps) ∧
    m ∈ maps ∧ Closes sys m c ∧ ∃ s', @Sys.run smallImage sys c = .ok (-1, s') := by
  let _ := smallImage
  let c : Call := ⟨1, [97, 0], 0, 0, withCell 0x87ffe000 0x3fffffc000⟩
  let m : Mapping := ⟨1, key [97], 0, 0x3fffffc000⟩
  have hplay : (play ledger (fun sys maps c => Orderly sys maps c ∧ Tidy sys c) (smallSys 200, [])
      ((List.range 10).map fun i =>
        ⟨i + 1, [97 + UInt8.ofNat i, 0], 1, 0, fun _ => 0⟩)).map
        (fun w => decide (m ∈ w.2 ∧ Holds (w.1.pagetables 1) c.mem c.addr m.base ∧
          MAX_RINGBUFS ≤ getRingbufIndex w.1.ringbufs)) = some true := by decide +kernel
  obtain ⟨⟨sys, maps⟩, hplay, hfacts⟩ := Option.map_eq_some_iff.mp hplay
  obtain ⟨hm, hholds, hfull⟩ := of_decide_eq_true hfacts
  have hc : Closes sys m c := ⟨rfl, rfl, by decide, ⟨1, by decide, by decide⟩, hholds⟩
  have hinit := smallSys_initial (show 200 ≤ 256 by decide)
  have hsound := (Kept.run hinit (fun _ _ _ hallowed => hallowed) (run_of_play hplay)).sound
  obtain ⟨r, s', hrun⟩ := hsound.returns (c := c) (.inl hfull)
  have hr : r = -1 := by
    cases hsound.effect hrun with
    | refused => rfl
    | unknown => rfl
    | opened hcount => exact absurd hfull (Nat.not_le.mpr hcount)
    | closed _ hcount => exact absurd hfull (Nat.not_le.mpr hcount)
  exact ⟨sys, maps, m, c, hinit, run_of_play hplay, hm, hc, s', hr ▸ hrun⟩

end Xv6Ringbuf.Kernel
