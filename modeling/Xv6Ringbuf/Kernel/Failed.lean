import Xv6Ringbuf.Kernel.Syscall
import Xv6Ringbuf.Kernel.Refused

namespace Xv6Ringbuf.Kernel

open Machine

def opening (rbs : Ringbufs) (name : List UInt8) : Ringbuf :=
  match findName rbs name with
  | none => newRing name
  | some k => rbs k

variable {name : List UInt8} {k : Fin MAX_RINGBUFS} {rb : Ringbuf} {s : State} {n : Nat}

theorem Source.opening {rbs : Ringbufs} (h : Source rbs name k rb) : opening rbs name = rb := by
  cases h with
  | create hfind => simp only [Kernel.opening, hfind]
  | append hfind => simp only [Kernel.opening, hfind]

-- The bytes of a cell are in pages that are mapped for the user, or that a ring
-- with the base page `n` is going to have.
def CellMappedWith (pt : Pagetable) (n : Nat) (addr : UInt64) : Prop :=
  ∀ i < 8, pt.walkaddr (PGROUNDDOWN (addr + UInt64.ofNat i)) ≠ 0 ∨
    vpn (addr + UInt64.ofNat i) ≤ n ∧ n < vpn (addr + UInt64.ofNat i) + 33

theorem Opened.cellMapped_iff [Image] {s' : State} {rb' : Ringbuf}
    (hsource : Source s.ringbufs name k rb) (h : Opened s s' n rb rb')
    (hvalid : PagesValid s.freelist s.ringbufs) (hn : n < 2 ^ 26) (addr : UInt64) :
    CellMapped s'.pagetable addr 8 ↔ CellMappedWith s.pagetable n addr := by
  refine forall₂_congr fun i _ => ?_
  rw [walkaddr_roundDown, walkaddr_roundDown]
  generalize addr + UInt64.ofNat i = a
  by_cases hin : vpn a ≤ n ∧ n < vpn a + 33
  · have hmax : a < MAXVA := by
      have hle := hin.1
      rw [vpn] at hle
      rw [UInt64.lt_iff_toNat_lt, toNat_MAXVA]
      omega
    have hleaf : s'.pagetable.leaf (vpn a) = some (ringPte rb' (n - vpn a)) := by
      rw [h.leaf, mapRing, if_pos hin]
    have hpage : ValidPage (ringPte rb' (n - vpn a)).pa := by
      rcases h.new_leaf hsource hvalid hleaf with hold | hnew
      · rw [h.unmapped _ hin.1 hin.2] at hold
        cases hold
      · exact hnew
    refine iff_of_true ?_ (.inr hin)
    rw [walkaddr_eq _ hmax, Pagetable.user, hleaf]
    exact hpage.ne_zero
  · have hsame : s'.pagetable.walkaddr a = s.pagetable.walkaddr a := by
      by_cases hmax : a < MAXVA
      · rw [walkaddr_eq _ hmax, walkaddr_eq _ hmax, Pagetable.user, Pagetable.user, h.leaf]
        simp only [mapRing, if_neg hin]
      · rw [walkaddr_of_le _ (UInt64.not_lt.mp hmax), walkaddr_of_le _ (UInt64.not_lt.mp hmax)]
    rw [hsame]
    exact ⟨.inl, fun h => h.resolve_right hin⟩

def Interior (pt : Pagetable) (pa : UInt64) : Prop :=
  ∃ i l1, pt.entry i = some l1 ∧ (l1.page = pa ∨ ∃ j l0, l1.entry j = some l0 ∧ l0.page = pa)

-- Nothing has changed but for page-table pages that have been added.
structure Untouched (sys : Sys) (c : Call) (s' : State) : Prop where
  leaf : s'.pagetable.leaf = (sys.pagetables c.pid).leaf
  rings : s'.ringbufs = sys.ringbufs
  others : ∀ pid ≠ c.pid, (sys.next c s').pagetables pid = sys.pagetables pid
  pages : ∃ tables, sys.freelist.Perm (tables ++ s'.freelist) ∧ ∀ pa ∈ tables, Interior s'.pagetable pa

theorem Untouched.refl (sys : Sys) (c : Call) : Untouched sys c (sys.state c) := by
  refine ⟨rfl, rfl, fun pid _ => ?_, [], .refl _, by simp⟩
  rw [Sys.next_state]

-- The open is refused before it maps anything, or it gets all that it needs: the
-- pages for the ring and its tables, free places for the mappings, and a cell for
-- the base.
def OpenSafe (sys : Sys) (c : Call) : Prop :=
  MAX_RINGBUFS ≤ getRingbufIndex sys.ringbufs ∨
    (∃ len, strlen c.name = some len ∧ RINGBUF_NAME_LEN < len) ∨
    ∀ n, Placed (sys.state c) c.name n → 0 ≤ (opening sys.ringbufs c.name).refcount →
      ¬OpenFails (sys.state c) n (opening sys.ringbufs c.name) ∧
        CellMappedWith (sys.pagetables c.pid) n c.addr

theorem OpenSafe.ringOk [Image] {sys : Sys} {c : Call} (hopens : c.opens ≠ 0) (hname : strlen c.name ≠ none)
    (h : OpenSafe sys c) : RingOk (sys.state c) c.name c.opens c.addr := by
  rcases h with hfull | ⟨len, hlen, hlong⟩ | hsafe
  · exact .inl hfull
  · exact .inr ⟨len, hlen, .inl hlong⟩
  · obtain ⟨len, hlen⟩ := Option.ne_none_iff_exists'.mp hname
    refine .inr ⟨len, hlen, .inr ?_⟩
    unfold DispatchOk
    change match findName sys.ringbufs c.name with | none => _ | some k => _
    cases hfind : findName sys.ringbufs c.name with
    | none =>
      simp only [opening, hfind] at hsafe
      intro _ top hroom
      refine (hsafe _ ⟨top, hroom, ?_⟩ (Int.le_refl 0)).1
      change _ = basePage sys.ringbufs c.name top
      simp only [basePage, hfind]
    | some k =>
      simp only [opening, hfind] at hsafe
      refine ⟨fun _ top hroom href => ?_, fun hclose => absurd hclose hopens⟩
      refine (hsafe _ ⟨top, hroom, ?_⟩ href).1
      change _ = basePage sys.ringbufs c.name top
      simp only [basePage, hfind]

-- An open returns, and a failed one leaves everything as it was, exactly if it is
-- refused at once or gets all that it needs.
theorem failed_open_changes_nothing [Image] {sys : Sys} (h : Sound sys) (c : Call) (hopens : c.opens ≠ 0)
    (hname : strlen c.name ≠ none) :
    (∃ r s', sys.run c = .ok (r, s') ∧ (r = -1 → Untouched sys c s')) ↔ OpenSafe sys c := by
  constructor
  · rintro ⟨r, s', hrun, huntouched⟩
    cases h.effect hrun with
    | refused _ hwhy =>
      rcases hwhy with hfull | hlong
      · exact .inl hfull
      · exact .inr (.inl hlong)
    | unknown _ hclose => exact absurd hclose hopens
    | closed _ _ hclose => exact absurd hclose hopens
    | opened _ _ heffect =>
      refine .inr (.inr fun n hplaced href => ?_)
      cases heffect with
      | refused _ hwhy =>
        rcases hwhy with hroom | ⟨k, hfind, hneg⟩
        · exact absurd hroom hplaced.room
        · change findName sys.ringbufs c.name = some k at hfind
          change (sys.ringbufs k).refcount < 0 at hneg
          simp only [opening, hfind] at href
          omega
      | opened k n' base rb rb' _ _ hhigh hsource hopened hcell _ _ hplaced' =>
        obtain rfl := hplaced.unique hplaced'
        rw [show opening sys.ringbufs c.name = rb from hsource.opening]
        exact ⟨hopened.not_fails, (hopened.cellMapped_iff hsource h.valid (by omega) _).mp hcell⟩
      | lost k n' rb rb' _ _ _ hopened =>
        have hsame := (huntouched rfl).leaf
        have hnone : (sys.pagetables c.pid).leaf n' = none := hopened.unmapped n' (Nat.le_refl _) (by omega)
        rw [hopened.leaf] at hsame
        have hat := congrFun hsame n'
        rw [hnone, mapRing, if_pos ⟨Nat.le_refl _, by omega⟩] at hat
        cases hat
  · intro hsafe
    obtain ⟨r, s', hrun⟩ := h.returns (hsafe.ringOk hopens hname)
    refine ⟨r, s', hrun, fun hr => ?_⟩
    have hsame : s' = sys.state c → Untouched sys c s' := by
      rintro rfl
      exact Untouched.refl sys c
    cases h.effect hrun with
    | refused hs => exact hsame hs
    | unknown hs => exact hsame hs
    | closed _ _ hclose => exact absurd hclose hopens
    | opened hcount _ heffect =>
      cases heffect with
      | refused hs => exact hsame hs
      | opened => cases hr
      | lost k n rb rb' _ hhigh hsource hopened hcell _ _ hplaced =>
        rcases hsafe with hfull | ⟨len, hlen, hlong⟩ | hsafe
        · exact absurd hfull (Nat.not_le.mpr hcount)
        · have hrefused : sys.run c = .ok (-1, sys.state c) := refused_of_long hlen hlong
          rw [hrun] at hrefused
          cases hrefused
          exact hsame rfl
        · have hopening : opening sys.ringbufs c.name = rb := hsource.opening
          have hgot := hsafe n hplaced (by rw [hopening]; exact hsource.refcount_nonneg)
          exact absurd ((hopened.cellMapped_iff hsource h.valid (by omega) _).mpr hgot.2) hcell

def longName : Call := ⟨1, List.replicate 17 97 ++ [0], 1, 0, fun _ => 0⟩

theorem failed_open_changes_nothing_long : ∃ s', @Sys.run smallImage (smallSys 80) longName = .ok (-1, s') ∧
    Untouched (smallSys 80) longName s' := by
  let _ := smallImage
  have hlen : strlen longName.name = some 17 := by decide
  have hsound := (smallSys_initial (show 80 ≤ 256 by decide)).sound
  obtain ⟨r, s', hrun, huntouched⟩ := (failed_open_changes_nothing hsound longName (by decide)
    (by simp [hlen])).mpr (.inr (.inl ⟨17, hlen, by decide⟩))
  have hrefused : (smallSys 80).run longName = .ok (-1, (smallSys 80).state longName) :=
    refused_of_long hlen (by decide)
  obtain ⟨rfl, -⟩ := Prod.mk.inj (Except.ok.inj (hrun.symm.trans hrefused))
  exact ⟨s', hrun, huntouched rfl⟩

-- A process opens a ring with a cell that is not mapped: the call fails, but the
-- ring stays mapped and 17 pages are gone. With too few free pages the clean-up
-- unmaps the memory of the process and panics.
theorem failed_open_leaves_ring_mapped :
    ((@Sys.run smallImage (smallSys 80) ⟨1, [97, 0], 1, 0x5000, fun _ => 0⟩).toOption.map fun result =>
      (result.1, (result.2.pagetable.leaf (2 ^ 26 - 4)).isSome, result.2.freelist.length)) =
        some (-1, true, 61) ∧
    ((smallSys 80).pagetables 1).leaf (2 ^ 26 - 4) = none ∧ (smallSys 80).freelist.length = 80 ∧
    panicOf (@Sys.run smallImage (smallSys 10) ⟨1, [97, 0], 1, 0, fun _ => 0⟩) = some .uvmunmapNotMapped := by
  decide +kernel

-- A close is refused at once, or the kernel can read the cell and finds an
-- address in it that is mapped for the user.
def CloseSafe (sys : Sys) (c : Call) : Prop :=
  MAX_RINGBUFS ≤ getRingbufIndex sys.ringbufs ∨ (∀ len ≤ RINGBUF_NAME_LEN, strlen c.name ≠ some len) ∨
    findName sys.ringbufs c.name = none ∨ ¬Readable (cell (sys.pagetables c.pid) c.addr) ∨
    (sys.pagetables c.pid).walkaddr (closeBase (sys.state c) c.addr) ≠ 0

-- A failed close leaves the ring table, the page tables and the free list as they
-- were, exactly if it fails before the reference is given back.
theorem failed_close_changes_nothing [Image] (sys : Sys) (c : Call) (hopens : c.opens = 0) :
    (∀ s', sys.run c = .ok (-1, s') → s'.ringbufs = sys.ringbufs ∧
      (sys.next c s').pagetables = sys.pagetables ∧ s'.freelist = sys.freelist) ↔ CloseSafe sys c := by
  have hwp := ringbuf_wp c.name c.opens c.addr (s := sys.state c) fun hne => absurd hopens hne
  constructor
  · intro h
    by_contra hunsafe
    simp only [CloseSafe, not_or, Nat.not_le, not_forall, not_not] at hunsafe
    obtain ⟨hcount, ⟨len, hle, hlen⟩, hfind, hreadable, hwalk⟩ := hunsafe
    obtain ⟨k, hk⟩ := Option.ne_none_iff_exists'.mp hfind
    have hok : RingOk (sys.state c) c.name c.opens c.addr := by
      refine .inr ⟨len, hlen, .inr ?_⟩
      unfold DispatchOk
      change match findName sys.ringbufs c.name with | none => _ | some k => _
      rw [hk]
      exact ⟨fun hne => absurd hopens hne,
        fun _ => ⟨hreadable, fun hne => absurd hwalk hne, fun hne => absurd hwalk hne⟩⟩
    obtain ⟨r, s', hrun, _, heffect⟩ :=
      (hwp.mono (fun _ _ hreturned => hreturned) fun _ hbad => hbad.1 hok).returns
    cases heffect with
    | refused _ hwhy =>
      rcases hwhy with hfull | ⟨len', hlen', hlong⟩
      · exact absurd hfull (Nat.not_le.mpr hcount)
      · rw [hlen] at hlen'
        cases hlen'
        exact absurd hlong (Nat.not_lt.mpr hle)
    | unknown _ _ hnone => exact hfind hnone
    | opened _ hopen => exact hopen hopens
    | closed j _ _ _ hclosed =>
      cases hclosed with
      | miscounted _ _ _ hrings =>
        have hsame := (h s' hrun).1
        rw [hrings] at hsame
        have hat := congrArg Ringbuf.refcount (congrFun hsame j)
        rw [Function.update_self] at hat
        change (sys.ringbufs j).refcount - 1 = (sys.ringbufs j).refcount at hat
        omega
      | unmapped hne => exact hne hwalk
      | freed _ hne => exact hne hwalk
  · intro hsafe s' hrun
    have hsame : s' = sys.state c → s'.ringbufs = sys.ringbufs ∧
        (sys.next c s').pagetables = sys.pagetables ∧ s'.freelist = sys.freelist := by
      rintro rfl
      rw [Sys.next_state]
      exact ⟨rfl, rfl, rfl⟩
    obtain ⟨_, heffect⟩ := hwp.ok hrun
    generalize hr : (-1 : Int32) = r at heffect
    cases heffect with
    | refused hs => exact hsame hs
    | unknown hs => exact hsame hs
    | opened _ hopen => exact absurd hopens hopen
    | closed k hcount _ hfind hclosed _ _ hok hlen =>
      cases hclosed with
      | unmapped => cases hr
      | freed => cases hr
      | miscounted hwalk =>
        obtain ⟨len, hle, hlen⟩ := hlen
        rcases hsafe with hfull | hlong | hnone | hunreadable | hmapped
        · exact absurd hfull (Nat.not_le.mpr hcount)
        · exact absurd hlen (hlong len hle)
        · rw [show findName sys.ringbufs c.name = some k from hfind] at hnone
          cases hnone
        · exact absurd hok.readable hunreadable
        · exact absurd hwalk hmapped

theorem failed_close_changes_nothing_unknown : ∃ s',
    @Sys.run smallImage (smallSys 80) ⟨1, [97, 0], 0, 0, fun _ => 0⟩ = .ok (-1, s') ∧
      s'.freelist = (smallSys 80).freelist := by
  let _ := smallImage
  have hresult : ((smallSys 80).run ⟨1, [97, 0], 0, 0, fun _ => 0⟩).toOption.map Prod.fst = some (-1) := by
    decide +kernel
  obtain ⟨⟨r, s'⟩, hok, rfl⟩ := Option.map_eq_some_iff.mp hresult
  have hrun := ok_of_toOption hok
  have hunchanged := (failed_close_changes_nothing (smallSys 80) ⟨1, [97, 0], 0, 0, fun _ => 0⟩ rfl).mpr
    (.inr (.inr (.inl (by decide)))) s' hrun
  exact ⟨s', hrun, hunchanged.2.2⟩

-- A process with an open ring closes it with an address in its cell that is not
-- mapped: the call fails, but the reference is gone.
theorem failed_close_drops_reference : ∃ sys, @Calls smallImage (smallSys 80) sys ∧
    (sys.ringbufs 0).refcount = 1 ∧
    ((@Sys.run smallImage sys ⟨1, [97, 0], 0, 0, withCell 0x87ffe000 0x5000⟩).toOption.map fun result =>
      (result.1, (result.2.ringbufs 0).refcount)) = some (-1, 0) := by
  let _ := smallImage
  have hplay : (play (fun _ _ _ _ (g : Unit) => g) (fun _ _ _ => True) (smallSys 80, ())
      [⟨1, [97, 0], 1, 0, fun _ => 0⟩]).map (fun w => ((w.1.ringbufs 0).refcount,
        (w.1.run ⟨1, [97, 0], 0, 0, withCell 0x87ffe000 0x5000⟩).toOption.map fun result =>
          (result.1, (result.2.ringbufs 0).refcount))) = some (1, some (-1, 0)) := by decide +kernel
  obtain ⟨⟨sys, _⟩, hplay, hresult⟩ := Option.map_eq_some_iff.mp hplay
  obtain ⟨href, hclose⟩ := Prod.mk.inj hresult
  exact ⟨sys, run_of_play hplay, href, hclose⟩

end Xv6Ringbuf.Kernel
