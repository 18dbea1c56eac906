import Xv6Ringbuf.Kernel.Isolation
import Xv6Ringbuf.Kernel.Kmem
import Xv6Ringbuf.Kernel.Mappings
import Xv6Ringbuf.User.Calls

namespace Xv6Ringbuf.Kernel

open Machine

-- A mapping of the ring in a slot, with the base that the process was given.
structure Placement where
  pid : Pid
  slot : Fin MAX_RINGBUFS
  base : UInt64
deriving DecidableEq

def Intact (pt : Pagetable) (base : UInt64) : Prop :=
  ∀ i < 33, (pt.leaf (vpn base - i)).isSome

instance (pt : Pagetable) (base : UInt64) : Decidable (Intact pt base) :=
  inferInstanceAs (Decidable (∀ i < 33, _))

-- The mappings of rings whose reference count has been positive since they were
-- created: a mapping is forgotten when its ring has no references or is replaced,
-- or when one of its pages is unmapped.
def established [Image] (sys : Sys) (c : Call) (r : Int32) (s' : State) (maps : List Placement) :
    List Placement :=
  let kept := maps.filter fun m => 0 < (s'.ringbufs m.slot).refcount ∧ ¬Recreates sys c r m.slot ∧
    Intact ((sys.next c s').pagetables m.pid) m.base
  if r = 0 ∧ c.opens ≠ 0 then ⟨c.pid, openSlot sys.ringbufs c.name, s'.given.getD 0⟩ :: kept
  else kept

def Shared (sys : Sys) (maps : List Placement) : Prop :=
  ∀ m ∈ maps, 0 < (sys.ringbufs m.slot).refcount ∧ ∃ n, At m.base n ∧ 32 ≤ n ∧
    MapsRing (sys.pagetables m.pid).leaf n (sys.ringbufs m.slot)

theorem Shared.next [Image] {sys : Sys} {c : Call} {r : Int32} {s' : State} {maps : List Placement}
    (hsound : Sound sys) (hrun : sys.run c = .ok (r, s')) (h : Shared sys maps) :
    Shared (sys.next c s') (established sys c r s' maps) := by
  have heffect := hsound.effect hrun
  have hkept : Shared (sys.next c s') (maps.filter fun m => 0 < (s'.ringbufs m.slot).refcount ∧
      ¬Recreates sys c r m.slot ∧ Intact ((sys.next c s').pagetables m.pid) m.base) := by
    intro m hm
    rw [List.mem_filter, decide_eq_true_eq] at hm
    obtain ⟨hm, hlive', hrecreates, hintact⟩ := hm
    obtain ⟨hlive, n, hbase, hn, hmaps⟩ := h m hm
    refine ⟨hlive', n, hbase, hn, ?_⟩
    have hsame := (heffect.sameRing hlive).resolve_right hrecreates
    refine hmaps.congr ?_ hsame.buf hsame.book
    intro i hi hi'
    have hsome := Option.isSome_iff_ne_none.mp (hintact (n - i) (by omega))
    rw [hbase.vpn, show n - (n - i) = i by omega] at hsome
    rw [Sys.next_pagetables] at hsome ⊢
    by_cases heq : m.pid = c.pid
    · rw [if_pos heq] at hsome ⊢
      rw [heq] at hmaps ⊢
      exact heffect.leafChange.keeps (by
        change (sys.pagetables c.pid).leaf i ≠ none
        rw [hmaps i hi hi']
        simp) hsome
    · rw [if_neg heq]
  rw [established]
  by_cases hopen : r = 0 ∧ c.opens ≠ 0
  · rw [if_pos hopen]
    intro m hm
    rcases List.mem_cons.mp hm with rfl | hm
    · obtain ⟨k, n, base, rb, rb', hbase, hlow, _, hsource, hopened, hrings, hgiven⟩ :=
        hsound.opened hrun hopen.1 hopen.2
      have hentry : (sys.next c s').ringbufs k = { rb' with refcount := rb'.refcount + 1 } := by
        change s'.ringbufs k = _
        rw [hrings, Function.update_self]
      rw [hsource.openSlot, hgiven, hentry]
      refine ⟨?_, n, hbase, by omega, ?_⟩
      · have hpos := hsource.refcount_nonneg
        rw [← hopened.refcount] at hpos
        exact Int.lt_add_one_of_le hpos
      · rw [Sys.next_pagetables, if_pos rfl, hopened.leaf]
        exact mapsRing_mapRing _ n rb'
    · exact hkept m hm
  · rw [if_neg hopen]
    exact hkept

def Pagetable.translate (pt : Pagetable) (va : UInt64) : Option UInt64 :=
  (pt.user (vpn va)).map fun pa => pa + va % 4096

section Translate

variable {pt : Pagetable} {rb : Ringbuf} {base : UInt64} {n : Nat} (hbase : At base n)
  (hn : 32 ≤ n) (h : MapsRing pt.leaf n rb)

include hn h

theorem MapsRing.translate {va : UInt64} {i : Nat} (hi : i < 33) (o : Nat) (ho : o < 4096)
    (hva : va.toNat = 4096 * (n - i) + o) :
    pt.translate va = some ((ringPte rb i).pa + UInt64.ofNat o) := by
  have hvpn : vpn va = n - i := by
    unfold vpn
    omega
  have hoff : va % 4096 = UInt64.ofNat o := by
    apply UInt64.toNat_inj.mp
    rw [UInt64.toNat_mod, UInt64.toNat_ofNat', hva, show (4096 : UInt64).toNat = 4096 by rfl]
    omega
  rw [Pagetable.translate, hvpn, Pagetable.user, h (n - i) (by omega) (by omega),
    show n - (n - i) = i by omega, hoff]
  rfl

include hbase

theorem MapsRing.translate_buf {o : Nat} (ho : o < 131072) :
    pt.translate ((User.entryOf base).buf + UInt64.ofNat o) =
      some (dataPage rb (31 - o / 4096) + UInt64.ofNat (o % 4096)) := by
  have hlow := (hbase.sub (show 31 ≤ n by omega)).eq
  have hva : ((User.entryOf base).buf + UInt64.ofNat o).toNat =
      4096 * (n - (31 - o / 4096)) + o % 4096 := by
    have hlt := hbase.lt
    change (base - UInt64.ofNat 31 * PGSIZE + UInt64.ofNat o).toNat = _
    rw [UInt64.toNat_add, hlow, UInt64.toNat_ofNat']
    omega
  rw [h.translate hn (by omega) _ (Nat.mod_lt _ (by decide)) hva, ringPte, if_pos (by omega)]

theorem MapsRing.translate_book {o : Nat} (ho : o < 4096) :
    pt.translate ((User.entryOf base).book + UInt64.ofNat o) =
      some (rb.book + UInt64.ofNat o) := by
  have hlow : At ((User.entryOf base).book) (n - 32) := by
    have h31 := hbase.sub (show 31 ≤ n by omega)
    rw [show n - 31 = n - 32 + 1 by omega] at h31
    exact h31.pred
  have hva : ((User.entryOf base).book + UInt64.ofNat o).toNat = 4096 * (n - 32) + o := by
    have hlt := hbase.lt
    rw [UInt64.toNat_add, hlow.eq, UInt64.toNat_ofNat']
    omega
  rw [h.translate hn (by omega) o ho hva, ringPte, if_neg (by omega)]

end Translate

theorem dataPage_half (rb : Ringbuf) {o : Nat} (ho : o < 65536) :
    dataPage rb (31 - (o + 65536) / 4096) = dataPage rb (31 - o / 4096) := by
  unfold dataPage
  congr 1
  apply Fin.ext
  change (31 - (o + 65536) / 4096) % 16 = (31 - o / 4096) % 16
  omega

-- No process maps a free page. The list of free pages is then safe from the stores of
-- the processes.
def FreeUnmapped (sys : Sys) : Prop :=
  ∀ pid n pte, (sys.pagetables pid).leaf n = some pte → pte.pa ∉ sys.freelist

-- In every run of ring calls with any arguments in which no process maps a free page,
-- each mapping of a ring shows the ring twice in a row with its book page below, and
-- all mappings of a ring show the same 17 pages.
theorem mappings_share_ring [Image] {sys₀ sys : Sys} {maps : List Placement} (hinit : Initial sys₀)
    (hrun : Run established (fun sys _ _ => FreeUnmapped sys) (sys₀, []) (sys, maps)) (m : Placement)
    (hm : m ∈ maps) :
    (∀ o < 65536, ∃ pa,
      (sys.pagetables m.pid).translate ((User.entryOf m.base).buf + UInt64.ofNat o) = some pa ∧
      (sys.pagetables m.pid).translate
        ((User.entryOf m.base).buf + UInt64.ofNat (o + 65536)) = some pa) ∧
    (∀ m' ∈ maps, m'.slot = m.slot → ∀ o < 131072,
      (sys.pagetables m'.pid).translate ((User.entryOf m'.base).buf + UInt64.ofNat o) =
      (sys.pagetables m.pid).translate ((User.entryOf m.base).buf + UInt64.ofNat o)) ∧
    (∀ o < 4096, (sys.pagetables m.pid).translate ((User.entryOf m.base).book + UInt64.ofNat o) =
      some ((sys.ringbufs m.slot).book + UInt64.ofNat o)) ∧
    (sys.ringbufs m.slot).pages.Nodup := by
  have hinv : Sound sys ∧ Owned sys.freelist sys.ringbufs ∧ Shared sys maps := by
    refine Run.invariant (P := fun sys maps => Sound sys ∧ Owned sys.freelist sys.ringbufs ∧
      Shared sys maps) hrun ⟨hinit.sound, hinit.owned, by simp [Shared]⟩ ?_
    rintro sys maps c r s' ⟨hsound, howned, hshared⟩ - hstep
    exact ⟨hsound.next hstep, hsound.owned hstep howned, hshared.next hsound hstep⟩
  obtain ⟨_, howned, hshared⟩ := hinv
  obtain ⟨hlive, n, hbase, hn, hmaps⟩ := hshared m hm
  refine ⟨?_, ?_, fun o ho => hmaps.translate_book hbase hn ho, howned.pages m.slot hlive⟩
  · intro o ho
    refine ⟨_, hmaps.translate_buf hbase hn (by omega), ?_⟩
    rw [hmaps.translate_buf hbase hn (by omega), dataPage_half _ ho,
      show (o + 65536) % 4096 = o % 4096 by omega]
  · intro m' hm' hslot o ho
    obtain ⟨_, n', hbase', hn', hmaps'⟩ := hshared m' hm'
    rw [hslot] at hmaps'
    rw [hmaps.translate_buf hbase hn ho, hmaps'.translate_buf hbase' hn' ho]

theorem Initial.freeUnmapped [Image] {γ : Type} {record : Sys → Call → Int32 → State → γ → γ}
    {sys₀ : Sys} {g : γ} {w : Sys × γ} (hinit : Initial sys₀)
    (hrun : Run record (fun sys _ c => Harmless sys c) (sys₀, g) w) :
    Run record (fun sys _ _ => FreeUnmapped sys) (sys₀, g) w := by
  refine hrun.imp (P := fun sys _ => Sound sys ∧ Owned sys.freelist sys.ringbufs ∧
    ∃ maps, Ledger sys maps ∧ Covered sys maps) ?_ ?_ ?_
  · exact ⟨hinit.sound, hinit.owned, [], hinit.ledger, hinit.covered⟩
  · rintro sys _ c r s' ⟨hsound, howned, maps, hledger, hcovered⟩ hharmless hstep
    exact ⟨hsound.next hstep, hsound.owned hstep howned, _,
      hledger.next hsound hstep (hcovered.proper howned hledger hharmless),
      hcovered.next hsound hstep howned hharmless hledger⟩
  · rintro sys _ c ⟨-, -, maps, -, hcovered⟩ - pid n pte hleaf
    exact (hcovered pid n pte hleaf).1

theorem mappings_share_ring_two : ∃ (sys : Sys) (m m' : Placement), m ≠ m' ∧ m'.slot = m.slot ∧
    @Run smallImage _ (@established smallImage) (fun sys _ _ => FreeUnmapped sys) (smallSys 80, [])
      (sys, [m, m']) ∧
    ∀ o < 131072,
      (sys.pagetables m'.pid).translate ((User.entryOf m'.base).buf + UInt64.ofNat o) =
      (sys.pagetables m.pid).translate ((User.entryOf m.base).buf + UInt64.ofNat o) := by
  let _ := smallImage
  have hplay : (play established (fun sys _ c => Harmless sys c) (smallSys 80, [])
      [⟨1, [97, 0], 1, 0, fun _ => 0⟩, ⟨2, [97, 0], 1, 0, fun _ => 0⟩]).map Prod.snd =
        some [⟨2, 0, 0x3fffffb000⟩, ⟨1, 0, 0x3fffffc000⟩] := by decide +kernel
  obtain ⟨⟨sys, maps⟩, hplay, hmaps⟩ := Option.map_eq_some_iff.mp hplay
  obtain rfl : maps = _ := hmaps
  have hinit : Initial (smallSys 80) := smallSys_initial (by decide)
  have hrun := hinit.freeUnmapped (run_of_play hplay)
  refine ⟨sys, ⟨2, 0, 0x3fffffb000⟩, ⟨1, 0, 0x3fffffc000⟩, by decide, rfl, hrun, ?_⟩
  exact (mappings_share_ring hinit hrun _ (by simp)).2.1 _ (by simp) rfl

-- A process closes the ring of another one, which still maps the pages and stores an
-- address to one of them. The list of free pages then leads to one of them twice, and
-- the next ring that is made has a data page that is its book page too.
theorem ring_given_page_twice : ∃ (sys : Sys) (k : Kmem) (n : Nat) (pa value : UInt64) (s' : State),
    @Initial smallImage (smallSys 38) ∧ @Calls smallImage (smallSys 38) sys ∧
    k.Lists sys.freelist ∧ (sys.pagetables 1).leaf n = some ⟨pa, permRing⟩ ∧
    @Sys.run smallImage { sys with freelist := (k.store pa value).zeroed 17 }
      ⟨2, [99, 0], 1, 0, fun _ => 0⟩ = .ok (0, s') ∧
    0 < (s'.ringbufs 1).refcount ∧ ¬(s'.ringbufs 1).pages.Nodup := by
  let _ := smallImage
  have hplay : ((play (fun _ _ _ _ (g : Unit) => g) (fun _ _ _ => True) (smallSys 38, ())
      [⟨2, [98, 0], 1, 0, fun _ => 0⟩, ⟨1, [97, 0], 1, 0, fun _ => 0⟩,
        ⟨2, [97, 0], 0, 0, withCell 0x87ffd000 0x3fffffc000⟩]).map fun w =>
      decide ((0 :: w.1.freelist).Nodup ∧
        (w.1.pagetables 1).leaf 0x3fffffc = some ⟨0x87eed000, permRing⟩ ∧
        ((Sys.run { w.1 with freelist :=
            ((Kmem.ofList w.1.freelist).store 0x87eed000 0x87edd000).zeroed 17 }
          ⟨2, [99, 0], 1, 0, fun _ => 0⟩).toOption.any fun (r, s') => r = 0 ∧
            0 < (s'.ringbufs 1).refcount ∧ ¬(s'.ringbufs 1).pages.Nodup))) = some true := by
    decide +kernel
  obtain ⟨⟨sys, ⟨⟩⟩, hplay, hfacts⟩ := Option.map_eq_some_iff.mp hplay
  obtain ⟨hnodup, hleaf, hany⟩ := of_decide_eq_true hfacts
  obtain ⟨⟨r, s'⟩, hrun, hring⟩ := (Option.any_eq_true ..).mp hany
  obtain ⟨rfl, hlive, hpages⟩ := of_decide_eq_true hring
  exact ⟨sys, _, _, _, _, s', smallSys_initial (by decide), run_of_play hplay,
    Kmem.lists_ofList hnodup, hleaf, ok_of_toOption hrun, hlive, hpages⟩

end Xv6Ringbuf.Kernel
