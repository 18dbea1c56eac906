import Xv6Ringbuf.Kernel.Ledger

namespace Xv6Ringbuf.Kernel

open Function

def Holds (pt : Pagetable) (mem : UInt64 → UInt8) (addr value : UInt64) : Prop :=
  CellMapped pt addr 8 ∧ ∀ i < 8,
    mem (pt.walkaddr (PGROUNDDOWN (addr + UInt64.ofNat i)) + (addr + UInt64.ofNat i) % 4096) =
      UInt8.ofNat (value.toNat / 256 ^ i)

instance (pt : Pagetable) (mem : UInt64 → UInt8) (addr value : UInt64) :
    Decidable (Holds pt mem addr value) := inferInstanceAs (Decidable (_ ∧ _))

theorem Holds.word {pt : Pagetable} {mem : UInt64 → UInt8} {addr value : UInt64}
    (h : Holds pt mem addr value) (hcell : addr % 4096 ≤ 4088) :
    wordAt mem (cell pt addr) = value := by
  have hmod : (addr % 4096).toNat = addr.toNat % 4096 := by
    rw [UInt64.toNat_mod]
    rfl
  rw [UInt64.le_iff_toNat_le, hmod, show (4088 : UInt64).toNat = 4088 by rfl] at hcell
  apply wordAt_of_bytes
  intro i hi
  rw [← h.2 i hi, roundDown_add (by omega), walkaddr_roundDown, cell, UInt64.add_assoc]
  congr 2
  apply UInt64.toNat_inj.mp
  have hlt := addr.toNat_lt
  rw [UInt64.toNat_add, hmod, UInt64.toNat_mod, UInt64.toNat_add, UInt64.toNat_ofNat',
    show (4096 : UInt64).toNat = 4096 by rfl]
  omega

-- The rings with references are those with a name, and no name is used twice.
structure Named (rbs : Ringbufs) : Prop where
  canonical : ∀ k, key (rbs k).name = (rbs k).name
  live : ∀ k, 0 < (rbs k).refcount ↔ (rbs k).name ≠ key []
  distinct : ∀ j k, (rbs j).name = (rbs k).name → (rbs j).name ≠ key [] → j = k

theorem Named.findName {rbs : Ringbufs} (h : Named rbs) {name : List UInt8} {k : Fin MAX_RINGBUFS}
    (hname : key name ≠ key []) (hk : (rbs k).name = key name) : findName rbs name = some k := by
  apply findName_eq_some_of_unique
  · rw [h.canonical, hk]
  · intro j hj
    rw [h.canonical] at hj
    exact h.distinct j k (hj.trans hk.symm) (hj ▸ hname)

-- What the users do who get along with each other: they use names, and close
-- only mappings that they have opened by the same name.
def Orderly (sys : Sys) (maps : List Mapping) (c : Call) : Prop :=
  key c.name ≠ key [] ∧ (c.opens = 0 → ∃ m ∈ maps, m.pid = c.pid ∧ m.name = key c.name ∧
    Holds (sys.pagetables c.pid) c.mem c.addr m.base)

-- The slot for a new ring is unused, and the cell of a close does not cross the
-- end of its page.
def Tidy (sys : Sys) (c : Call) : Prop :=
  (c.opens ≠ 0 → findName sys.ringbufs c.name = none →
    (sys.ringbufs (openSlot sys.ringbufs c.name)).name = key []) ∧
  (c.opens = 0 → c.addr % 4096 ≤ 4088)

section Step

variable {sys : Sys} {c : Call} {maps : List Mapping} (hnamed : Named sys.ringbufs)
  (h : Ledger sys maps) (horderly : Orderly sys maps c) (htidy : Tidy sys c)

include hnamed h

theorem Ledger.findName {name : List UInt8} (hname : key name ≠ key []) {m : Mapping}
    (hm : m ∈ maps) (heq : m.name = key name) : findName sys.ringbufs name = some m.slot := by
  apply hnamed.findName hname
  rw [← hnamed.canonical, ← h.named m hm, heq]

include horderly htidy

theorem Ledger.proper : Proper sys maps c := by
  constructor
  · intro hopens _ _
    obtain ⟨m, hm, hpid, hname, hholds⟩ := horderly.2 hopens
    have hword := hholds.word (htidy.2 hopens)
    have hfind := h.findName hnamed horderly.1 hm hname
    have hclosing : closing sys c = m := by
      rw [closing, openSlot, hfind, Option.getD_some, ← hpid, ← hname]
      change (⟨m.pid, m.name, m.slot, wordAt c.mem (cell (sys.pagetables c.pid) c.addr)⟩ : Mapping) = m
      rw [hword]
    rw [hclosing]
    exact hm
  · intro hopens _ hfind
    have hunnamed := htidy.1 hopens hfind
    have hdead := mt (hnamed.live _).mp (not_not.mpr hunnamed)
    omega

end Step

theorem Named.update {rbs : Ringbufs} (h : Named rbs) {k : Fin MAX_RINGBUFS} {rb : Ringbuf}
    (hcanonical : key rb.name = rb.name) (hlive : 0 < rb.refcount ↔ rb.name ≠ key [])
    (hdistinct : rb.name ≠ key [] → ∀ j, (rbs j).name = rb.name → j = k) :
    Named (Function.update rbs k rb) := by
  refine ⟨?_, ?_, ?_⟩
  · intro j
    by_cases heq : j = k
    · rw [heq, update_self, hcanonical]
    · rw [update_of_ne heq, h.canonical]
  · intro j
    by_cases heq : j = k
    · rw [heq, update_self, hlive]
    · rw [update_of_ne heq, h.live]
  · intro i j heq hne
    by_cases hi : i = k
    · rw [hi, update_self] at heq hne
      by_cases hj : j = k
      · rw [hi, hj]
      · rw [update_of_ne hj] at heq
        exact absurd (hdistinct hne j heq.symm) hj
    · rw [update_of_ne hi] at heq hne
      by_cases hj : j = k
      · rw [hj, update_self] at heq
        exact absurd (hdistinct (heq ▸ hne) i heq) hi
      · rw [update_of_ne hj] at heq
        exact h.distinct i j heq hne

section Next

variable [Image] {sys : Sys} {c : Call} {r : Int32} {s' : State} {maps : List Mapping}
  (hsound : Sound sys) (hrun : sys.run c = .ok (r, s')) (hledger : Ledger sys maps)
  (h : Named sys.ringbufs) (horderly : Orderly sys maps c) (htidy : Tidy sys c)

include hsound hrun h

theorem Named.next_opened (hname : key c.name ≠ key []) (hr : r = 0) (hopens : c.opens ≠ 0) :
    Named s'.ringbufs := by
  obtain ⟨k, n, base, rb, rb', _, _, _, hsource, hopened, hrings, _⟩ := hsound.opened hrun hr hopens
  have hpos := hsource.refcount_nonneg
  have hlive : 0 < rb'.refcount + 1 := by
    rw [hopened.refcount]
    omega
  have hkey : rb'.name = key c.name := by
    rw [hopened.name]
    cases hsource with
    | create => rfl
    | append hfind => exact (h.canonical k).symm.trans (findName_eq_some hfind)
  rw [hrings]
  refine h.update ?_ ?_ ?_
  · change key rb'.name = rb'.name
    rw [hkey, key_key]
  · change 0 < rb'.refcount + 1 ↔ rb'.name ≠ key []
    rw [hkey]
    exact ⟨fun _ => hname, fun _ => hlive⟩
  · intro _ j hj
    change (sys.ringbufs j).name = rb'.name at hj
    rw [hkey] at hj
    cases hsource with
    | create hfind => exact absurd ((h.canonical j).trans hj) (findName_eq_none_iff.mp hfind j)
    | append hfind =>
      rw [h.findName hname hj] at hfind
      exact Option.some.inj hfind

include hledger horderly htidy

theorem Named.next_closed (hr : r = 0) (hopens : c.opens = 0) : Named s'.ringbufs := by
  have hproper := hledger.proper h horderly htidy
  cases hsound.effect hrun with
  | opened _ hopen => exact absurd hopens hopen
  | refused => cases hr
  | unknown => cases hr
  | closed k hcount _ hfind heffect =>
    have hclosing := hledger.live
      (hproper.close hopens hcount (Option.ne_none_iff_exists'.mpr ⟨k, hfind⟩))
    have hslot : (closing sys c).slot = k := by
      rw [closing, openSlot, show Kernel.findName sys.ringbufs c.name = some k from hfind,
        Option.getD_some]
    rw [hslot] at hclosing
    cases heffect with
    | miscounted => cases hr
    | unmapped _ _ _ _ href hrings =>
      rw [hrings]
      change (sys.ringbufs k).refcount ≠ 1 at href
      refine h.update (h.canonical k) ?_ fun hne j hj => h.distinct j k hj (hj ▸ hne)
      change 0 < (sys.ringbufs k).refcount - 1 ↔ (sys.ringbufs k).name ≠ key []
      rw [← h.live k]
      omega
    | freed _ _ _ _ _ _ _ _ hrings =>
      rw [hrings]
      refine h.update (key_key []) ?_ fun hne => absurd rfl hne
      exact ⟨fun hpos => absurd hpos (Int.lt_irrefl 0), fun hne => absurd rfl hne⟩

theorem Named.next : Named s'.ringbufs := by
  by_cases hr : r = 0
  · by_cases hopens : c.opens = 0
    · exact h.next_closed hsound hrun hledger horderly htidy hr hopens
    · exact h.next_opened hsound hrun horderly.1 hr hopens
  · obtain ⟨hrings, _⟩ := hledger.failed hsound hrun (hledger.proper h horderly htidy) hr
    refine ⟨fun k => ?_, fun k => ?_, fun j k => ?_⟩
    · rw [hrings.name, h.canonical]
    · rw [hrings.name, hrings.refcount, h.live]
    · rw [hrings.name, hrings.name]
      exact h.distinct j k

end Next

theorem Initial.named [Image] {sys : Sys} (h : Initial sys) : Named sys.ringbufs := by
  refine ⟨fun k => ?_, fun k => ?_, fun j k _ hne => ?_⟩
  · rw [h.rings]
    exact key_key []
  · rw [h.rings]
    exact ⟨fun hpos => absurd hpos (Int.lt_irrefl 0), fun hne => absurd (key_key []) hne⟩
  · rw [h.rings] at hne
    exact absurd (key_key []) hne

-- What holds in every run of calls by users who get along, as long as no new
-- ring takes a slot in use.
structure Kept [Image] (sys : Sys) (maps : List Mapping) : Prop where
  sound : Sound sys
  owned : Owned sys.freelist sys.ringbufs
  ledger : Ledger sys maps
  named : Named sys.ringbufs

theorem Kept.run [Image] {sys₀ sys : Sys} {maps : List Mapping} (hinit : Initial sys₀)
    {Allowed : Sys → List Mapping → Call → Prop}
    (hallowed : ∀ sys maps c, Allowed sys maps c → Orderly sys maps c ∧ Tidy sys c)
    (hrun : Run Kernel.ledger Allowed (sys₀, []) (sys, maps)) : Kept sys maps := by
  refine Run.invariant (P := Kept) hrun
    ⟨hinit.sound, hinit.owned, hinit.ledger, hinit.named⟩ ?_
  intro sys maps c r s' h hstep hrun
  obtain ⟨horderly, htidy⟩ := hallowed sys maps c hstep
  exact ⟨h.sound.next hrun, h.sound.owned hrun h.owned,
    h.ledger.next h.sound hrun (h.ledger.proper h.named horderly htidy),
    h.named.next h.sound hrun h.ledger horderly htidy⟩

-- Users who open rings by names of 1 to 15 characters, and close only mappings
-- that they have opened by the same name.
def Polite (sys : Sys) (maps : List Mapping) (c : Call) : Prop :=
  (∃ len < 16, 0 < len ∧ strlen c.name = some len) ∧
  (c.opens = 0 → ∃ m ∈ maps, m.pid = c.pid ∧ m.name = key c.name ∧
    Holds (sys.pagetables c.pid) c.mem c.addr m.base)

instance (sys : Sys) (maps : List Mapping) (c : Call) : Decidable (Polite sys maps c) :=
  inferInstanceAs (Decidable (_ ∧ _))

instance (sys : Sys) (c : Call) : Decidable (Tidy sys c) := inferInstanceAs (Decidable (_ ∧ _))

theorem key_ne_of_strlen {name : List UInt8} {len : Nat} (hpos : 0 < len)
    (h : strlen name = some len) : key name ≠ key [] := by
  intro heq
  have hhead := congrArg (fun t => t.headD 0) heq
  simp only [key, headD_strncpy] at hhead
  cases name with
  | nil => cases h
  | cons byte rest =>
    have hzero : byte = 0 := hhead
    rw [strlen, if_pos hzero] at h
    cases h
    omega

theorem Polite.orderly {sys : Sys} {maps : List Mapping} {c : Call} (h : Polite sys maps c) :
    Orderly sys maps c := by
  obtain ⟨⟨len, _, hpos, hlen⟩, hclose⟩ := h
  exact ⟨key_ne_of_strlen hpos hlen, hclose⟩

-- The pages of a process between the kernel's base and the trap frame are pages of
-- mappings that it has open.
def Tracked (sys : Sys) (maps : List Mapping) : Prop :=
  ∀ pid n pte, 2 ^ 19 < n → n ≤ 2 ^ 26 - 3 → (sys.pagetables pid).leaf n = some pte → InRing maps pid n

-- The ring table accounts for the mappings that the processes have open, and these are
-- all that the page tables show of rings.
structure Accounted (sys : Sys) (maps : List Mapping) : Prop where
  tracked : Tracked sys maps
  held : ∀ pid n pte, 2 ^ 19 < n → n ≤ 2 ^ 26 - 3 → (sys.pagetables pid).leaf n = some pte →
    ∃ k, (0 < (sys.ringbufs k).refcount ∧ pte.pa ∈ (sys.ringbufs k).pages) ∧
      ∀ j, 0 < (sys.ringbufs j).refcount → pte.pa ∈ (sys.ringbufs j).pages → j = k
  one_slot : ∀ m ∈ maps, ∃ k, 0 < (sys.ringbufs k).refcount ∧ (sys.ringbufs k).name = m.name ∧
    MapsRing (sys.pagetables m.pid).leaf m.page (sys.ringbufs k) ∧
    ∀ j, (sys.ringbufs j).name = m.name → j = k
  names : ∀ j k, 0 < (sys.ringbufs j).refcount → 0 < (sys.ringbufs k).refcount → j ≠ k →
    (sys.ringbufs j).name ≠ (sys.ringbufs k).name
  pages : ∀ j k, 0 < (sys.ringbufs j).refcount → 0 < (sys.ringbufs k).refcount → j ≠ k →
    ∀ pa ∈ (sys.ringbufs j).pages, pa ∉ (sys.ringbufs k).pages
  count : ∀ k, 0 < (sys.ringbufs k).refcount →
    (sys.ringbufs k).refcount = maps.countP fun m => m.name = (sys.ringbufs k).name

section Kept

variable [Image] {sys : Sys} {maps : List Mapping} (h : Kept sys maps)

include h

theorem Kept.slot_name {m : Mapping} (hm : m ∈ maps) :
    (sys.ringbufs m.slot).name = m.name ∧ m.name ≠ key [] := by
  have hname : (sys.ringbufs m.slot).name = m.name := by
    rw [← h.named.canonical, ← h.ledger.named m hm]
  exact ⟨hname, hname ▸ (h.named.live m.slot).mp (h.ledger.live hm)⟩

theorem Kept.accounted (htracked : Tracked sys maps) : Accounted sys maps := by
  refine ⟨htracked, ?_, ?_, ?_, h.owned.apart, ?_⟩
  · intro pid n pte hlow hhigh hleaf
    obtain ⟨m, hm, rfl, hrange⟩ := htracked pid n pte hlow hhigh hleaf
    have hpte := h.ledger.mapped m hm n hrange.1 hrange.2
    rw [hleaf] at hpte
    have hmem := ringPte_mem (sys.ringbufs m.slot) (m.page - n)
    rw [← Option.some.inj hpte] at hmem
    refine ⟨m.slot, ⟨h.ledger.live hm, hmem⟩, fun j hlive hj => ?_⟩
    by_contra hne
    exact h.owned.apart j m.slot hlive (h.ledger.live hm) hne _ hj hmem
  · intro m hm
    obtain ⟨hname, hne⟩ := h.slot_name hm
    refine ⟨m.slot, h.ledger.live hm, hname, h.ledger.mapped m hm, ?_⟩
    intro j hj
    exact h.named.distinct j m.slot (hj.trans hname.symm) (hj ▸ hne)
  · intro j k hj _ hne heq
    exact hne (h.named.distinct j k heq ((h.named.live j).mp hj))
  · intro k hlive
    rw [h.ledger.count k]
    congr 1
    apply List.countP_congr
    intro m hm
    have hname := (h.slot_name hm).1
    simp only [decide_eq_true_eq]
    constructor
    · rintro rfl
      exact hname.symm
    · intro heq
      exact (h.named.distinct k m.slot (heq.symm.trans hname.symm) ((h.named.live k).mp hlive)).symm

theorem Kept.not_recreates {c : Call} {r : Int32} (htidy : Tidy sys c) {k : Fin MAX_RINGBUFS}
    (hlive : 0 < (sys.ringbufs k).refcount) : ¬Recreates sys c r k := by
  rintro ⟨_, hopens, hfind, rfl⟩
  exact (h.named.live _).mp hlive (htidy.1 hopens hfind)

end Kept

-- Users who also give an open memory for its answer.
def Attentive (sys : Sys) (maps : List Mapping) (c : Call) : Prop :=
  Polite sys maps c ∧ Tidy sys c ∧ (c.opens ≠ 0 → CellMapped (sys.pagetables c.pid) c.addr 8)

instance (sys : Sys) (maps : List Mapping) (c : Call) : Decidable (Attentive sys maps c) :=
  inferInstanceAs (Decidable (_ ∧ _))

-- In every run of polite calls in which new rings go to unused slots, no cell of a
-- close crosses a page and an open can store the base, the table is in order, and no
-- ring in use is replaced.
theorem table_accounts_for_mappings [Image] {sys₀ sys : Sys} {maps : List Mapping}
    (hinit : Initial sys₀)
    (hmem : ∀ pid n, 2 ^ 19 < n → n ≤ 2 ^ 26 - 3 → (sys₀.pagetables pid).leaf n = none)
    (hrun : Run ledger Attentive (sys₀, []) (sys, maps)) :
    Accounted sys maps ∧
    ∀ c r s', Attentive sys maps c → sys.run c = .ok (r, s') →
      ∀ k, 0 < (sys.ringbufs k).refcount → ¬Recreates sys c r k := by
  have hkept : Kept sys maps := Kept.run hinit (fun _ _ _ hs => ⟨hs.1.orderly, hs.2.1⟩) hrun
  have hinv : Sound sys ∧ Tracked sys maps := by
    refine Run.invariant (P := fun sys maps => Sound sys ∧ Tracked sys maps) hrun ⟨hinit.sound, ?_⟩ ?_
    · intro pid n pte hlow hhigh hleaf
      rw [hmem pid n hlow hhigh] at hleaf
      cases hleaf
    · rintro sys maps c r s' ⟨hsound, htracked⟩ hatt hstep
      refine ⟨hsound.next hstep, fun pid n pte hlow hhigh hleaf => ?_⟩
      rcases hsound.leaf_next hstep hatt.2.2 pid n pte hleaf with ⟨hold, hkeep⟩ | ⟨hnew, _⟩
      · exact hkeep (htracked pid n pte hlow hhigh hold)
      · exact hnew
  exact ⟨hkept.accounted hinv.2, fun c r s' hatt _ k hlive =>
    hkept.not_recreates hatt.2.1 hlive⟩

def withCell (page value : UInt64) : UInt64 → UInt8 :=
  fun a => (bytesOf value).getD (a - page).toNat 0

theorem table_accounts_for_mappings_joined : ∃ (sys : Sys) (m : Mapping),
    @Run smallImage _ ledger Attentive (smallSys 80, []) (sys, [m]) ∧ Accounted sys [m] := by
  let _ := smallImage
  have hplay : (play ledger Attentive (smallSys 80, [])
      [⟨1, [97, 0], 1, 0, fun _ => 0⟩, ⟨2, [97, 0], 1, 0, fun _ => 0⟩,
        ⟨1, [97, 0], 0, 0, withCell 0x87ffe000 0x3fffffc000⟩]).map Prod.snd =
          some [⟨2, key [97], 0, 0x3fffffb000⟩] := by decide +kernel
  obtain ⟨⟨sys, maps⟩, hplay, hmaps⟩ := Option.map_eq_some_iff.mp hplay
  obtain rfl : maps = _ := hmaps
  have hrun := run_of_play hplay
  exact ⟨sys, _, hrun, (table_accounts_for_mappings (smallSys_initial (by decide))
    (fun pid n hlow _ => smallSys_memory 80 pid n hlow) hrun).1⟩

-- A process opens two rings, closes the first one and opens a third one. The new
-- ring takes the slot of the second one, which is still open.
theorem table_loses_ring : ∃ (sys : Sys) (maps : List Mapping),
    @Initial smallImage (smallSys 80) ∧
    @Run smallImage _ ledger Polite (smallSys 80, []) (sys, maps) ∧
    ∃ m ∈ maps, ∀ k, (sys.ringbufs k).name ≠ m.name := by
  let _ := smallImage
  have hplay : (play ledger Polite (smallSys 80, [])
      [⟨1, [97, 0], 1, 0, fun _ => 0⟩, ⟨1, [98, 0], 1, 8, fun _ => 0⟩,
        ⟨1, [97, 0], 0, 0, withCell 0x87ffe000 0x3fffffc000⟩,
        ⟨1, [99, 0], 1, 0, fun _ => 0⟩]).map
          (fun w => decide (∃ m ∈ w.2, ∀ k, (w.1.ringbufs k).name ≠ m.name)) = some true := by
    decide +kernel
  obtain ⟨⟨sys, maps⟩, hplay, hlost⟩ := Option.map_eq_some_iff.mp hplay
  exact ⟨sys, maps, smallSys_initial (by decide), run_of_play hplay, of_decide_eq_true hlost⟩

end Xv6Ringbuf.Kernel
