import Xv6Ringbuf.Kernel.RefCount
import Xv6Ringbuf.Kernel.Processes

namespace Xv6Ringbuf.Kernel

open Machine

-- Either the process had a ring open and the kernel panics in `freewalk`, or it
-- had none and all is settled.
def Left [Image] (maps : List Mapping) (pid : Pid) : Except Panic World → Prop
  | .error e => (∃ m ∈ maps, m.pid = pid) ∧ e = .freewalkLeaf
  | .ok w' => (∀ m ∈ maps, m.pid ≠ pid) ∧ Settled w' maps

section TearDown

variable [Image] {w : World} {maps : List Mapping} {pid : Pid} {p : Proc} (h : Settled w maps)
  (hproc : w.procs pid = some p) (mem : UInt64 → UInt8)

include h hproc

variable {free : List UInt64} {image : Pagetable}

theorem Settled.tearDown {x : K Unit} {next : Option Proc} (hfree : ∀ pa ∈ free, ValidPage pa)
    (hwp : wp x ⟨free, mem, w.sys.pagetables pid, w.sys.ringbufs, [], none⟩
      (fun _ s' => (∀ n, userPages p.sz ≤ n → n < 2 ^ 26 - 2 → (w.sys.pagetables pid).leaf n = none) ∧
        Freed ⟨free, mem, w.sys.pagetables pid, w.sys.ringbufs, [], none⟩ s')
      fun e => (∃ n, userPages p.sz ≤ n ∧ n < 2 ^ 26 - 2 ∧ (w.sys.pagetables pid).leaf n ≠ none) ∧
        e = .freewalkLeaf) (hhole : ∃ n, 0 < n ∧ n < 2 ^ 19 ∧ image.leaf n = none)
    (huser : ∀ n pte, image.leaf n = some pte → pte.perm.u = true → ValidPage pte.pa)
    (hnext : ∀ p, next = some p → Layout image p.sz (fun _ => False) ∧ ValidPage p.trapframe) :
    Left maps pid (w.tearDown pid mem free x image next) := by
  have hopen := h.open_iff hproc
  unfold wp at hwp
  unfold World.tearDown
  cases hx : x.run ⟨free, mem, w.sys.pagetables pid, w.sys.ringbufs, [], none⟩ with
  | error e =>
    rw [hx] at hwp
    exact ⟨hopen.mp hwp.1, hwp.2⟩
  | ok result =>
    rw [hx] at hwp
    obtain ⟨hnone, hfreed⟩ := hwp
    have hclosed : ∀ m ∈ maps, m.pid ≠ pid := by
      intro m hm hpid
      obtain ⟨n, hn, hn', hleaf⟩ := hopen.mpr ⟨m, hm, hpid⟩
      exact hleaf (hnone n hn hn')
    exact ⟨hclosed, h.leave hclosed rfl hfree hfreed hhole huser hnext⟩

theorem Settled.freeproc : Left maps pid (w.freeproc pid p mem) := by
  apply h.tearDown hproc mem h.sound.valid.free
    (freeproc_wp h.sound.valid.free (h.trapframe pid p hproc) (h.layout pid p hproc))
  · exact ⟨1, by decide, by decide, leaf_noPagetable 1⟩
  · intro n pte hleaf
    rw [leaf_noPagetable] at hleaf
    cases hleaf
  · rintro _ ⟨⟩

theorem Settled.exec {sz : UInt64} (hfree : ∀ pa ∈ free, ValidPage pa)
    (himage : Layout image sz fun _ => False) :
    Left maps pid (w.exec pid p mem free image sz) := by
  apply h.tearDown hproc mem hfree (procFreepagetable_wp hfree (h.layout pid p hproc)) himage.hole
    (fun _ _ => himage.userValid)
  rintro _ ⟨⟩
  exact ⟨himage, h.trapframe pid p hproc⟩

end TearDown

section Runs

variable [Image]

inductive World.Step : World × List Mapping → World × List Mapping → Prop where
  | ring {w : World} {maps : List Mapping} (c : Call) (r : Int32) (s' : State)
      (hcareful : Careful w maps c) (hrun : w.sys.run c = .ok (r, s')) :
      Step (w, maps) (⟨w.sys.next c s', w.procs⟩, ledger w.sys c r s' maps)
  | freeproc {w : World} {maps : List Mapping} (pid : Pid) (p : Proc) (mem : UInt64 → UInt8)
      (w' : World) (hproc : w.procs pid = some p) (hrun : w.freeproc pid p mem = .ok w') :
      Step (w, maps) (w', maps)
  | exec {w : World} {maps : List Mapping} (pid : Pid) (p : Proc) (mem : UInt64 → UInt8)
      (free : List UInt64) (image : Pagetable) (sz : UInt64) (w' : World)
      (hproc : w.procs pid = some p) (hfree : ∀ pa ∈ free, ValidPage pa)
      (himage : Layout image sz fun _ => False)
      (hrun : w.exec pid p mem free image sz = .ok w') : Step (w, maps) (w', maps)

abbrev World.Run : World × List Mapping → World × List Mapping → Prop :=
  Relation.ReflTransGen World.Step

structure World.Initial (w : World) : Prop where
  rings : ∀ k, w.sys.ringbufs k = newRing []
  free : ∀ pa ∈ w.sys.freelist, ValidPage pa
  absent : ∀ pid, w.procs pid = none → w.sys.pagetables pid = noPagetable
  layout : ∀ pid p, w.procs pid = some p → Layout (w.sys.pagetables pid) p.sz fun _ => False
  trapframe : ∀ pid p, w.procs pid = some p → ValidPage p.trapframe

theorem World.Initial.settled {w : World} (h : w.Initial) : Settled w [] := by
  have hdead : ∀ k, (w.sys.ringbufs k).refcount = 0 := fun k => by rw [h.rings]; rfl
  refine ⟨⟨?_, ?_, h.free, fun k hlive => absurd hlive (by rw [hdead]; decide)⟩,
    ⟨by simp, by simp, List.Pairwise.nil, fun k => by rw [hdead]; rfl, by simp⟩, ?_, h.trapframe⟩
  · intro pid
    cases hproc : w.procs pid with
    | none =>
      rw [h.absent pid hproc]
      exact ⟨1, by decide, by decide, leaf_noPagetable 1⟩
    | some p => exact (h.layout pid p hproc).hole
  · intro pid n pte hleaf hu
    cases hproc : w.procs pid with
    | none =>
      rw [h.absent pid hproc, leaf_noPagetable] at hleaf
      cases hleaf
    | some p => exact (h.layout pid p hproc).userValid hleaf hu
  · intro pid p hproc
    have hlayout := h.layout pid p hproc
    exact hlayout.next hlayout.tree (fun _ _ => rfl) fun n pte hpte =>
      .inl ⟨hpte, fun hfalse => hfalse.elim⟩

variable {a b : World × List Mapping}

theorem Settled.step (h : Settled a.1 a.2) (hstep : World.Step a b) :
    Settled b.1 b.2 := by
  cases hstep with
  | ring c r s' hcareful hrun => exact h.ring hcareful hrun
  | freeproc pid p mem w' hproc hrun =>
    have hleft := h.freeproc hproc mem
    rw [hrun] at hleft
    exact hleft.2
  | exec pid p mem free image sz w' hproc hfree himage hrun =>
    have hleft := h.exec hproc mem hfree himage
    rw [hrun] at hleft
    exact hleft.2

theorem World.Run.settled (hrun : World.Run a b) (h : Settled a.1 a.2) :
    Settled b.1 b.2 := by
  induction hrun with
  | refl => exact h
  | tail _ hstep ih => exact ih.step hstep

end Runs

-- The teardown reaches the panic exactly if the process has a ring open, and
-- after any other teardown the rings count the mappings of the other processes.
def Vanishes (maps : List Mapping) (pid : Pid) (result : Except Panic World) : Prop :=
  (result = .error .freewalkLeaf ↔ ∃ m ∈ maps, m.pid = pid) ∧
  ((∀ m ∈ maps, m.pid ≠ pid) → ∃ w', result = .ok w' ∧ ∀ k,
    (w'.sys.ringbufs k).refcount = maps.countP fun m => m.slot = k ∧ m.pid ≠ pid)

theorem Left.vanishes [Image] {maps : List Mapping} {pid : Pid} {result : Except Panic World}
    (h : Left maps pid result) : Vanishes maps pid result := by
  cases result with
  | error e =>
    obtain ⟨⟨m, hm, hpid⟩, rfl⟩ := h
    exact ⟨iff_of_true rfl ⟨m, hm, hpid⟩, fun hclosed => absurd hpid (hclosed m hm)⟩
  | ok w' =>
    obtain ⟨hclosed, hsettled⟩ := h
    refine ⟨iff_of_false (by simp) fun ⟨m, hm, hpid⟩ => hclosed m hm hpid, fun _ => ⟨w', rfl, ?_⟩⟩
    intro k
    rw [hsettled.ledger.count k]
    congr 1
    apply List.countP_congr
    intro m hm
    simp [hclosed m hm]

def smallTable (base : UInt64) : Pagetable :=
  ⟨base, fun i =>
    if i.val = 0 then some ⟨base + 0x1000, fun j => if j.val = 0 then some ⟨base + 0x2000, fun l =>
      if l.val = 0 then some ⟨base + 0x5000, permRing⟩ else none⟩ else none⟩
    else if i.val = 255 then some ⟨base + 0x3000, fun j => if j.val = 511 then
      some ⟨base + 0x4000, fun l => if l.val = 510 then some ⟨base + 0x6000, ⟨true, true, false, false⟩⟩
      else if l.val = 511 then some ⟨0x80007000, ⟨true, false, true, false⟩⟩ else none⟩ else none⟩
    else none⟩

def smallPages (base : UInt64) : List UInt64 :=
  [base, base + 0x1000, base + 0x2000, base + 0x3000, base + 0x4000, base + 0x5000, base + 0x6000]

variable {base : UInt64}

theorem smallTable_leaf {n : Nat} {pte : Pte} (h : (smallTable base).leaf n = some pte) :
    n = 0 ∨ 2 ^ 26 - 2 ≤ n := by
  have hlt := lt_of_leaf_eq h
  rw [Pagetable.leaf, if_pos hlt] at h
  by_contra hn
  refine absurd h (ne_of_eq_of_ne ?_ (Option.some_ne_none pte).symm)
  simp only [Pagetable.slot, smallTable]
  by_cases hlow : (index 2 n).val = 0
  · rw [if_pos hlow]
    by_cases hmid : (index 1 n).val = 0
    · have hne : (index 0 n).val ≠ 0 := by
        simp only [index] at hlow hmid ⊢
        omega
      simp only [if_pos hmid, if_neg hne, Option.join_some]
    · simp only [if_neg hmid, Option.join_none]
  · rw [if_neg hlow]
    by_cases hhigh : (index 2 n).val = 255
    · rw [if_pos hhigh]
      by_cases hmid : (index 1 n).val = 511
      · have hbelow : (index 0 n).val < 510 := by
          simp only [index] at hhigh hmid ⊢
          omega
        have hframe : (index 0 n).val ≠ 510 := by omega
        have hcode : (index 0 n).val ≠ 511 := by omega
        simp only [if_pos hmid, if_neg hframe, if_neg hcode, Option.join_some]
      · simp only [if_neg hmid, Option.join_none]
    · rw [if_neg hhigh]
      rfl

theorem smallTable_tree [Image] (hvalid : ∀ pa ∈ smallPages base, ValidPage pa) :
    (smallTable base).Tree := by
  refine ⟨hvalid base (by simp [smallPages]), ?_, ?_, ?_⟩
  · intro i l1 hl1
    simp only [smallTable] at hl1
    split at hl1
    · omega
    · split at hl1
      · omega
      · cases hl1
  · intro i l1 hl1
    simp only [smallTable] at hl1
    split at hl1
    · rw [← Option.some.inj hl1]
      exact hvalid _ (by simp [smallPages])
    · split at hl1
      · rw [← Option.some.inj hl1]
        exact hvalid _ (by simp [smallPages])
      · cases hl1
  · intro i l1 j l0 hl1 hl0
    simp only [smallTable] at hl1
    split at hl1
    · rw [← Option.some.inj hl1] at hl0
      simp only at hl0
      split at hl0
      · rw [← Option.some.inj hl0]
        exact hvalid _ (by simp [smallPages])
      · cases hl0
    · split at hl1
      · rw [← Option.some.inj hl1] at hl0
        simp only at hl0
        split at hl0
        · rw [← Option.some.inj hl0]
          exact hvalid _ (by simp [smallPages])
        · cases hl0
      · cases hl1

theorem smallTable_layout [Image] (hvalid : ∀ pa ∈ smallPages base, ValidPage pa) :
    Layout (smallTable base) 4096 fun _ => False := by
  have hpages : userPages 4096 = 1 := by decide
  refine ⟨smallTable_tree hvalid, by rw [hpages]; decide, ?_, ?_, ?_⟩
  · intro n hn
    obtain rfl : n = 0 := by omega
    exact ⟨⟨base + 0x5000, permRing⟩, rfl, show permRing ≠ _ by decide, fun _ => hvalid _ (by simp [smallPages])⟩
  · intro n hn hn'
    by_cases heq : n = 2 ^ 26 - 2
    · rw [heq]
      exact ⟨⟨base + 0x6000, ⟨true, true, false, false⟩⟩, rfl, by simp, rfl⟩
    · obtain rfl : n = 2 ^ 26 - 1 := by omega
      exact ⟨⟨0x80007000, ⟨true, false, true, false⟩⟩, rfl, by simp, rfl⟩
  · intro n hn hn' pte hleaf
    have hrange := smallTable_leaf hleaf
    omega

def smallProc (base : UInt64) : Proc := ⟨4096, base + 0x6000⟩

def smallWorld : World :=
  ⟨⟨(smallSys 80).freelist, fun _ => newRing [], fun pid => if pid = 1 then smallTable 0x87fe0000
    else if pid = 2 then smallTable 0x87fd0000 else noPagetable⟩,
    fun pid => if pid = 1 then some (smallProc 0x87fe0000)
      else if pid = 2 then some (smallProc 0x87fd0000) else none⟩

instance [Image] (pa : UInt64) : Decidable (ValidPage pa) :=
  decidable_of_iff (pa % PGSIZE = 0 ∧ Image.kend ≤ pa ∧ pa < PHYSTOP)
    ⟨fun h => ⟨h.1, h.2.1, h.2.2⟩, fun h => ⟨h.mod, h.kend_le, h.lt⟩⟩

theorem smallPages_valid [Image] (h : (smallPages base).all fun pa => decide (ValidPage pa)) :
    ∀ pa ∈ smallPages base, ValidPage pa := by
  intro pa hpa
  exact of_decide_eq_true (List.all_eq_true.mp h pa hpa)

theorem smallWorld_initial : @World.Initial smallImage smallWorld := by
  let _ := smallImage
  have hvalid : ∀ base ∈ [0x87fe0000, 0x87fd0000], ∀ pa ∈ smallPages base, ValidPage pa :=
    List.forall_mem_cons.mpr ⟨smallPages_valid (by decide),
      List.forall_mem_singleton.mpr (smallPages_valid (by decide))⟩
  -- Every process is one of the two.
  have hproc : ∀ pid p, smallWorld.procs pid = some p → ∃ base ∈ [0x87fe0000, 0x87fd0000],
      p = smallProc base ∧ smallWorld.sys.pagetables pid = smallTable base := by
    intro pid p hproc
    simp only [smallWorld] at hproc ⊢
    by_cases h1 : pid = 1
    · rw [if_pos h1] at hproc ⊢
      exact ⟨_, by simp, (Option.some.inj hproc).symm, rfl⟩
    · rw [if_neg h1] at hproc ⊢
      by_cases h2 : pid = 2
      · rw [if_pos h2] at hproc ⊢
        exact ⟨_, by simp, (Option.some.inj hproc).symm, rfl⟩
      · rw [if_neg h2] at hproc
        cases hproc
  refine ⟨fun _ => rfl, (smallSys_initial (by decide)).valid, ?_, ?_, ?_⟩
  · intro pid hnone
    simp only [smallWorld] at hnone ⊢
    by_cases h1 : pid = 1
    · rw [if_pos h1] at hnone
      cases hnone
    · rw [if_neg h1] at hnone ⊢
      by_cases h2 : pid = 2
      · rw [if_pos h2] at hnone
        cases hnone
      · rw [if_neg h2]
  · intro pid p hp
    obtain ⟨base, hbase, rfl, hpt⟩ := hproc pid p hp
    rw [hpt]
    exact smallTable_layout (hvalid base hbase)
  · intro pid p hp
    obtain ⟨base, hbase, rfl, _⟩ := hproc pid p hp
    exact hvalid base hbase _ (by simp [smallPages, smallProc])

instance (sys : Sys) (maps : List Mapping) (c : Call) : Decidable (Proper sys maps c) :=
  decidable_of_iff (_ ∧ _) ⟨fun h => ⟨h.1, h.2⟩, fun h => ⟨h.close, h.create⟩⟩

theorem World.run_of_calls [Image] {procs : Pid → Option Proc} {a b : Sys × List Mapping}
    (hrun : Kernel.Run ledger (fun sys maps c => procs c.pid ≠ none ∧ Proper sys maps c ∧
      (c.opens ≠ 0 → CellMapped (sys.pagetables c.pid) c.addr 8)) a b) :
    World.Run (⟨a.1, procs⟩, a.2) (⟨b.1, procs⟩, b.2) := by
  induction hrun with
  | refl => exact .refl
  | tail _ step ih =>
    cases step with
    | call c r s' hallowed hrun =>
      obtain ⟨hlive, hproper, hcell⟩ := hallowed
      exact ih.tail (.ring c r s' ⟨hlive, hproper, hcell⟩ hrun)

-- In every run of careful ring calls, exits and execs.
theorem address_space_vanishes [Image] {w₀ w : World} {maps : List Mapping} (hinit : w₀.Initial)
    (hrun : World.Run (w₀, []) (w, maps)) {pid : Pid} {p : Proc} (hproc : w.procs pid = some p)
    (mem : UInt64 → UInt8) :
    Vanishes maps pid (w.freeproc pid p mem) ∧
    ∀ free image sz, (∀ pa ∈ free, ValidPage pa) → Layout image sz (fun _ => False) →
      Vanishes maps pid (w.exec pid p mem free image sz) := by
  have h := hrun.settled hinit.settled
  exact ⟨(h.freeproc hproc mem).vanishes, fun free image sz hfree himage =>
    (h.exec hproc mem hfree himage).vanishes⟩

theorem address_space_vanishes_after_close : ∃ (w w' : World) (m : Mapping),
    @World.Run smallImage (smallWorld, []) (w, [m]) ∧
    @World.freeproc smallImage w 1 (smallProc 0x87fe0000) (fun _ => 0) = .ok w' ∧
    (w'.sys.ringbufs m.slot).refcount = 1 := by
  let _ := smallImage
  have hplay : (play ledger (fun sys maps c => smallWorld.procs c.pid ≠ none ∧ Proper sys maps c ∧
      (c.opens ≠ 0 → CellMapped (sys.pagetables c.pid) c.addr 8)) (smallWorld.sys, [])
      [⟨1, [97, 0], 1, 0, fun _ => 0⟩, ⟨2, [97, 0], 1, 0, fun _ => 0⟩,
        ⟨1, [97, 0], 0, 0, withCell 0x87fe5000 0x3fffffc000⟩]).map Prod.snd =
          some [⟨2, key [97], 0, 0x3fffffb000⟩] := by decide +kernel
  obtain ⟨⟨sys, maps⟩, hplay, hmaps⟩ := Option.map_eq_some_iff.mp hplay
  obtain rfl : maps = _ := hmaps
  have hrun := World.run_of_calls (run_of_play hplay)
  have hproc : (World.mk sys smallWorld.procs).procs 1 = some (smallProc 0x87fe0000) := rfl
  obtain ⟨w', hfreed, hcount⟩ :=
    (address_space_vanishes smallWorld_initial hrun hproc fun _ => 0).1.2 (by simp)
  exact ⟨_, w', _, hrun, hfreed, hcount 0⟩

-- A process that holds a ring when it dies, or calls `exec`, takes the kernel with it:
-- nothing unmaps the ring's pages, and `freewalk` does not accept a leaf.
theorem address_space_panics_with_ring : ∃ (w : World) (maps : List Mapping),
    @World.Initial smallImage smallWorld ∧ @World.Run smallImage (smallWorld, []) (w, maps) ∧
    @World.freeproc smallImage w 1 (smallProc 0x87fe0000) (fun _ => 0) = .error .freewalkLeaf ∧
    @World.exec smallImage w 1 (smallProc 0x87fe0000) (fun _ => 0) [] (smallTable 0x87fc0000) 4096 =
      .error .freewalkLeaf := by
  let _ := smallImage
  have hplay : (play ledger (fun sys maps c => smallWorld.procs c.pid ≠ none ∧ Proper sys maps c ∧
      (c.opens ≠ 0 → CellMapped (sys.pagetables c.pid) c.addr 8)) (smallWorld.sys, [])
      [⟨1, [97, 0], 1, 0, fun _ => 0⟩]).map Prod.snd =
          some [⟨1, key [97], 0, 0x3fffffc000⟩] := by decide +kernel
  obtain ⟨⟨sys, maps⟩, hplay, hmaps⟩ := Option.map_eq_some_iff.mp hplay
  obtain rfl : maps = _ := hmaps
  have hrun := World.run_of_calls (run_of_play hplay)
  have hsettled := hrun.settled smallWorld_initial.settled
  have hproc : (World.mk sys smallWorld.procs).procs 1 = some (smallProc 0x87fe0000) := rfl
  have himage : Layout (smallTable 0x87fc0000) 4096 fun _ => False :=
    smallTable_layout (smallPages_valid (by decide))
  refine ⟨_, _, smallWorld_initial, hrun, ?_, ?_⟩
  · exact (hsettled.freeproc hproc fun _ => 0).vanishes.1.mpr ⟨_, List.mem_singleton.mpr rfl, rfl⟩
  · exact (hsettled.exec hproc (fun _ => 0) (by simp) himage).vanishes.1.mpr
      ⟨_, List.mem_singleton.mpr rfl, rfl⟩

end Xv6Ringbuf.Kernel
