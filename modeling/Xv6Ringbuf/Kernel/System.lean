import Xv6Ringbuf.Kernel.Owned

namespace Xv6Ringbuf.Kernel

open Machine Function

abbrev Pid := Nat

-- What the ring calls of all processes work on. A number without a process has
-- an empty page table.
structure Sys where
  freelist : List UInt64
  ringbufs : Ringbufs
  pagetables : Pid → Pagetable

-- A call of a process, with the contents of the physical memory when it is made:
-- the processes store to their pages between the calls.
structure Call where
  pid : Pid
  name : List UInt8
  opens : Int32
  addr : UInt64
  mem : UInt64 → UInt8

def Sys.state (sys : Sys) (c : Call) : State :=
  ⟨sys.freelist, c.mem, sys.pagetables c.pid, sys.ringbufs, [], none⟩

def Sys.run [Image] (sys : Sys) (c : Call) : Except Panic (Int32 × State) :=
  (ringbuf c.name c.opens c.addr).run (sys.state c)

def Sys.next (sys : Sys) (c : Call) (s' : State) : Sys :=
  ⟨s'.freelist, s'.ringbufs, Function.update sys.pagetables c.pid s'.pagetable⟩

-- Runs of calls with a record of the history beside the system. The ring lock
-- makes each call one step, and after a panic there is none.
section Runs

variable [Image] {γ : Type} (record : Sys → Call → Int32 → State → γ → γ)
  (Allowed : Sys → γ → Call → Prop)

inductive Step : Sys × γ → Sys × γ → Prop where
  | call {sys : Sys} {g : γ} (c : Call) (r : Int32) (s' : State) (hallowed : Allowed sys g c)
      (hrun : sys.run c = .ok (r, s')) : Step (sys, g) (sys.next c s', record sys c r s' g)

abbrev Run : Sys × γ → Sys × γ → Prop := Relation.ReflTransGen (Step record Allowed)

-- The calls of a list, one after the other, as long as they are allowed and
-- none of them panics.
def play [∀ sys g c, Decidable (Allowed sys g c)] : Sys × γ → List Call → Option (Sys × γ)
  | w, [] => some w
  | (sys, g), c :: rest =>
    if Allowed sys g c then
      match sys.run c with
      | .error _ => none
      | .ok (r, s') => play (sys.next c s', record sys c r s' g) rest
    else none

variable {record Allowed}

theorem run_of_play [∀ sys g c, Decidable (Allowed sys g c)] {w w' : Sys × γ} {calls : List Call}
    (h : play record Allowed w calls = some w') : Run record Allowed w w' := by
  induction calls generalizing w with
  | nil =>
    cases h
    exact .refl
  | cons c rest ih =>
    obtain ⟨sys, g⟩ := w
    rw [play] at h
    by_cases hallowed : Allowed sys g c
    · rw [if_pos hallowed] at h
      cases hrun : sys.run c with
      | error e =>
        rw [hrun] at h
        cases h
      | ok result =>
        rw [hrun] at h
        exact .head (Step.call c result.1 result.2 hallowed hrun) (ih h)
    · rw [if_neg hallowed] at h
      cases h

theorem Run.invariant {P : Sys → γ → Prop} {w w' : Sys × γ} (hrun : Run record Allowed w w')
    (hinit : P w.1 w.2)
    (hstep : ∀ sys g c r s', P sys g → Allowed sys g c → sys.run c = .ok (r, s') →
      P (sys.next c s') (record sys c r s' g)) : P w'.1 w'.2 := by
  induction hrun with
  | refl => exact hinit
  | tail _ step ih =>
    cases step with
    | call c r s' hallowed hrun => exact hstep _ _ c r s' ih hallowed hrun

theorem Run.imp {Allowed' : Sys → γ → Call → Prop} {P : Sys → γ → Prop} {w w' : Sys × γ}
    (hrun : Run record Allowed w w') (hinit : P w.1 w.2)
    (hstep : ∀ sys g c r s', P sys g → Allowed sys g c → sys.run c = .ok (r, s') →
      P (sys.next c s') (record sys c r s' g))
    (himp : ∀ sys g c, P sys g → Allowed sys g c → Allowed' sys g c) : Run record Allowed' w w' := by
  induction hrun with
  | refl => exact .refl
  | tail hrest step ih =>
    have hmid := Run.invariant hrest hinit hstep
    cases step with
    | call c r s' hallowed hrun => exact .tail ih (.call c r s' (himp _ _ c hmid hallowed) hrun)

end Runs

abbrev Calls [Image] (sys sys' : Sys) : Prop :=
  Run (fun _ _ _ _ (g : Unit) => g) (fun _ _ _ => True) (sys, ()) (sys', ())

theorem ok_of_toOption {ε α : Type} {x : Except ε α} {value : α} (h : x.toOption = some value) :
    x = .ok value := by
  cases x with
  | error e => cases h
  | ok value' => exact congrArg Except.ok (Option.some.inj h)

theorem Sys.next_pagetables (sys : Sys) (c : Call) (s' : State) (pid : Pid) :
    (sys.next c s').pagetables pid = if pid = c.pid then s'.pagetable else sys.pagetables pid :=
  update_apply _ _ _ _

theorem Sys.next_state (sys : Sys) (c : Call) : sys.next c (sys.state c) = sys := by
  rw [Sys.next, show (sys.state c).pagetable = sys.pagetables c.pid from rfl,
    update_eq_self]
  rfl

-- Each process has a page below `KERNBASE` that is not mapped, and what it may
-- access are pages of the allocator.
structure Sound [Image] (sys : Sys) : Prop where
  hole : ∀ pid, ∃ n, 0 < n ∧ n < 2 ^ 19 ∧ (sys.pagetables pid).leaf n = none
  user : ∀ pid n pte, (sys.pagetables pid).leaf n = some pte → pte.perm.u = true → ValidPage pte.pa
  valid : PagesValid sys.freelist sys.ringbufs

section Sound

variable [Image] {sys : Sys} {c : Call} {r : Int32} {s' : State} (h : Sound sys)
  (hrun : sys.run c = .ok (r, s'))

include h

theorem Sound.healthy : Healthy (sys.state c) := ⟨h.hole c.pid, h.valid.free⟩

theorem Sound.returns (hok : RingOk (sys.state c) c.name c.opens c.addr) :
    ∃ r s', sys.run c = .ok (r, s') := by
  have hwp := (ringbuf_wp c.name c.opens c.addr fun _ => h.healthy (c := c)).mono
    (fun _ _ hreturned => hreturned) (fun _ hbad => hbad.1 hok)
  obtain ⟨r, s', hrun, _⟩ := hwp.returns
  exact ⟨r, s', hrun⟩

include hrun

theorem Sound.effect : Effect (sys.state c) s' c.name c.opens c.addr r :=
  ringbuf_effect h.healthy hrun

theorem Sound.next : Sound (sys.next c s') := by
  have heffect := h.effect hrun
  refine ⟨?_, ?_, heffect.tableChange.valid h.valid⟩
  · intro pid
    rw [Sys.next_pagetables]
    by_cases heq : pid = c.pid
    · obtain ⟨hole, hpos, hlt, hhole⟩ := h.hole c.pid
      rw [if_pos heq]
      exact ⟨hole, hpos, hlt, heffect.leafChange.low hlt hhole⟩
    · rw [if_neg heq]
      exact h.hole pid
  · intro pid n pte hleaf hu
    rw [Sys.next_pagetables] at hleaf
    by_cases heq : pid = c.pid
    · rw [if_pos heq] at hleaf
      rcases heffect.new_leaf h.valid hleaf with hleaf | hvalid
      · exact h.user c.pid n pte hleaf hu
      · exact hvalid
    · rw [if_neg heq] at hleaf
      exact h.user pid n pte hleaf hu

theorem Sound.opened (hr : r = 0) (hopens : c.opens ≠ 0) :
    ∃ k n base rb rb', At base n ∧ 2 ^ 19 + 32 ≤ n ∧ n < 2 ^ 26 - 3 ∧
      Source sys.ringbufs c.name k rb ∧ Opened (sys.state c) s' n rb rb' ∧
      s'.ringbufs = update sys.ringbufs k { rb' with refcount := rb'.refcount + 1 } ∧
      s'.given = some base := by
  cases h.effect hrun with
  | opened _ _ heffect =>
    cases heffect with
    | opened k n base rb rb' hbase hlow hhigh hsource hopened _ hrings hgiven =>
      exact ⟨k, n, base, rb, rb', hbase, hlow, hhigh, hsource, hopened, hrings, hgiven⟩
    | refused => cases hr
    | lost => cases hr
  | closed _ _ hclose => exact absurd hclose hopens
  | refused => cases hr
  | unknown => cases hr

theorem Sound.unmappable (hr : r = 0) (hopens : c.opens = 0) :
    Readable (cell (sys.pagetables c.pid) c.addr) ∧
      Unmappable (sys.pagetables c.pid).leaf (closeBase (sys.state c) c.addr) := by
  cases h.effect hrun with
  | opened _ hopen => exact absurd hopens hopen
  | refused => cases hr
  | unknown => cases hr
  | closed k _ _ _ heffect _ _ hok =>
    cases heffect with
    | miscounted => cases hr
    | unmapped hwalk => exact ⟨hok.readable, hok.unmappable hwalk⟩
    | freed _ hwalk => exact ⟨hok.readable, hok.unmappable hwalk⟩

theorem Sound.closed (hr : r = 0) (hopens : c.opens = 0) :
    ∃ k, getRingbufIndex sys.ringbufs < MAX_RINGBUFS ∧ findName sys.ringbufs c.name = some k ∧
      s'.pagetable.leaf =
        unmapRing (sys.pagetables c.pid).leaf (vpn (closeBase (sys.state c) c.addr)) ∧
      (∀ j, (s'.ringbufs j).refcount = (sys.ringbufs j).refcount - if j = k then 1 else 0) ∧
      ∀ pa ∈ s'.freelist, pa ∈ sys.freelist ∨
        (sys.ringbufs k).refcount = 1 ∧ pa ∈ (sys.ringbufs k).pages := by
  cases h.effect hrun with
  | opened _ hopen => exact absurd hopens hopen
  | refused => cases hr
  | unknown => cases hr
  | closed k hcount _ hfind heffect =>
    cases heffect with
    | miscounted => cases hr
    | unmapped _ _ hleaf hfree _ hrings =>
      refine ⟨k, hcount, hfind, hleaf, fun j => ?_, fun pa hpa => ?_⟩
      · rw [hrings]
        by_cases heq : j = k
        · rw [heq, update_self, if_pos rfl]
          rfl
        · rw [update_of_ne heq, if_neg heq, Int.sub_zero]
          rfl
      · rw [hfree] at hpa
        exact .inl hpa
    | freed freed _ _ hleaf href _ hperm hfree hrings =>
      refine ⟨k, hcount, hfind, hleaf, fun j => ?_, fun pa hpa => ?_⟩
      · rw [hrings]
        by_cases heq : j = k
        · rw [heq, update_self, if_pos rfl, show (sys.ringbufs k).refcount = 1 from href]
          rfl
        · rw [update_of_ne heq, if_neg heq, Int.sub_zero]
          rfl
      · rw [hfree, List.mem_append] at hpa
        rcases hpa with hpa | hpa
        · exact .inr ⟨href, hperm.subset hpa⟩
        · exact .inl hpa

theorem Sound.owned (howned : Owned sys.freelist sys.ringbufs) :
    Owned (sys.next c s').freelist (sys.next c s').ringbufs :=
  (h.effect hrun).tableChange.owned howned

end Sound

-- Before the first ring call: the ring table is zero, and a page of the
-- allocator is once on the free list or in use by processes.
structure Initial [Image] (sys : Sys) : Prop where
  rings : ∀ k, sys.ringbufs k = newRing []
  hole : ∀ pid, ∃ n, 0 < n ∧ n < 2 ^ 19 ∧ (sys.pagetables pid).leaf n = none
  user : ∀ pid n pte, (sys.pagetables pid).leaf n = some pte → pte.perm.u = true → ValidPage pte.pa
  mapped : ∀ pid n pte, (sys.pagetables pid).leaf n = some pte → pte.pa ∉ sys.freelist
  nodup : sys.freelist.Nodup
  valid : ∀ pa ∈ sys.freelist, ValidPage pa

section Initial

variable [Image] {sys : Sys} (h : Initial sys)

include h

theorem Initial.dead (k : Fin MAX_RINGBUFS) : ¬0 < (sys.ringbufs k).refcount := by
  rw [h.rings]
  exact Int.lt_irrefl 0

theorem Initial.sound : Sound sys :=
  ⟨h.hole, h.user, h.valid, fun k hlive => absurd hlive (h.dead k)⟩

theorem Initial.owned : Owned sys.freelist sys.ringbufs :=
  ⟨h.nodup, fun k hlive => absurd hlive (h.dead k), fun k hlive => absurd hlive (h.dead k),
    fun j _ hlive => absurd hlive (h.dead j)⟩

end Initial

@[reducible] def smallImage : Image := ⟨0x80022000, by decide⟩

def onePage (pa : UInt64) : Pagetable :=
  ⟨0, fun i => if i = 0 then some ⟨0, fun j => if j = 0 then
    some ⟨0, fun l => if l = 0 then some ⟨pa, permRing⟩ else none⟩ else none⟩ else none⟩

def smallSys (free : Nat) : Sys :=
  ⟨(List.range free).map fun i => 0x87f00000 - 4096 * UInt64.ofNat i, fun _ => newRing [],
    fun pid => if pid = 1 then onePage 0x87ffe000 else onePage 0x87ffd000⟩

theorem leaf_onePage (pa : UInt64) (n : Nat) :
    (onePage pa).leaf n = if n = 0 then some ⟨pa, permRing⟩ else none := by
  by_cases hn : n = 0
  · subst hn
    rfl
  · rw [if_neg hn, Pagetable.leaf]
    split
    · rename_i hlt
      simp only [Pagetable.slot, onePage]
      by_cases h2 : index 2 n = 0
      · rw [if_pos h2]
        simp only
        by_cases h1 : index 1 n = 0
        · rw [if_pos h1]
          simp only
          have h0 : index 0 n ≠ 0 := fun h0 => hn (index_inj hlt (by decide) h0 h1 h2)
          rw [if_neg h0]
          rfl
        · rw [if_neg h1]
          rfl
      · rw [if_neg h2]
        rfl
    · rfl

theorem smallSys_leaf {free : Nat} {pid : Pid} {n : Nat} {pte : Pte}
    (hleaf : ((smallSys free).pagetables pid).leaf n = some pte) :
    n = 0 ∧ (pte.pa = 0x87ffe000 ∨ pte.pa = 0x87ffd000) := by
  simp only [smallSys] at hleaf
  by_cases hpid : pid = 1
  · rw [if_pos hpid, leaf_onePage] at hleaf
    by_cases hn : n = 0
    · rw [if_pos hn] at hleaf
      cases hleaf
      exact ⟨hn, .inl rfl⟩
    · rw [if_neg hn] at hleaf
      cases hleaf
  · rw [if_neg hpid, leaf_onePage] at hleaf
    by_cases hn : n = 0
    · rw [if_pos hn] at hleaf
      cases hleaf
      exact ⟨hn, .inr rfl⟩
    · rw [if_neg hn] at hleaf
      cases hleaf

theorem smallSys_memory (free : Nat) (pid : Pid) (n : Nat) (hlow : 2 ^ 19 < n) :
    ((smallSys free).pagetables pid).leaf n = none := by
  cases hleaf : ((smallSys free).pagetables pid).leaf n with
  | none => rfl
  | some pte =>
    have hzero := (smallSys_leaf hleaf).1
    omega

theorem toNat_smallSys_page {i : Nat} (hi : i < 256) :
    (0x87f00000 - 4096 * UInt64.ofNat i : UInt64).toNat = 0x87f00000 - 4096 * i := by
  have hoff : (4096 * UInt64.ofNat i : UInt64).toNat = 4096 * i := by
    rw [UInt64.toNat_mul, UInt64.toNat_ofNat', show (4096 : UInt64).toNat = 4096 by rfl]
    omega
  rw [UInt64.toNat_sub_of_le, hoff]
  · rfl
  · rw [UInt64.le_iff_toNat_le, hoff, show (0x87f00000 : UInt64).toNat = 0x87f00000 by rfl]
    omega

theorem smallSys_initial {free : Nat} (hfree : free ≤ 256) : @Initial smallImage (smallSys free) := by
  let _ := smallImage
  have hmem : ∀ pa ∈ (smallSys free).freelist, ∃ i, i < 256 ∧ pa.toNat = 0x87f00000 - 4096 * i := by
    intro pa hpa
    obtain ⟨i, hi, rfl⟩ := List.mem_map.mp hpa
    have hi' : i < 256 := Nat.lt_of_lt_of_le (List.mem_range.mp hi) hfree
    exact ⟨i, hi', toNat_smallSys_page hi'⟩
  refine ⟨fun _ => rfl, ?_, ?_, ?_, ?_, ?_⟩
  · intro pid
    refine ⟨1, by decide, by decide, ?_⟩
    cases hleaf : ((smallSys free).pagetables pid).leaf 1 with
    | none => rfl
    | some pte => exact absurd (smallSys_leaf hleaf).1 (by decide)
  · intro pid n pte hleaf _
    rcases (smallSys_leaf hleaf).2 with h | h
    · rw [h]
      exact ⟨by decide, by decide, by decide⟩
    · rw [h]
      exact ⟨by decide, by decide, by decide⟩
  · intro pid n pte hleaf hpa
    obtain ⟨i, hi, heq⟩ := hmem pte.pa hpa
    rcases (smallSys_leaf hleaf).2 with h | h
    · rw [h, show (0x87ffe000 : UInt64).toNat = 0x87ffe000 by rfl] at heq
      omega
    · rw [h, show (0x87ffd000 : UInt64).toNat = 0x87ffd000 by rfl] at heq
      omega
  · apply List.Nodup.map_on _ List.nodup_range
    intro i hi j hj heq
    have hi' : i < 256 := Nat.lt_of_lt_of_le (List.mem_range.mp hi) hfree
    have hj' : j < 256 := Nat.lt_of_lt_of_le (List.mem_range.mp hj) hfree
    have hnat := congrArg UInt64.toNat heq
    rw [toNat_smallSys_page hi', toNat_smallSys_page hj'] at hnat
    omega
  · intro pa hpa
    obtain ⟨i, hi, heq⟩ := hmem pa hpa
    refine ⟨?_, ?_, ?_⟩
    · apply UInt64.toNat_inj.mp
      rw [UInt64.toNat_mod, heq, toNat_PGSIZE]
      change _ = 0
      omega
    · rw [UInt64.le_iff_toNat_le, heq]
      change 0x80022000 ≤ _
      omega
    · rw [UInt64.lt_iff_toNat_lt, heq, show PHYSTOP.toNat = 0x88000000 by rfl]
      omega

end Xv6Ringbuf.Kernel
