import Xv6Ringbuf.Ipc.Pipe
import Xv6Ringbuf.Kernel.Capacity

namespace Xv6Ringbuf.Ipc

open Machine Kernel Function

-- The copy loop of `piperead` with the page table and the memory of its process.
def pipereadFrom (addr : UInt64) : Nat → Nat → Pipe → K (Nat × Pipe)
  | 0, i, p => return (i, p)
  | left + 1, i, p =>
    if p.empty then return (i, p)
    else do
      let (ch, p) := p.pop
      if (← copyout (addr + UInt64.ofNat i) [ch]) = -1 then return (i, p)
      else pipereadFrom addr left (i + 1) p

-- What `piperead` does with the lock, from its start or after a sleep.
def piperead (killed : Bool) (addr : UInt64) (n : Int32) (p : Pipe) : K (Outcome × Pipe) :=
  if p.empty && p.writeopen then return (if killed then .returned (-1) else .asleep 0, p)
  else do
    let (i, p) ← pipereadFrom addr n.toInt.toNat 0 p
    return (.returned i, p)

def reaches (pt : Pagetable) (addr : UInt64) (i : Nat) : Bool :=
  pt.walkaddr (addr + UInt64.ofNat i) ≠ 0

def stores (pt : Pagetable) (addr : UInt64) : Nat → List UInt8 → (UInt64 → UInt8) → UInt64 → UInt8
  | _, [], mem => mem
  | i, ch :: bytes, mem =>
    stores pt addr (i + 1) bytes (Function.update mem (cell pt (addr + UInt64.ofNat i)) ch)

theorem storeBytes_single (pa : UInt64) (ch : UInt8) (mem : UInt64 → UInt8) :
    (fun a => if (a - pa).toNat < [ch].length then [ch].getD (a - pa).toNat 0 else mem a) =
      update mem pa ch := by
  funext a
  by_cases heq : a = pa
  · have hzero : (a - pa).toNat = 0 := by
      rw [heq, UInt64.sub_self]
      rfl
    rw [heq, update_self]
    rw [heq] at hzero
    rw [hzero]
    rfl
  · have hne : (a - pa).toNat ≠ 0 := by
      intro hzero
      have hsub : a - pa = 0 := UInt64.toNat_inj.mp hzero
      have hsum := UInt64.sub_add_cancel a pa
      rw [hsub, UInt64.zero_add] at hsum
      exact heq hsum.symm
    rw [update_of_ne heq, if_neg (by rw [List.length_singleton]; omega)]

theorem copyout_byte (va : UInt64) (ch : UInt8) (s : State) :
    (copyout va [ch]).run s =
      if s.pagetable.walkaddr va = 0 then .ok (-1, s)
      else .ok (0, { s with mem := update s.mem (cell s.pagetable va) ch }) := by
  have hroom : min (PGSIZE - (va - PGROUNDDOWN va)).toNat [ch].length = 1 := by
    have hoff := toNat_sub_roundDown va
    have hle : va - PGROUNDDOWN va ≤ PGSIZE := by
      rw [UInt64.le_iff_toNat_le, hoff]
      exact Nat.le_of_lt (Nat.mod_lt _ (by decide))
    have hmod := Nat.mod_lt va.toNat (show 4096 > 0 by decide)
    rw [UInt64.toNat_sub_of_le _ _ hle, hoff, toNat_PGSIZE, List.length_singleton]
    omega
  unfold copyout
  rw [copyoutLoop, if_neg (by simp)]
  change (if s.pagetable.walkaddr (PGROUNDDOWN va) = 0 then pure (-1) else _ : K Int32).run s = _
  rw [walkaddr_roundDown]
  by_cases hzero : s.pagetable.walkaddr va = 0
  · rw [if_pos hzero, if_pos hzero]
    rfl
  · rw [if_neg hzero, if_neg hzero, hroom]
    have hcell : s.pagetable.walkaddr va + (va - PGROUNDDOWN va) = cell s.pagetable va := by
      rw [roundDown_offset]
      rfl
    rw [hcell]
    change (copyoutLoop _ _ _).run { s with mem := _ } = _
    rw [← storeBytes_single]
    rfl

theorem pipereadFrom_run (addr : UInt64) (left i : Nat) {p p' : Pipe} {bytes : List UInt8} (s : State)
    (h : Pipe.readFrom (reaches s.pagetable addr) left i p = (bytes, p')) :
    (pipereadFrom addr left i p).run s =
      .ok ((i + bytes.length, p'), { s with mem := stores s.pagetable addr i bytes s.mem }) := by
  induction left generalizing i p s bytes with
  | zero =>
    cases h
    rfl
  | succ left ih =>
    rw [Pipe.readFrom] at h
    rw [pipereadFrom]
    by_cases hempty : p.empty = true
    · rw [if_pos hempty] at h ⊢
      cases h
      rfl
    · rw [if_neg hempty] at h ⊢
      rw [StateT.run_bind, copyout_byte]
      by_cases hzero : s.pagetable.walkaddr (addr + UInt64.ofNat i) = 0
      · have hfail : reaches s.pagetable addr i = false := by simp [reaches, hzero]
        simp only [hfail, Bool.false_eq_true, if_false] at h
        rw [if_pos hzero]
        cases h
        rfl
      · have hok : reaches s.pagetable addr i = true := by simp [reaches, hzero]
        simp only [hok, if_true] at h
        rw [if_neg hzero]
        generalize hrest : Pipe.readFrom (reaches s.pagetable addr) left (i + 1) p.pop.2 = rest at h
        obtain ⟨bytes', p''⟩ := rest
        change (p.pop.1 :: bytes', p'') = (bytes, p') at h
        cases h
        have hnext := ih (i + 1) { s with
          mem := update s.mem (cell s.pagetable (addr + UInt64.ofNat i)) p.pop.1 } hrest
        rw [List.length_cons, show i + (bytes'.length + 1) = i + 1 + bytes'.length by omega]
        exact hnext

section Stores

variable {pt : Pagetable} {addr : UInt64}

-- The pages of the user start at multiples of the page size, as in any page table.
def PagesAligned (pt : Pagetable) : Prop :=
  ∀ n pte, pt.leaf n = some pte → pte.perm.u = true → pte.pa % PGSIZE = 0

theorem cell_mod (haligned : PagesAligned pt) (va : UInt64) :
    (cell pt va).toNat % 4096 = va.toNat % 4096 := by
  have hpage : (pt.walkaddr va).toNat % 4096 = 0 := by
    by_cases hmax : va < MAXVA
    · rw [walkaddr_eq pt hmax, Pagetable.user]
      cases hleaf : pt.leaf (vpn va) with
      | none => rfl
      | some pte =>
        by_cases hu : pte.perm.u = true
        · have hmod := congrArg UInt64.toNat (haligned _ _ hleaf hu)
          rw [UInt64.toNat_mod, toNat_PGSIZE] at hmod
          simp only [hu, if_true, Option.getD_some]
          exact hmod
        · simp only [hu, Bool.false_eq_true, if_false]
          rfl
    · rw [walkaddr_of_le _ (UInt64.not_lt.mp hmax)]
      rfl
  have hoff : (va % 4096).toNat = va.toNat % 4096 := UInt64.toNat_mod _ _
  rw [cell, UInt64.toNat_add, hoff]
  omega

theorem cell_ne (haligned : PagesAligned pt) {i j : Nat} (hlt : i < j) (hnear : j < i + 4096) :
    cell pt (addr + UInt64.ofNat i) ≠ cell pt (addr + UInt64.ofNat j) := by
  intro heq
  have hmod := congrArg (fun a => a.toNat % 4096) heq
  simp only [cell_mod haligned, UInt64.toNat_add, UInt64.toNat_ofNat'] at hmod
  omega

theorem stores_other (i : Nat) (bytes : List UInt8) (mem : UInt64 → UInt8) {pa : UInt64}
    (h : ∀ j < bytes.length, pa ≠ cell pt (addr + UInt64.ofNat (i + j))) :
    stores pt addr i bytes mem pa = mem pa := by
  induction bytes generalizing i mem with
  | nil => rfl
  | cons ch bytes ih =>
    rw [stores, ih]
    · rw [update_of_ne]
      exact h 0 (Nat.zero_lt_succ _)
    · intro j hj
      rw [Nat.add_assoc, Nat.add_comm 1 j]
      exact h (j + 1) (Nat.succ_lt_succ hj)

theorem stores_byte (addr : UInt64) (haligned : PagesAligned pt) (i : Nat) (bytes : List UInt8)
    (mem : UInt64 → UInt8) (hlen : bytes.length ≤ 4096) {j : Nat} (hj : j < bytes.length) :
    some (stores pt addr i bytes mem (cell pt (addr + UInt64.ofNat (i + j)))) = bytes[j]? := by
  induction bytes generalizing i j mem with
  | nil => cases hj
  | cons ch bytes ih =>
    rw [List.length_cons] at hlen hj
    cases j with
    | zero =>
      rw [stores, stores_other, Nat.add_zero, update_self, List.getElem?_cons_zero]
      intro k hk
      exact cell_ne haligned (by omega) (by omega)
    | succ j =>
      rw [stores, List.getElem?_cons_succ, show i + (j + 1) = i + 1 + j by omega]
      exact ih (i + 1) _ (by omega) (by omega)

end Stores

-- Exactly `r` bytes have left the pipe, and exactly these are in the user's buffer.
structure Delivers (s s' : State) (p p' : Pipe) (addr : UInt64) (r : Nat) : Prop where
  removed : p.contents = p.contents.take r ++ p'.contents
  count : p'.stored + r = p.stored
  stored : ∀ j < r, some (s'.mem (cell s.pagetable (addr + UInt64.ofNat j))) = p.contents[j]?
  rest : ∀ pa, (∀ j < r, pa ≠ cell s.pagetable (addr + UInt64.ofNat j)) → s'.mem pa = s.mem pa

variable {p p' : Pipe} {bytes : List UInt8}

theorem piperead_run (killed : Bool) (addr : UInt64) (n : Int32) (s : State)
    (hwait : (p.empty && p.writeopen) = false)
    (h : Pipe.readFrom (reaches s.pagetable addr) n.toInt.toNat 0 p = (bytes, p')) :
    (piperead killed addr n p).run s = .ok ((.returned bytes.length, p'),
      { s with mem := stores s.pagetable addr 0 bytes s.mem }) := by
  rw [piperead, hwait, if_neg (by decide), StateT.run_bind, pipereadFrom_run addr _ _ s h, Nat.zero_add]
  rfl

theorem delivers_of_reaches (hp : p.Bounded) {s : State} (haligned : PagesAligned s.pagetable)
    {addr : UInt64} {left : Nat} (hreach : ∀ j < min left p.stored, reaches s.pagetable addr j = true)
    (h : Pipe.readFrom (reaches s.pagetable addr) left 0 p = (bytes, p')) :
    Delivers s { s with mem := stores s.pagetable addr 0 bytes s.mem } p p' addr bytes.length := by
  have hsize : PIPESIZE = 512 := rfl
  obtain ⟨hcontents, hlen⟩ := Pipe.readFrom_ok (by simpa only [Nat.zero_add] using hreach) h
  have hbytes : p.contents.take bytes.length = bytes := by
    rw [hcontents, List.take_left']
    rfl
  have hcount := congrArg List.length hcontents
  rw [List.length_append, Pipe.length_contents, Pipe.length_contents] at hcount
  rw [Pipe.Bounded] at hp
  refine ⟨?_, by omega, ?_, ?_⟩
  · rw [hbytes]
    exact hcontents
  · intro j hj
    have hstored := stores_byte addr haligned 0 bytes s.mem (by omega) hj
    rw [Nat.zero_add] at hstored
    rw [hcontents, List.getElem?_append_left hj]
    exact hstored
  · intro pa hpa
    apply stores_other
    simpa only [Nat.zero_add] using hpa

-- A byte leaves the pipe before `copyout` is tried, so a read is exact only if none
-- of its copies fails.
theorem piperead_exact_iff (p : Pipe) (hp : p.Bounded) (s : State)
    (haligned : PagesAligned s.pagetable) (killed : Bool) (addr : UInt64) (n : Int32) :
    (∀ r p' s', (piperead killed addr n p).run s = .ok ((.returned r, p'), s') → 0 ≤ r →
      Delivers s s' p p' addr r.toNat) ↔
      ∀ j < min n.toInt.toNat p.stored, s.pagetable.walkaddr (addr + UInt64.ofNat j) ≠ 0 := by
  have hreaches : ∀ j, s.pagetable.walkaddr (addr + UInt64.ofNat j) ≠ 0 ↔
      reaches s.pagetable addr j = true := fun j => by simp [reaches]
  simp only [hreaches]
  generalize hread : Pipe.readFrom (reaches s.pagetable addr) n.toInt.toNat 0 p = result
  obtain ⟨bytes, p'⟩ := result
  constructor
  · intro hexact
    by_contra hnot
    simp only [not_forall] at hnot
    -- the first byte that cannot be copied
    obtain ⟨hk, hbad⟩ := Nat.find_spec hnot
    generalize hfirst : Nat.find hnot = k at hk hbad
    have hok : ∀ j < k, reaches s.pagetable addr j = true := by
      intro j hj
      have hmin := Nat.find_min hnot (show j < Nat.find hnot by omega)
      by_contra hj'
      exact hmin ⟨by omega, hj'⟩
    have hwait : (p.empty && p.writeopen) = false := by
      have hempty : p.empty ≠ true := by
        rw [Ne, Pipe.empty_iff]
        omega
      simp [hempty]
    obtain ⟨hlen, hstored⟩ := Pipe.readFrom_fails hk (by simpa only [Nat.zero_add] using hok)
      (by simpa only [Nat.zero_add, Bool.not_eq_true] using hbad) hread
    have hcount := (hexact _ _ _ (piperead_run killed addr n s hwait hread) (Int.natCast_nonneg _)).count
    rw [Int.toNat_natCast] at hcount
    omega
  · intro hreach r p'' s' hrun hr
    by_cases hwait : (p.empty && p.writeopen) = true
    · rw [piperead, if_pos hwait] at hrun
      cases killed with
      | false => cases hrun
      | true =>
        cases hrun
        exact absurd hr (by decide)
    · rw [piperead_run killed addr n s (Bool.eq_false_iff.mpr hwait) hread] at hrun
      cases hrun
      exact delivers_of_reaches hp haligned hreach hread

def onePageState : State := (smallSys 80).state ⟨1, [], 0, 0, fun _ => 0⟩

def pipeOfTwo : Pipe := ((Pipe.alloc fun _ => 0).push 1).push 2

theorem piperead_exact_iff_mapped : ∃ p' s',
    (piperead false 0 2 pipeOfTwo).run onePageState = .ok ((.returned 2, p'), s') ∧
      Delivers onePageState s' pipeOfTwo p' 0 2 := by
  have haligned : PagesAligned onePageState.pagetable := by
    intro n pte hleaf _
    rw [show onePageState.pagetable = onePage 0x87ffe000 from rfl, leaf_onePage] at hleaf
    by_cases hn : n = 0
    · rw [if_pos hn] at hleaf
      cases hleaf
      decide
    · rw [if_neg hn] at hleaf
      cases hleaf
  have hresult : ((piperead false 0 2 pipeOfTwo).run onePageState).toOption.map
      (fun result => result.1.1) = some (.returned 2) := by decide +kernel
  obtain ⟨⟨⟨outcome, p'⟩, s'⟩, hok, rfl⟩ := Option.map_eq_some_iff.mp hresult
  have hrun := ok_of_toOption hok
  refine ⟨p', s', hrun, (piperead_exact_iff pipeOfTwo (by decide +kernel) onePageState haligned false 0
    2).mpr ?_ 2 p' s' hrun (by decide)⟩
  decide +kernel

-- The last byte of the page can be stored, the next one cannot. One byte is returned,
-- but the pipe is empty.
theorem piperead_loses_byte :
    ((piperead false 4095 2 pipeOfTwo).run onePageState).toOption.map
      (fun result => (result.1.1, result.1.2.contents)) = some (.returned 1, []) ∧
    pipeOfTwo.contents = [1, 2] := by
  decide +kernel

end Xv6Ringbuf.Ipc
