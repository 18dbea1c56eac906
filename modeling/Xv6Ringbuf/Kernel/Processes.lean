import Xv6Ringbuf.Kernel.Ledger
import Xv6Ringbuf.Kernel.Freewalk

namespace Xv6Ringbuf.Kernel

open Machine Function

structure Proc where
  sz : UInt64
  trapframe : UInt64

structure World where
  sys : Sys
  procs : Pid → Option Proc

def noPagetable : Pagetable := ⟨0, fun _ => none⟩

theorem leaf_noPagetable (n : Nat) : noPagetable.leaf n = none := by
  rw [Pagetable.leaf]
  exact ite_self _

-- The address space of a process has been freed, and the process goes on as
-- `next` says.
def World.leave (w : World) (pid : Pid) (s' : State) (image : Pagetable) (next : Option Proc) : World :=
  ⟨⟨s'.freelist, s'.ringbufs, update w.sys.pagetables pid image⟩,
    update w.procs pid next⟩

def World.tearDown (w : World) (pid : Pid) (mem : UInt64 → UInt8) (free : List UInt64) (x : K Unit)
    (image : Pagetable) (next : Option Proc) : Except Panic World :=
  match x.run ⟨free, mem, w.sys.pagetables pid, w.sys.ringbufs, [], none⟩ with
  | .error e => .error e
  | .ok (_, s') => .ok (w.leave pid s' image next)

def World.freeproc [Image] (w : World) (pid : Pid) (p : Proc) (mem : UInt64 → UInt8) :
    Except Panic World :=
  w.tearDown pid mem w.sys.freelist (Kernel.freeproc p.trapframe p.sz) noPagetable none

-- The end of `exec`: the new image has been built, which has left `free` on the
-- free list.
def World.exec [Image] (w : World) (pid : Pid) (p : Proc) (mem : UInt64 → UInt8) (free : List UInt64)
    (image : Pagetable) (sz : UInt64) : Except Panic World :=
  w.tearDown pid mem free (procFreepagetable p.sz) image (some { p with sz := sz })

theorem World.leave_pagetables (w : World) (pid : Pid) (s' : State) (image : Pagetable)
    (next : Option Proc) (pid' : Pid) : (w.leave pid s' image next).sys.pagetables pid' =
      if pid' = pid then image else w.sys.pagetables pid' :=
  update_apply _ _ _ _

theorem World.leave_procs (w : World) (pid : Pid) (s' : State) (image : Pagetable)
    (next : Option Proc) (pid' : Pid) : (w.leave pid s' image next).procs pid' =
      if pid' = pid then next else w.procs pid' :=
  update_apply _ _ _ _

section Layout

variable [Image] {pt : Pagetable} {sz : UInt64} {Ring : Nat → Prop} (h : Layout pt sz Ring)

include h

theorem Layout.next {pt' : Pagetable} {Ring' : Nat → Prop} (htree : pt'.Tree)
    (hsame : ∀ n, n < 2 ^ 19 ∨ 2 ^ 26 - 2 ≤ n → pt'.leaf n = pt.leaf n)
    (hring : ∀ n pte, pt'.leaf n = some pte →
      pt.leaf n = some pte ∧ (Ring n → Ring' n) ∨ Ring' n ∧ pte.perm = permRing) :
    Layout pt' sz Ring' := by
  have hsize := h.size
  refine ⟨htree, hsize, ?_, ?_, ?_⟩
  · intro n hn
    rw [hsame n (.inl (by omega))]
    exact h.user n hn
  · intro n hn hn'
    rw [hsame n (.inr hn)]
    exact h.top n hn hn'
  · intro n hn hn' pte hleaf
    rcases hring n pte hleaf with ⟨hold, hmono⟩ | hnew
    · obtain ⟨hRing, hperm⟩ := h.ring n hn hn' pte hold
      exact ⟨hmono hRing, hperm⟩
    · exact hnew

end Layout

section Image

variable [Image] {image : Pagetable} {sz : UInt64} (h : Layout image sz fun _ => False)

include h

theorem Layout.unmapped {n : Nat} (hn : userPages sz ≤ n) (hn' : n < 2 ^ 26 - 2) :
    image.leaf n = none := by
  rw [Option.eq_none_iff_forall_ne_some]
  intro pte hleaf
  exact (h.ring n hn hn' pte hleaf).1

theorem Layout.hole : ∃ n, 0 < n ∧ n < 2 ^ 19 ∧ image.leaf n = none := by
  have hsize := h.size
  exact ⟨max 1 (userPages sz), by omega, by omega, h.unmapped (by omega) (by omega)⟩

theorem Layout.userValid {n : Nat} {pte : Pte} (hleaf : image.leaf n = some pte)
    (hu : pte.perm.u = true) : ValidPage pte.pa := by
  have hlt := lt_of_leaf_eq hleaf
  by_cases hn : n < userPages sz
  · obtain ⟨pte', hpte', _, hvalid⟩ := h.user n hn
    rw [hleaf] at hpte'
    exact Option.some.inj hpte' ▸ hvalid rfl
  · by_cases hn' : n < 2 ^ 26 - 2
    · exact (h.ring n (Nat.le_of_not_lt hn) hn' pte hleaf).1.elim
    · obtain ⟨pte', hpte', _, hu'⟩ := h.top n (by omega) hlt
      rw [hleaf] at hpte'
      cases hpte'
      rw [hu] at hu'
      cases hu'

end Image

-- All rings are accounted for, and the address space of each process holds its
-- memory and its open mappings.
structure Settled [Image] (w : World) (maps : List Mapping) : Prop where
  sound : Sound w.sys
  ledger : Ledger w.sys maps
  layout : ∀ pid p, w.procs pid = some p → Layout (w.sys.pagetables pid) p.sz (InRing maps pid)
  trapframe : ∀ pid p, w.procs pid = some p → ValidPage p.trapframe

-- A ring call of a process that keeps the books in order and has memory for the
-- answer to an open.
structure Careful (w : World) (maps : List Mapping) (c : Call) : Prop where
  live : w.procs c.pid ≠ none
  proper : Proper w.sys maps c
  cell : c.opens ≠ 0 → CellMapped (w.sys.pagetables c.pid) c.addr 8

section Ring

variable [Image] {w : World} {maps : List Mapping} {c : Call} {r : Int32} {s' : State}
  (h : Settled w maps) (hcareful : Careful w maps c) (hrun : w.sys.run c = .ok (r, s'))

include h hcareful hrun

theorem Settled.layout_next {sz : UInt64}
    (hlayout : Layout (w.sys.pagetables c.pid) sz (InRing maps c.pid)) :
    Layout s'.pagetable sz (InRing (Kernel.ledger w.sys c r s' maps) c.pid) := by
  have htree : s'.pagetable.Tree :=
    ((ringbuf_keeps c.name c.opens c.addr _ ⟨h.sound.valid.free, hlayout.tree⟩).ok hrun).tree
  refine hlayout.next htree (fun n hn => ?_) fun n pte hpte => ?_
  · by_cases hr : r = 0
    · by_cases hopens : c.opens = 0
      · obtain ⟨k, hcount, hfind, hleaf, _⟩ := h.sound.closed hrun hr hopens
        have hclosing : closing w.sys c ∈ maps :=
          hcareful.proper.close hopens hcount (Option.ne_none_iff_exists'.mpr ⟨k, hfind⟩)
        obtain ⟨_, hlow, hhigh⟩ := h.ledger.at_base _ hclosing
        change 2 ^ 19 + 32 ≤ vpn (closeBase (w.sys.state c) c.addr) at hlow
        change vpn (closeBase (w.sys.state c) c.addr) < 2 ^ 26 - 3 at hhigh
        rw [hleaf, unmapRing, if_neg (by omega)]
      · obtain ⟨k, n, base, rb, rb', hbase, hlow, hhigh, _, hopened, _⟩ := h.sound.opened hrun hr hopens
        rw [hopened.leaf, mapRing, if_neg (by omega)]
        rfl
    · rw [h.sound.leaf_failed hrun hcareful.cell hr]
  · refine h.sound.leaf_next hrun hcareful.cell c.pid n pte ?_
    rw [Sys.next_pagetables, if_pos rfl]
    exact hpte

theorem Settled.ring :
    Settled ⟨w.sys.next c s', w.procs⟩ (Kernel.ledger w.sys c r s' maps) := by
  refine ⟨h.sound.next hrun, h.ledger.next h.sound hrun hcareful.proper, ?_, h.trapframe⟩
  intro pid p hproc
  have hlayout := h.layout pid p hproc
  rw [Sys.next_pagetables]
  by_cases heq : pid = c.pid
  · rw [if_pos heq, heq]
    exact h.layout_next hcareful hrun (heq ▸ hlayout)
  · rw [if_neg heq]
    refine hlayout.next hlayout.tree (fun _ _ => rfl) fun n pte hpte => ?_
    refine h.sound.leaf_next hrun hcareful.cell pid n pte ?_
    rw [Sys.next_pagetables, if_neg heq]
    exact hpte

end Ring

section TearDown

variable [Image] {w : World} {maps : List Mapping} {pid : Pid} (h : Settled w maps)

include h

theorem Settled.open_iff {p : Proc} (hproc : w.procs pid = some p) :
    (∃ n, userPages p.sz ≤ n ∧ n < 2 ^ 26 - 2 ∧ (w.sys.pagetables pid).leaf n ≠ none) ↔
      ∃ m ∈ maps, m.pid = pid := by
  have hlayout := h.layout pid p hproc
  constructor
  · rintro ⟨n, hn, hn', hleaf⟩
    obtain ⟨pte, hpte⟩ := Option.ne_none_iff_exists'.mp hleaf
    obtain ⟨m, hm, hpid, _⟩ := (hlayout.ring n hn hn' pte hpte).1
    exact ⟨m, hm, hpid⟩
  · rintro ⟨m, hm, rfl⟩
    obtain ⟨_, hlow, hhigh⟩ := h.ledger.at_base m hm
    have hsize := hlayout.size
    refine ⟨m.page, by omega, by omega, ?_⟩
    rw [h.ledger.mapped m hm m.page (Nat.le_refl _) (by omega)]
    simp

theorem Settled.leave {s s' : State} {image : Pagetable} {next : Option Proc}
    (hclosed : ∀ m ∈ maps, m.pid ≠ pid) (hrings : s.ringbufs = w.sys.ringbufs)
    (hfree : ∀ pa ∈ s.freelist, ValidPage pa) (hfreed : Freed s s')
    (hhole : ∃ n, 0 < n ∧ n < 2 ^ 19 ∧ image.leaf n = none)
    (huser : ∀ n pte, image.leaf n = some pte → pte.perm.u = true → ValidPage pte.pa)
    (hnext : ∀ p, next = some p → Layout image p.sz (fun _ => False) ∧ ValidPage p.trapframe) :
    Settled (w.leave pid s' image next) maps := by
  have hrings' : (w.leave pid s' image next).sys.ringbufs = w.sys.ringbufs :=
    hfreed.frame.ringbufs.trans hrings
  have hvalid : PagesValid (w.leave pid s' image next).sys.freelist w.sys.ringbufs :=
    ⟨hfreed.free hfree, h.sound.valid.live⟩
  refine ⟨⟨?_, ?_, hrings'.symm ▸ hvalid⟩, ⟨h.ledger.at_base, ?_, h.ledger.apart, ?_, ?_⟩, ?_, ?_⟩
  · intro pid'
    rw [World.leave_pagetables]
    by_cases heq : pid' = pid
    · rw [if_pos heq]
      exact hhole
    · rw [if_neg heq]
      exact h.sound.hole pid'
  · intro pid' n pte
    rw [World.leave_pagetables]
    by_cases heq : pid' = pid
    · rw [if_pos heq]
      exact huser n pte
    · rw [if_neg heq]
      exact h.sound.user pid' n pte
  · intro m hm
    rw [World.leave_pagetables, if_neg (hclosed m hm), hrings']
    exact h.ledger.mapped m hm
  · rw [hrings']
    exact h.ledger.count
  · rw [hrings']
    exact h.ledger.named
  · intro pid' p hproc
    rw [World.leave_procs] at hproc
    rw [World.leave_pagetables]
    by_cases heq : pid' = pid
    · rw [if_pos heq] at hproc ⊢
      have hlayout := (hnext p hproc).1
      exact hlayout.next hlayout.tree (fun _ _ => rfl) fun n pte hpte =>
        .inl ⟨hpte, fun hfalse => hfalse.elim⟩
    · rw [if_neg heq] at hproc ⊢
      exact h.layout pid' p hproc
  · intro pid' p hproc
    rw [World.leave_procs] at hproc
    by_cases heq : pid' = pid
    · rw [if_pos heq] at hproc
      exact (hnext p hproc).2
    · rw [if_neg heq] at hproc
      exact h.trapframe pid' p hproc

end TearDown

end Xv6Ringbuf.Kernel
