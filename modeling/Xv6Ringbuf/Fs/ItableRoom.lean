import Xv6Ringbuf.Fs.HandCalls
import Xv6Ringbuf.Fs.KernRules
import Xv6Ringbuf.Fs.Layout
import Xv6Ringbuf.Trace

namespace Xv6Ringbuf.Fs

open Interleave Protocol Function

def Covers (base : Ip → Nat) (hand : Hand) (table : Table) : Prop :=
  ∀ i, (table i).ref ≤ base i + hand.count i

namespace Covers

variable {base : Ip → Nat} {hand : Hand} {table table' : Table}

theorem congr (h : Covers base hand table) (href : ∀ i, (table' i).ref = (table i).ref) :
    Covers base hand table' := by
  intro i
  rw [href i]
  exact h i

theorem update (h : Covers base hand table) (i : Ip) {entry : Inode}
    (href : entry.ref = (table i).ref) : Covers base hand (Function.update table i entry) := by
  apply h.congr
  intro j
  by_cases hji : j = i
  · rw [hji, update_self, href]
  · rw [update_of_ne hji]

theorem refer (h : Covers base hand table) (i : Ip) {entry : Inode}
    (href : entry.ref ≤ (table i).ref + 1) :
    Covers base (i :: hand) (Function.update table i entry) := by
  intro j
  have hj := h j
  simp only [List.count_cons]
  by_cases hji : j = i
  · subst hji
    simp only [update_self, beq_self_eq_true, if_true]
    omega
  · rw [update_of_ne hji]
    omega

theorem drop (h : Covers base hand table) (i : Ip) : Covers base (hand.erase i) (table.drop i) := by
  intro j
  have hj := h j
  simp only [Table.drop, List.count_erase]
  by_cases hji : j = i
  · subst hji
    simp only [update_self, beq_self_eq_true, if_true]
    omega
  · rw [update_of_ne hji, if_neg (by simpa using fun h => hji h.symm)]
    exact hj

theorem iget (h : Covers base hand table)
    (hroom : (Finset.univ.filter fun i => 0 < base i).card + hand.length < NINODE)
    (dev inum : UInt32) : table.iget dev inum ≠ none := by
  intro hnone
  have hfull := Table.iget_eq_none hnone
  have hsub : (Finset.univ : Finset Ip) ⊆
      (Finset.univ.filter fun i => 0 < base i) ∪ hand.toFinset := by
    intro i _
    have hi := h i
    have hpos := hfull i
    by_cases hmem : i ∈ hand
    · exact Finset.mem_union_right _ (List.mem_toFinset.mpr hmem)
    · rw [List.count_eq_zero_of_not_mem hmem] at hi
      apply Finset.mem_union_left
      simp only [Finset.mem_filter, Finset.mem_univ, true_and]
      omega
  have hcard := (Finset.card_le_card hsub).trans (Finset.card_union_le _ _)
  have hrefs := hand.toFinset_card_le
  rw [Finset.card_fin] at hcard
  omega

variable {P : Type} [DecidableEq P] {p : P} {m m' : Mem P}

theorem step (h : Covers base hand m.table) {a : Sys} {answer : a.Answer}
    (hstep : m.handle p a = .ok (answer, m')) : Covers base (Hand.move hand a answer) m'.table := by
  cases a with
  | bio _ | logWrite _ | beginOp | endOp | committed _ | panic _ => cases hstep
  | iget dev inum =>
    simp only [Mem.handle, Mem.iget] at hstep
    split at hstep
    · rename_i i table higet
      obtain ⟨rfl, rfl⟩ := Prod.mk.inj (Except.ok.inj hstep)
      rcases Table.iget_cases higet with ⟨_, rfl⟩ | ⟨hfree, _, rfl⟩
      · exact h.refer i (Nat.le_refl _)
      · exact h.refer i (Nat.le_add_left ..)
    · cases hstep
  | idup i =>
    obtain ⟨rfl, rfl⟩ := Prod.mk.inj (Except.ok.inj hstep)
    exact h.refer i (Nat.le_refl _)
  | drop i =>
    obtain ⟨rfl, rfl⟩ := Prod.mk.inj (Except.ok.inj hstep)
    exact h.drop i
  | setDin i _ | setValid i _ =>
    obtain ⟨rfl, rfl⟩ := Prod.mk.inj (Except.ok.inj hstep)
    exact h.update i rfl
  | acquiresleep _ | filedup _ =>
    simp only [Mem.handle, Mem.acquiresleep, Mem.filedup] at hstep
    split at hstep
    · cases hstep
    · cases hstep
      exact h
  | releasesleep _ | proc =>
    simp only [Mem.handle, Mem.releasesleep, Mem.proc] at hstep
    split at hstep
    · cases hstep
      exact h
    · cases hstep
  | lastRef i =>
    simp only [Mem.handle, Mem.lastRef] at hstep
    split at hstep
    · split at hstep
      · cases hstep
      · obtain ⟨rfl, rfl⟩ := Prod.mk.inj (Except.ok.inj hstep)
        exact h
    · obtain ⟨rfl, rfl⟩ := Prod.mk.inj (Except.ok.inj hstep)
      exact h
  | filealloc =>
    have heq : m.filealloc = (answer, m') := Except.ok.inj hstep
    simp only [Mem.filealloc] at heq
    split at heq
    · obtain ⟨rfl, rfl⟩ := Prod.mk.inj heq
      exact h
    · obtain ⟨rfl, rfl⟩ := Prod.mk.inj heq
      exact h
  | fileclose f =>
    simp only [Mem.handle, Mem.fileclose] at hstep
    split at hstep
    · cases hstep
    · split at hstep
      · obtain ⟨rfl, rfl⟩ := Prod.mk.inj (Except.ok.inj hstep)
        exact h
      · obtain ⟨rfl, rfl⟩ := Prod.mk.inj (Except.ok.inj hstep)
        exact h
  | _ =>
    obtain ⟨rfl, rfl⟩ := Prod.mk.inj (Except.ok.inj hstep)
    exact h

theorem not_full (h : Covers base hand m.table)
    (hroom : (Finset.univ.filter fun i => 0 < base i).card + 3 ≤ NINODE) {a : Sys}
    (hok : Hand.ok hand a) : m.handle p a ≠ .error (.panic .igetNoInodes) := by
  intro hstep
  cases a with
  | iget dev inum =>
    have hfew : hand.length ≤ 2 := hok
    have hfound := h.iget (by omega) dev inum
    simp only [Mem.handle, Mem.iget] at hstep
    split at hstep
    · cases hstep
    · rename_i hnone
      exact hfound hnone
  | acquiresleep _ | releasesleep _ | proc | filedup _ =>
    simp only [Mem.handle, Mem.acquiresleep, Mem.releasesleep, Mem.proc, Mem.filedup] at hstep
    split at hstep
    · cases hstep
    · cases hstep
  | lastRef i =>
    simp only [Mem.handle, Mem.lastRef] at hstep
    split at hstep
    · split at hstep
      · cases hstep
      · cases hstep
    · cases hstep
  | fileclose f =>
    simp only [Mem.handle, Mem.fileclose] at hstep
    split at hstep
    · cases hstep
    · split at hstep
      · cases hstep
      · cases hstep
  | panic q =>
    have hne : q ≠ .igetNoInodes := hok
    simp only [Mem.handle, Except.error.injEq, Stop.panic.injEq] at hstep
    exact hne hstep
  | _ => cases hstep

end Covers

theorem Kern.handle_not_full {P : Type} [DecidableEq P] {s : Kern P} {p : P} {base : Ip → Nat}
    {hand : Hand} (h : Covers base hand s.table)
    (hroom : (Finset.univ.filter fun i => 0 < base i).card + 3 ≤ NINODE) {a : Sys}
    (hok : Hand.ok hand a) : s.handle p a ≠ .error (.panic .igetNoInodes) := by
  intro hhandle
  by_cases ha : a.OnDisk
  · cases handle_disk_error ha hhandle
  · rw [handle_mem ha] at hhandle
    cases hmem : s.toMem.handle p a with
    | ok result =>
      rw [hmem] at hhandle
      cases hhandle
    | error stop =>
      rw [hmem] at hhandle
      rw [Except.error.inj hhandle] at hmem
      exact h.not_full hroom hok hmem

theorem Kern.handle_covers {P : Type} [DecidableEq P] {s s' : Kern P} {p : P} {base : Ip → Nat}
    {hand : Hand} (h : Covers base hand s.table) {a : Sys} {answer : a.Answer}
    (hhandle : s.handle p a = .ok (answer, s')) :
    Covers base (Hand.move hand a answer) s'.table := by
  by_cases ha : a.OnDisk
  · have hmove : Hand.move hand a answer = hand := by
      cases a with
      | bio _ | logWrite _ | beginOp | endOp | committed _ => rfl
      | _ => exact ha.elim
    rw [handle_disk ha hhandle, hmove]
    exact h
  · rw [handle_mem ha] at hhandle
    cases hmem : s.toMem.handle p a with
    | ok result =>
      rw [hmem] at hhandle
      cases hhandle
      exact h.step hmem
    | error stop =>
      rw [hmem] at hhandle
      cases hhandle

theorem Step.code_bounded {P : Type} (sb : Superblock) (e : Step P) : Bounded (e.code sb) [] := by
  cases e with
  | call p syscall => exact (syscall.code_bounded sb).bind fun _ _ _ => trivial
  | fork p child => exact Fsys.fork_bounded.bind fun _ _ _ => trivial
  | exit p => exact (Fsys.exit_light sb []).bind fun _ _ _ => trivial

def Task.Keeps {P : Type} : Task P → Hand → Prop
  | .running rest, hand => Bounded rest hand ∧ hand.length ≤ 3
  | _, hand => hand = []

theorem Task.Keeps.length_le {P : Type} {task : Task P} {hand : Hand} (h : task.Keeps hand) :
    hand.length ≤ if task.isRunning then 3 else 0 := by
  cases task with
  | idle | embryo => exact (congrArg List.length h).le
  | running rest => exact h.2

namespace Sched

variable {P : Type}

def active (s : Sched P) : Nat := (Finset.univ.filter fun i => 0 < (s.table i).ref).card

def inKernel [Fintype P] (s : Sched P) : Finset P := Finset.univ.filter fun p => (s.task p).isRunning

theorem mem_inKernel [Fintype P] {s : Sched P} {p : P} :
    p ∈ s.inKernel ↔ (s.task p).isRunning = true := by
  simp [inKernel]

-- The references are bounded by a number of old ones in `base` and by what the
-- processes have in their hands. Each call in progress has room for three more
-- entries beside the old ones.
structure Room [Fintype P] (s : Sched P) (base : Ip → Nat) (hand : P → Hand) : Prop where
  covers : ∀ i, (s.table i).ref ≤ base i + ∑ p, (hand p).count i
  keeps : ∀ p, (s.task p).Keeps (hand p)
  room : (Finset.univ.filter fun i => 0 < base i).card + 3 * s.inKernel.card ≤ NINODE

def besides (base : Ip → Nat) (hand : P → Hand) (ps : Finset P) (i : Ip) : Nat :=
  base i + ∑ p ∈ ps, (hand p).count i

theorem card_besides_le (base : Ip → Nat) (hand : P → Hand) (ps : Finset P) :
    (Finset.univ.filter fun i => 0 < besides base hand ps i).card ≤
      (Finset.univ.filter fun i => 0 < base i).card + ∑ p ∈ ps, (hand p).length := by
  have hsub : (Finset.univ.filter fun i => 0 < besides base hand ps i) ⊆
      (Finset.univ.filter fun i => 0 < base i) ∪ ps.biUnion fun p => (hand p).toFinset := by
    intro i hi
    simp only [besides, Finset.mem_filter, Finset.mem_univ, true_and, Nat.add_pos_iff_pos_or_pos] at hi
    rcases hi with hbase | hsum
    · exact Finset.mem_union_left _ (by simpa using hbase)
    · obtain ⟨p, hp, hcount⟩ := Finset.sum_pos_iff.mp hsum
      apply Finset.mem_union_right
      exact Finset.mem_biUnion.mpr ⟨p, hp, List.mem_toFinset.mpr (List.count_pos_iff.mp hcount)⟩
  refine (Finset.card_le_card hsub).trans ((Finset.card_union_le _ _).trans ?_)
  refine Nat.add_le_add_left (Finset.card_biUnion_le.trans ?_) _
  exact Finset.sum_le_sum fun p _ => (hand p).toFinset_card_le

namespace Room

variable {s : Sched P} {base : Ip → Nat} {hand : P → Hand}

section

variable [Fintype P]

theorem evict (h : Room s base hand) (b : Blockno) : Room (s.evict b) base hand := by
  unfold Sched.evict
  split
  · exact ⟨h.covers, h.keeps, h.room⟩
  · exact h

theorem of_idle (h : ∀ p, s.task p = .idle) : Room s (fun i => (s.table i).ref) fun _ => [] where
  covers i := Nat.le_add_right _ _
  keeps p := by
    rw [h p]
    rfl
  room := by
    have hnone : s.inKernel = ∅ := by simp [inKernel, h, Task.isRunning]
    have hall : (Finset.univ.filter fun i => 0 < (s.table i).ref).card ≤ NINODE :=
      (Finset.card_le_univ _).trans_eq (Finset.card_fin NINODE)
    rw [hnone, Finset.card_empty]
    exact hall

end

variable [DecidableEq P]

theorem keeps_setTask (h : ∀ q, (s.task q).Keeps (hand q)) {p : P} {task : Task P} {hand' : Hand}
    (htask : task.Keeps hand') (q : P) :
    ((s.setTask p task).task q).Keeps (update hand p hand' q) := by
  simp only [setTask]
  by_cases hq : q = p
  · rw [hq, update_self, update_self]
    exact htask
  · rw [update_of_ne hq, update_of_ne hq]
    exact h q

variable [Fintype P]

theorem covers_one (h : Room s base hand) (p : P) :
    Covers (besides base hand (Finset.univ.erase p)) (hand p) s.table := by
  intro i
  have hi := h.covers i
  rw [← Finset.add_sum_erase _ _ (Finset.mem_univ p)] at hi
  simp only [besides]
  omega

-- The hands of the other processes in the kernel.
theorem room_one (h : Room s base hand) {p : P} (hp : (s.task p).isRunning) :
    (Finset.univ.filter fun i => 0 < besides base hand (Finset.univ.erase p) i).card + 3 ≤ NINODE := by
  have hsum : ∑ q ∈ Finset.univ.erase p, (hand q).length ≤ 3 * (s.inKernel.erase p).card := by
    rw [inKernel, ← Finset.filter_erase, Finset.card_filter, Finset.mul_sum]
    refine Finset.sum_le_sum fun q _ => (h.keeps q).length_le.trans ?_
    split <;> simp
  have hmem : p ∈ s.inKernel := mem_inKernel.mpr hp
  have hcard := Finset.card_erase_add_one hmem
  have hbesides := card_besides_le base hand (Finset.univ.erase p)
  have hroom := h.room
  omega

theorem inKernel_setTask_idle (s : Sched P) (p : P) {task : Task P} (h : task.isRunning = false) :
    (s.setTask p task).inKernel = s.inKernel.erase p := by
  ext q
  rw [Finset.mem_erase, mem_inKernel, mem_inKernel, setTask]
  by_cases hq : q = p
  · simp [hq, h]
  · simp [hq]

theorem inKernel_setTask (s : Sched P) (p : P) (code : Fsys (Outcome P)) :
    (s.setTask p (.running code)).inKernel = insert p s.inKernel := by
  ext q
  rw [Finset.mem_insert, mem_inKernel, mem_inKernel, setTask]
  by_cases hq : q = p
  · simp [hq, Task.isRunning]
  · simp [hq]

theorem sum_update (hand : P → Hand) (p : P) (hand' : Hand) (i : Ip) :
    ∑ q, (update hand p hand' q).count i =
      hand'.count i + ∑ q ∈ Finset.univ.erase p, (hand q).count i := by
  rw [← Finset.add_sum_erase _ _ (Finset.mem_univ p), update_self]
  congr 1
  exact Finset.sum_congr rfl fun q hq => by rw [update_of_ne (Finset.ne_of_mem_erase hq)]

-- All references that are there when a call starts become old ones.
theorem enter (h : ∀ q, (s.task q).Keeps (hand q)) (p : P) {code : Fsys (Outcome P)}
    (hcode : Bounded code []) (hroom : s.active + 3 * (s.inKernel.card + 1) ≤ NINODE) :
    Room (s.setTask p (.running code)) (fun i => (s.table i).ref) (update hand p []) where
  covers i := Nat.le_add_right _ _
  keeps := keeps_setTask h ⟨hcode, Nat.zero_le 3⟩
  room := by
    rw [inKernel_setTask]
    have hcard := Finset.card_insert_le p s.inKernel
    have hactive : s.active + 3 * (insert p s.inKernel).card ≤ NINODE := by omega
    exact hactive

-- What a process has in its hand when its call ends, its open files and its
-- directory keep.
theorem leave (h : Room s base hand) (p : P) :
    Room (s.setTask p .idle) (besides base hand {p}) (update hand p []) where
  covers i := by
    have hi := h.covers i
    rw [← Finset.add_sum_erase _ _ (Finset.mem_univ p)] at hi
    rw [sum_update, besides, Finset.sum_singleton, List.count_nil, Nat.zero_add, Nat.add_assoc]
    exact hi
  keeps := keeps_setTask h.keeps rfl
  room := by
    rw [inKernel_setTask_idle s p rfl]
    have hbesides := card_besides_le base hand {p}
    have hlength := (h.keeps p).length_le
    have hroom := h.room
    rw [Finset.sum_singleton] at hbesides
    by_cases hp : (s.task p).isRunning
    · have hmem : p ∈ s.inKernel := mem_inKernel.mpr hp
      have hcard := Finset.card_erase_add_one hmem
      rw [if_pos hp] at hlength
      omega
    · have hcard : (s.inKernel.erase p).card ≤ s.inKernel.card := Finset.card_erase_le
      rw [if_neg hp] at hlength
      omega

theorem finish (h : Room s base hand) (p : P) (outcome : Outcome P) :
    ∃ base' hand', Room (s.finish p outcome) base' hand' := by
  cases outcome with
  | returned => exact ⟨_, _, h.leave p⟩
  | forked child proc =>
    have hproc : Room (s.setProc child (some proc)) base hand := ⟨h.covers, h.keeps, h.room⟩
    exact ⟨_, _, (hproc.leave child).leave p⟩
  | exited =>
    have hproc : Room (s.setProc p none) base hand := ⟨h.covers, h.keeps, h.room⟩
    exact ⟨_, _, hproc.leave p⟩

theorem start (h : Room s base hand) (sb : Superblock) (e : Step P)
    (hroom : s.active + 3 * (s.inKernel.card + 1) ≤ NINODE) :
    ∃ base' hand', Room (s.start sb e) base' hand' := by
  cases e with
  | call p syscall =>
    simp only [Sched.start]
    split
    · exact ⟨_, _, enter h.keeps p (Step.code_bounded sb _) hroom⟩
    · exact ⟨_, _, h⟩
  | fork p child =>
    simp only [Sched.start]
    split
    · have hembryo : (Task.embryo : Task P).Keeps [] := rfl
      have hkeeps := keeps_setTask (p := child) h.keeps hembryo
      refine ⟨_, _, enter hkeeps p (Step.code_bounded sb _) ?_⟩
      rw [inKernel_setTask_idle s child rfl]
      have hcard : (s.inKernel.erase child).card ≤ s.inKernel.card := Finset.card_erase_le
      have hactive : (s.setTask child .embryo).active = s.active := rfl
      omega
    · exact ⟨_, _, h⟩
  | exit p =>
    simp only [Sched.start]
    split
    · exact ⟨_, _, enter h.keeps p (Step.code_bounded sb _) hroom⟩
    · exact ⟨_, _, h⟩

theorem goOn (h : Room s base hand) {p : P} {a : Sys} {next : a.Answer → Fsys (Outcome P)}
    (htask : s.task p = .running (.act a next)) {answer : a.Answer} {k : Kern P}
    (hhandle : s.toKern.handle p a = .ok (answer, k)) :
    Room { toKern := k, task := update s.task p (.running (next answer)) } base
      (update hand p (Hand.move (hand p) a answer)) := by
  have hkeeps := h.keeps p
  rw [htask] at hkeeps
  have hcovers := Kern.handle_covers (h.covers_one p) hhandle
  constructor
  case covers =>
    intro i
    have hi := hcovers i
    rw [sum_update]
    simp only [besides] at hi
    change (k.table i).ref ≤ _
    omega
  case keeps =>
    exact keeps_setTask h.keeps ⟨hkeeps.1.2 answer, Hand.length_move hkeeps.2 hkeeps.1.1 answer⟩
  case room =>
    have hmem : p ∈ s.inKernel := mem_inKernel.mpr (by rw [htask]; rfl)
    have hsame : (s.setTask p (.running (next answer))).inKernel = s.inKernel := by
      rw [inKernel_setTask, Finset.insert_eq_of_mem hmem]
    have hroom := h.room
    rw [← hsame] at hroom
    exact hroom

theorem act (h : Room s base hand) (p : P) :
    (∀ s', s.act p = .ok s' → ∃ base' hand', Room s' base' hand') ∧
      s.act p ≠ .error .igetNoInodes := by
  unfold Sched.act
  split
  · rename_i a next htask
    have hkeeps := h.keeps p
    rw [htask] at hkeeps
    have hfull := Kern.handle_not_full (p := p) (h.covers_one p) (h.room_one (by rw [htask]; rfl)) hkeeps.1.1
    split
    · rename_i answer k hhandle
      exact ⟨fun s' hs => Except.ok.inj hs ▸ ⟨_, _, h.goOn htask hhandle⟩, nofun⟩
    · exact ⟨fun s' hs => Except.ok.inj hs ▸ ⟨_, _, h⟩, nofun⟩
    · rename_i q hhandle
      refine ⟨nofun, fun hq => ?_⟩
      rw [Except.error.inj hq] at hhandle
      exact hfull hhandle
  · exact ⟨fun s' hs => Except.ok.inj hs ▸ h.finish p _, nofun⟩
  · exact ⟨fun s' hs => Except.ok.inj hs ▸ ⟨_, _, h⟩, nofun⟩

end Room

variable [DecidableEq P] [Fintype P]

-- A call that starts finds room for three entries for each call in progress,
-- itself included.
def Roomy (s : Sched P) : Event P → Prop
  | .start _ => s.active + 3 * (s.inKernel.card + 1) ≤ NINODE
  | _ => True

instance (s : Sched P) (e : Event P) : Decidable (Roomy s e) :=
  match e with
  | .start _ => Nat.decLe _ _
  | .act _ => .isTrue trivial
  | .evict _ => .isTrue trivial

-- The induction is over the steps of all processes, in any order. It carries
-- `Room`, and only the start of a call needs `Roomy`.
theorem table_never_full {sb : Superblock} {s : Sched P} {events : List (Event P)}
    (hidle : ∀ p, s.task p = .idle) (hmeets : Trace.Meets (step sb) Roomy s events) :
    Trace.tryRun (step sb) s events ≠ .error .igetNoInodes := by
  have hok : ∀ (s : Sched P) (e : Event P) (s' : Sched P), (∃ base hand, Room s base hand) →
      Roomy s e → step sb s e = .ok s' → ∃ base hand, Room s' base hand := by
    rintro s e s' ⟨base, hand, h⟩ hroom hstep
    cases e with
    | start e => exact Except.ok.inj hstep ▸ h.start sb e hroom
    | act p => exact (h.act p).1 s' hstep
    | evict b => exact Except.ok.inj hstep ▸ ⟨_, _, h.evict b⟩
  have herror : ∀ (s : Sched P) (e : Event P) (q : FsPanic), (∃ base hand, Room s base hand) →
      Roomy s e → step sb s e = .error q → q ≠ .igetNoInodes := by
    rintro s e q ⟨base, hand, h⟩ _ hstep rfl
    cases e with
    | start e => cases hstep
    | act p => exact (h.act p).2 hstep
    | evict b => cases hstep
  have hkeeps := Trace.tryRun_keeps hok herror ⟨_, _, Room.of_idle hidle⟩ hmeets
  exact fun hrun => hkeeps.2 _ hrun rfl

end Sched

section Crowd

def crowdDir (self parent : Nat) (child : Nat → Nat) : Block := fun off =>
  let j := off.val / sizeofDirent
  if off.val % sizeofDirent = 0 then
    UInt8.ofNat (if j = 0 then self else if j = 1 then parent else child (j - 2))
  else if off.val % sizeofDirent = 2 then UInt8.ofNat (if j ≤ 1 then 46 else 64 + j)
  else if off.val % sizeofDirent = 3 ∧ j = 1 then 46
  else 0

-- The root is inode 1, and the inodes 2 to 5 are directories with twelve empty
-- files each.
def crowdInode (k : Nat) : Dinode :=
  if k = 0 ∨ 54 ≤ k then .zero
  else if k = 1 then ⟨T_DIR, 0, 0, 5, 96, fun i => if i = 0 then 46 else 0⟩
  else if k ≤ 5 then ⟨T_DIR, 0, 0, 1, 224, fun i => if i = 0 then UInt32.ofNat (45 + k) else 0⟩
  else ⟨T_FILE, 0, 0, 1, 0, fun _ => 0⟩

def crowdDisk : Blockno → Block := fun b =>
  let b := b.toNat
  if b = 46 then crowdDir 1 1 (2 + ·)
  else if 47 ≤ b ∧ b < 51 then crowdDir (b - 45) 1 (6 + 12 * (b - 47) + ·)
  else if 32 ≤ b ∧ b < 45 then fun off =>
    wordByte ((crowdInode (16 * (b - 32) + off.val / 64)).word (off.val / 4 % 16)) (off.val % 4)
  else if b = 45 then Mkfs.usedBits 51
  else zeroBlock

def crowdSteps : List (Step (Fin 4)) :=
  [.fork 0 1, .fork 0 2, .fork 0 3] ++
    (List.finRange 4).flatMap fun p =>
      .call p (.chdir [Fsys.slash, UInt8.ofNat (66 + p)]) ::
        (List.range (if p = 3 then 11 else 12)).map fun j =>
          .call p (.open [UInt8.ofNat (66 + j)] ⟨false, false, false, false, false⟩)

def crowdEvents : List (Sched.Event (Fin 4)) :=
  crowdSteps.flatMap fun e => .start e :: List.replicate 100 (.act e.pid)

-- Four directories and 46 files fill the table. No process has more than twelve
-- files open, and the next `open` panics. Here the calls come one after the other.
theorem crowd_panics :
    Trace.tryRun (Sched.step Mkfs.sb) (Sched.boot 0 crowdDisk) crowdEvents = .error .igetNoInodes :=
  Trace.failure_eq_some (by decide +kernel)

-- A child and its parent walk to two files at the same time.
def overlapEvents : List (Sched.Event (Fin 2)) :=
  let path (c : UInt8) := [Fsys.slash, c, Fsys.slash, c]
  .start (.fork 0 1) :: List.replicate 30 (.act 0) ++
    [.start (.call 0 (.open (path 66) ⟨false, false, false, false, false⟩)),
      .start (.call 1 (.open (path 67) ⟨false, false, false, false, false⟩))] ++
    (List.replicate 120 [.act 0, .act 1]).flatten

def opened (p : Fin 2) (result : Except FsPanic (Sched (Fin 2))) : Bool :=
  match result with
  | .ok s => (s.task p).isIdle && (((s.procs p).map fun proc => (proc.ofile ⟨0, by decide⟩).isSome).getD false)
  | .error _ => false

theorem table_never_full_overlapping :
    let result := Trace.tryRun (Sched.step Mkfs.sb) (Sched.boot 0 crowdDisk) overlapEvents
    (opened 0 result ∧ opened 1 result) ∧ result ≠ .error .igetNoInodes :=
  ⟨by decide +kernel, Sched.table_never_full (fun _ => rfl) (by decide +kernel)⟩

end Crowd

end Xv6Ringbuf.Fs
