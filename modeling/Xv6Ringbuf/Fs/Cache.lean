import Xv6Ringbuf.Fs.Log

namespace Xv6Ringbuf.Fs

open Function

-- `struct buf`. `locked` is its sleep lock.
structure CacheBuf where
  dev : UInt32
  blockno : Blockno
  valid : Bool
  refcnt : Nat
  locked : Bool
  data : Block

def CacheBuf.Holds (buf : CacheBuf) (dev : UInt32) (b : Blockno) : Prop :=
  buf.dev = dev ∧ buf.blockno = b

instance (buf : CacheBuf) (dev : UInt32) (b : Blockno) : Decidable (buf.Holds dev b) :=
  inferInstanceAs (Decidable (_ ∧ _))

abbrev Bp := Fin NBUF

-- `bcache` in front of the disk. `lru` is the list through `next`, with the most
-- recently used buffer first.
structure Cache where
  disk : Blockno → Block
  buf : Bp → CacheBuf
  lru : List Bp

def binit (disk : Blockno → Block) : Cache :=
  ⟨disk, fun _ => ⟨0, 0, false, 0, false, fun _ => 0⟩, (List.finRange NBUF).reverse⟩

namespace Cache

def set (c : Cache) (i : Bp) (buf : CacheBuf) : Cache :=
  { c with buf := update c.buf i buf }

def cached (c : Cache) (dev : UInt32) (b : Blockno) : Option Bp :=
  c.lru.find? fun i => (c.buf i).Holds dev b

-- The least recently used buffer without a reference.
def unused (c : Cache) : Option Bp :=
  c.lru.reverse.find? fun i => (c.buf i).refcnt = 0

-- What `bget` does under `bcache.lock`. Without a buffer to recycle it panics.
def bget (c : Cache) (dev : UInt32) (b : Blockno) : Option (Bp × Cache) :=
  match c.cached dev b with
  | some i => some (i, c.set i { c.buf i with refcnt := (c.buf i).refcnt + 1 })
  | none => c.unused.map fun i =>
    (i, c.set i { c.buf i with dev := dev, blockno := b, valid := false, refcnt := 1 })

def acquiresleep (c : Cache) (i : Bp) : Option Cache :=
  if (c.buf i).locked then none else some (c.set i { c.buf i with locked := true })

def fill (c : Cache) (i : Bp) : Cache :=
  if (c.buf i).valid then c
  else c.set i { c.buf i with data := c.disk (c.buf i).blockno, valid := true }

-- Called alone, `bread` of a locked buffer does not return.
def bread (c : Cache) (dev : UInt32) (b : Blockno) : Option (Bp × Cache) := do
  let (i, c) ← c.bget dev b
  let c ← c.acquiresleep i
  return (i, c.fill i)

def bwrite (c : Cache) (i : Bp) : Cache :=
  { c with disk := update c.disk (c.buf i).blockno (c.buf i).data }

def drop (c : Cache) (i : Bp) : Cache :=
  c.set i { c.buf i with refcnt := (c.buf i).refcnt - 1 }

-- The last reference moves the buffer to the front of the list.
def brelse (c : Cache) (i : Bp) : Cache :=
  let c := (c.set i { c.buf i with locked := false }).drop i
  if (c.buf i).refcnt = 0 then { c with lru := i :: c.lru.erase i } else c

def bpin (c : Cache) (i : Bp) : Cache :=
  c.set i { c.buf i with refcnt := (c.buf i).refcnt + 1 }

-- The buffer of a block that this process has locked. The calls below panic
-- without it.
def held (c : Cache) (b : Blockno) : Option Bp :=
  (c.cached ROOTDEV b).filter fun i => (c.buf i).locked

-- The calls of bio.c on the device that holds the file system.
def act : (a : Act) → Cache → Option (Answer a × Cache)
  | .bread b, c => (c.bread ROOTDEV b).map fun (i, c') => ((c'.buf i).data, c')
  | .memmove b data, c => (c.held b).map fun i => ((), c.set i { c.buf i with data := data })
  | .bwrite b, c => (c.held b).map fun i => ((), c.bwrite i)
  | .brelse b, c => (c.held b).map fun i => ((), c.brelse i)
  | .bpin b, c => (c.held b).map fun i => ((), c.bpin i)
  | .bunpin b, c => (c.held b).map fun i => ((), c.drop i)

def inUse (c : Cache) : Nat := (Finset.univ.filter fun i => 0 < (c.buf i).refcnt).card

theorem inUse_lt_iff (c : Cache) : c.inUse < NBUF ↔ ∃ i, (c.buf i).refcnt = 0 := by
  have hcard : (Finset.univ : Finset Bp).card = NBUF := Finset.card_fin NBUF
  constructor
  · intro h
    by_contra hall
    have huniv : (Finset.univ.filter fun i => 0 < (c.buf i).refcnt) = Finset.univ := by
      apply Finset.filter_true_of_mem
      intro i _
      exact Nat.pos_of_ne_zero fun hzero => hall ⟨i, hzero⟩
    rw [inUse, huniv, hcard] at h
    omega
  · rintro ⟨i, hi⟩
    rw [← hcard]
    apply Finset.card_lt_card
    refine Finset.filter_ssubset.mpr ⟨i, Finset.mem_univ i, ?_⟩
    omega

@[simp] theorem set_disk (c : Cache) (i : Bp) (buf : CacheBuf) : (c.set i buf).disk = c.disk := rfl

@[simp] theorem set_buf_self (c : Cache) (i : Bp) (buf : CacheBuf) : (c.set i buf).buf i = buf :=
  update_self ..

variable {i : Bp} {c c' : Cache} {dev : UInt32} {b : Blockno} {buf : CacheBuf}

theorem set_buf_of_ne (c : Cache) {j : Bp} (h : j ≠ i) (buf : CacheBuf) :
    (c.set i buf).buf j = c.buf j :=
  update_of_ne h _ _

@[simp] theorem set_set (c : Cache) (i : Bp) (buf buf' : CacheBuf) :
    (c.set i buf).set i buf' = c.set i buf' := by
  simp [set, update_idem]

-- The list holds every buffer, and no block of the device is cached twice.
structure Wf (c : Cache) : Prop where
  lru : ∀ i, i ∈ c.lru
  unique : ∀ i j b, (c.buf i).Holds ROOTDEV b → (c.buf j).Holds ROOTDEV b → i = j

theorem cached_holds (h : c.cached dev b = some i) : (c.buf i).Holds dev b := by
  have hfound := List.find?_some h
  exact of_decide_eq_true hfound

theorem Wf.cached_eq_some (h : c.Wf) :
    c.cached ROOTDEV b = some i ↔ (c.buf i).Holds ROOTDEV b := by
  constructor
  · exact cached_holds
  · intro hi
    cases hfind : c.cached ROOTDEV b with
    | none =>
      have hnone := List.find?_eq_none.mp hfind i (h.lru i)
      exact absurd (decide_eq_true hi) hnone
    | some j =>
      rw [h.unique i j b hi (cached_holds hfind)]

theorem Wf.cached_eq_none (h : c.Wf) :
    c.cached ROOTDEV b = none ↔ ∀ i, ¬(c.buf i).Holds ROOTDEV b := by
  constructor
  · intro hnone i hi
    rw [h.cached_eq_some.mpr hi] at hnone
    cases hnone
  · intro hall
    cases hfind : c.cached ROOTDEV b with
    | none => rfl
    | some i => exact absurd (h.cached_eq_some.mp hfind) (hall i)

theorem unused_spec (h : c.unused = some i) : (c.buf i).refcnt = 0 := by
  have hfound := List.find?_some h
  exact of_decide_eq_true hfound

theorem Wf.exists_unused (h : c.Wf) (hi : (c.buf i).refcnt = 0) :
    ∃ j, c.unused = some j := by
  cases hfind : c.unused with
  | some j => exact ⟨j, rfl⟩
  | none =>
    have hnone := List.find?_eq_none.mp hfind i (List.mem_reverse.mpr (h.lru i))
    exact absurd (decide_eq_true hi) hnone

theorem Wf.set (h : c.Wf) (hdev : buf.dev = (c.buf i).dev) (hblockno : buf.blockno = (c.buf i).blockno) :
    (c.set i buf).Wf := by
  have hsame : ∀ j b, ((c.set i buf).buf j).Holds ROOTDEV b ↔ (c.buf j).Holds ROOTDEV b := by
    intro j b
    by_cases hj : j = i
    · rw [hj, set_buf_self, CacheBuf.Holds, CacheBuf.Holds, hdev, hblockno]
    · rw [set_buf_of_ne c hj]
  refine ⟨h.lru, ?_⟩
  intro j k b hj hk
  exact h.unique j k b ((hsame j b).mp hj) ((hsame k b).mp hk)

theorem Wf.recycle (h : c.Wf) (hmiss : ∀ j, ¬(c.buf j).Holds ROOTDEV b) (hblockno : buf.blockno = b) :
    (c.set i buf).Wf := by
  have hother : ∀ j b', j ≠ i → ((c.set i buf).buf j).Holds ROOTDEV b' → b' ≠ b := by
    rintro j b' hj hholds rfl
    rw [set_buf_of_ne c hj] at hholds
    exact hmiss j hholds
  refine ⟨h.lru, ?_⟩
  intro j k b' hj hk
  by_cases hji : j = i
  · by_cases hki : k = i
    · rw [hji, hki]
    · rw [hji, set_buf_self] at hj
      exact absurd (hj.2.symm.trans hblockno) (hother k b' hki hk)
  · by_cases hki : k = i
    · rw [hki, set_buf_self] at hk
      exact absurd (hk.2.symm.trans hblockno) (hother j b' hji hj)
    · rw [set_buf_of_ne c hji] at hj
      rw [set_buf_of_ne c hki] at hk
      exact h.unique j k b' hj hk

theorem Wf.reorder (h : c.Wf) (i : Bp) : { c with lru := i :: c.lru.erase i }.Wf := by
  refine ⟨?_, h.unique⟩
  intro j
  by_cases hj : j = i
  · rw [hj]
    exact List.mem_cons_self
  · exact List.mem_cons_of_mem i ((List.mem_erase_of_ne hj).mpr (h.lru j))

theorem bread_hit {refcnt : Nat} {data : Block} (hcached : c.cached dev b = some i)
    (hbuf : c.buf i = ⟨dev, b, true, refcnt, false, data⟩) :
    c.bread dev b = some (i, c.set i ⟨dev, b, true, refcnt + 1, true, data⟩) := by
  simp [bread, bget, hcached, acquiresleep, fill, hbuf]

theorem bread_miss (hcached : c.cached dev b = none) (hunused : c.unused = some i)
    (hlocked : (c.buf i).locked = false) :
    c.bread dev b = some (i, c.set i ⟨dev, b, true, 1, true, c.disk b⟩) := by
  simp [bread, bget, hcached, hunused, acquiresleep, fill, hlocked]

theorem bget_disk (h : c.bget dev b = some (i, c')) : c'.disk = c.disk := by
  unfold bget at h
  split at h
  · rw [← (Prod.mk.inj (Option.some.inj h)).2, set_disk]
  · obtain ⟨j, -, hj⟩ := Option.map_eq_some_iff.mp h
    rw [← (Prod.mk.inj hj).2, set_disk]

theorem fill_disk (c : Cache) (i : Bp) : (c.fill i).disk = c.disk := by
  unfold fill
  split
  · rfl
  · rfl

theorem bread_disk (h : c.bread dev b = some (i, c')) : c'.disk = c.disk := by
  simp only [bread, Option.bind_eq_bind, Option.bind_eq_some_iff, Option.pure_def,
    Option.some.injEq, Prod.mk.injEq] at h
  obtain ⟨⟨j, c₁⟩, hbget, c₂, hacquire, rfl, rfl⟩ := h
  rw [fill_disk, ← bget_disk hbget]
  unfold acquiresleep at hacquire
  split at hacquire
  · cases hacquire
  · rw [← Option.some.inj hacquire, set_disk]

theorem brelse_eq (c : Cache) (i : Bp) :
    c.brelse i = c.set i { c.buf i with refcnt := (c.buf i).refcnt - 1, locked := false } ∨
      c.brelse i =
        { c.set i { c.buf i with refcnt := (c.buf i).refcnt - 1, locked := false } with
          lru := i :: c.lru.erase i } := by
  unfold brelse drop
  simp only [set_buf_self, set_set]
  split
  · exact .inr rfl
  · exact .inl rfl

theorem act_disk {a : Act} {answer : Answer a} (hact : c.act a = some (answer, c'))
    (hwrite : ∀ b, a ≠ .bwrite b) : c'.disk = c.disk := by
  cases a with
  | bread b =>
    obtain ⟨⟨i, c''⟩, hbread, hanswer⟩ := Option.map_eq_some_iff.mp hact
    rw [← (Prod.mk.inj hanswer).2]
    exact bread_disk hbread
  | bwrite b => exact absurd rfl (hwrite b)
  | brelse b =>
    obtain ⟨i, -, hanswer⟩ := Option.map_eq_some_iff.mp hact
    rw [← (Prod.mk.inj hanswer).2]
    rcases c.brelse_eq i with heq | heq
    · rw [heq, set_disk]
    · rw [heq]
      rfl
  | _ =>
    obtain ⟨i, -, hanswer⟩ := Option.map_eq_some_iff.mp hact
    rw [← (Prod.mk.inj hanswer).2]
    rfl

theorem binit_wf (disk : Blockno → Block) : (binit disk).Wf := by
  constructor
  · intro i
    simp [binit]
  · intro i j b hi
    exact absurd hi.1 (show (0 : UInt32) ≠ ROOTDEV by decide)

end Cache

end Xv6Ringbuf.Fs
