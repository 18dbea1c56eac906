import Xv6Ringbuf.Kernel.Vm
import Xv6Ringbuf.Trace

namespace Xv6Ringbuf.Kernel

open Machine Function

-- The allocator as it is kept in memory: the first word of a free page is the address
-- of the next one. `word` has the first words of all pages.
structure Kmem where
  freelist : UInt64
  word : UInt64 → UInt64

namespace Kmem

def kalloc (k : Kmem) : Option UInt64 × Kmem :=
  if k.freelist = 0 then (none, k)
  else (some k.freelist, ⟨k.word k.freelist, update k.word k.freelist 0x0505050505050505⟩)

def kfree [Image] (pa : UInt64) (k : Kmem) : Except Panic Kmem :=
  if pa % PGSIZE ≠ 0 ∨ pa < Image.kend ∨ PHYSTOP ≤ pa then .error .kfree
  else .ok ⟨pa, update k.word pa k.freelist⟩

def store (pa value : UInt64) (k : Kmem) : Kmem := { k with word := update k.word pa value }

def Linked (word : UInt64 → UInt64) : UInt64 → List UInt64 → Prop
  | head, [] => head = 0
  | head, pa :: free => head = pa ∧ Linked word (word pa) free

structure Lists (k : Kmem) (free : List UInt64) : Prop where
  linked : Linked k.word k.freelist free
  nodup : (0 :: free).Nodup

theorem Linked.congr {word word' : UInt64 → UInt64} {head : UInt64} {free : List UInt64}
    (h : Linked word head free) (hsame : ∀ pa ∈ free, word' pa = word pa) :
    Linked word' head free := by
  induction free generalizing head with
  | nil => exact h
  | cons pa free ih =>
    refine ⟨h.1, ih ?_ fun pa' hpa' => hsame pa' (List.mem_cons_of_mem pa hpa')⟩
    rw [hsame pa List.mem_cons_self]
    exact h.2

section Lists

variable {k : Kmem} {pa : UInt64} {free : List UInt64}

theorem Lists.store (h : k.Lists free) (hpa : pa ∉ free) (value : UInt64) :
    (k.store pa value).Lists free := by
  refine ⟨h.linked.congr fun pa' hpa' => update_of_ne ?_ .., h.nodup⟩
  rintro rfl
  exact hpa hpa'

theorem Lists.kalloc_nil (h : k.Lists []) : k.kalloc = (none, k) := if_pos h.linked

theorem Lists.kalloc_cons (h : k.Lists (pa :: free)) :
    k.kalloc.1 = some pa ∧ k.kalloc.2.Lists free := by
  obtain ⟨hhead, hlinked⟩ := h.linked
  have hnodup := h.nodup
  have hne : pa ≠ 0 := by
    rintro rfl
    simp at hnodup
  rw [kalloc, hhead, if_neg hne]
  refine ⟨rfl, hlinked.congr fun pa' hpa' => update_of_ne ?_ .., by grind⟩
  rintro rfl
  grind

theorem Lists.kfree (h : k.Lists free) (hpa : pa ∉ free) (hzero : pa ≠ 0) :
    Lists ⟨pa, update k.word pa k.freelist⟩ (pa :: free) := by
  have hnodup := h.nodup
  refine ⟨⟨rfl, ?_⟩, by grind⟩
  simp only [update_self]
  exact (h.store hpa k.freelist).linked

def ofList (free : List UInt64) : Kmem :=
  free.foldr (fun pa k => ⟨pa, update k.word pa k.freelist⟩) ⟨0, fun _ => 0⟩

theorem lists_ofList (h : (0 :: free).Nodup) : (ofList free).Lists free := by
  induction free with
  | nil => exact ⟨rfl, h⟩
  | cons pa free ih => exact (ih (by grind)).kfree (by grind) (by grind)

-- The pages that `kalloc` gives to callers that fill each of them with zeros.
def zeroed : Nat → Kmem → List UInt64
  | 0, _ => []
  | n + 1, k =>
    match k.kalloc with
    | (none, _) => []
    | (some pa, k) => pa :: zeroed n (k.store pa 0)

end Lists

end Kmem

-- A use of the allocator, or a store of someone else to the first word of a page.
inductive Use where
  | kalloc
  | kfree (pa : UInt64)
  | store (pa value : UInt64)

namespace Use

variable [Image]

def inMemory : Use → M Panic Kmem (Option UInt64)
  | .kalloc => fun k => .ok k.kalloc
  | .kfree pa => fun k => (k.kfree pa).map fun k' => (none, k')
  | .store pa value => fun k => .ok (none, k.store pa value)

def onList : Use → K (Option UInt64)
  | .kalloc => Kernel.kalloc
  | .kfree pa => do
      Kernel.kfree pa
      return none
  | .store _ _ => return none

-- No free page is freed once more, and none is stored to.
def Clean (s : State) : Use → Prop
  | .kalloc => True
  | .kfree pa | .store pa _ => pa ∉ s.freelist

instance (s : State) (u : Use) : Decidable (u.Clean s) := by
  cases u <;> unfold Clean <;> infer_instance

theorem agree {k : Kmem} {s : State} (u : Use) (h : k.Lists s.freelist) (hclean : u.Clean s) :
    Agree (fun k s => k.Lists s.freelist) Eq (u.inMemory.run k) (u.onList.run s) := by
  obtain ⟨free, mem, pt, rbs, reads, given⟩ := s
  cases u with
  | kalloc =>
    cases free with
    | nil =>
      change Agree _ _ (.ok k.kalloc) _
      rw [h.kalloc_nil]
      exact .ok rfl h
    | cons pa free => exact .ok h.kalloc_cons.1 h.kalloc_cons.2
  | kfree pa =>
    simp only [inMemory, onList, Kmem.kfree, Kernel.kfree, StateT.run]
    by_cases hpa : pa % PGSIZE ≠ 0 ∨ pa < Image.kend ∨ PHYSTOP ≤ pa
    · rw [if_pos hpa, if_pos hpa]
      exact .error Panic.kfree
    · rw [if_neg hpa, if_neg hpa]
      refine .ok rfl (h.kfree hclean ?_)
      rintro rfl
      exact hpa (.inr (.inl (UInt64.lt_of_lt_of_le (by decide) Image.kernbase_le)))
  | store pa value => exact .ok rfl (h.store hclean value)

-- As long as nobody else stores to a free page and none is freed twice, the allocator
-- in memory gives what the list gives.
theorem free_list_in_pages {k : Kmem} {s : State} (uses : List Use) (h : k.Lists s.freelist)
    (hmeets : Trace.Meets (fun s u => (u.onList.run s).map Prod.snd) (fun s u => u.Clean s) s uses) :
    Agree (fun k s => k.Lists s.freelist) Eq ((uses.mapM inMemory).run k) ((uses.mapM onList).run s) := by
  induction uses generalizing k s with
  | nil => exact .ok rfl h
  | cons u uses ih =>
    obtain ⟨hclean, hnext⟩ := hmeets
    rw [List.mapM_cons, List.mapM_cons]
    refine (agree u h hclean).bind fun a b k' s' hvalue hstate hrun => ?_
    refine (ih hstate (hnext s' ?_)).bind fun as bs k'' s'' hvalues hstate' _ => ?_
    · simp only [hrun, Except.map]
    · exact .ok (congrArg₂ List.cons hvalue hvalues) hstate'

end Use

theorem free_list_in_pages_reused : ∃ (_ : Image) (k : Kmem) (s : State),
    s.freelist = [0x87f01000, 0x87f00000] ∧ Agree (fun k s => k.Lists s.freelist) Eq
      (([.kalloc, .store 0x87f01000 7, .kfree 0x87f01000, .kalloc].mapM Use.inMemory).run k)
      (([.kalloc, .store 0x87f01000 7, .kfree 0x87f01000, .kalloc].mapM Use.onList).run s) := by
  let i : Image := ⟨KERNBASE, UInt64.le_refl _⟩
  refine ⟨i, .ofList [0x87f01000, 0x87f00000], ⟨[0x87f01000, 0x87f00000], fun _ => 0,
    ⟨0, fun _ => none⟩, fun _ => ⟨0, [], fun _ => 0, 0⟩, [], none⟩, rfl, ?_⟩
  exact Use.free_list_in_pages _ (Kmem.lists_ofList (by decide)) (by decide +kernel)

end Xv6Ringbuf.Kernel
