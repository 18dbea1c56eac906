import Xv6Ringbuf.Kernel.Spare

namespace Xv6Ringbuf.Kernel

open Machine Function

def permUser (xperm : Perm) : Perm := ⟨true, xperm.w, xperm.x, true⟩

def uvmallocLoop [Image] (oldsz newsz : UInt64) (xperm : Perm) : Nat → UInt64 → K UInt64
  | 0, _ => return newsz
  | fuel + 1, a =>
    if a < newsz then do
      match ← kalloc with
      | none => do
          let _ ← uvmdealloc a oldsz
          return 0
      | some mem => do
          setPage mem 0
          if (← mappages a PGSIZE mem (permUser xperm)) ≠ 0 then do
            kfree mem
            let _ ← uvmdealloc a oldsz
            return 0
          else uvmallocLoop oldsz newsz xperm fuel (a + PGSIZE)
    else return newsz

-- The rounds suffice for every page below `newsz`.
def uvmalloc [Image] (oldsz newsz : UInt64) (xperm : Perm) : K UInt64 :=
  if newsz < oldsz then return oldsz
  else uvmallocLoop (PGROUNDUP oldsz) newsz xperm (newsz.toNat / 4096 + 1) (PGROUNDUP oldsz)

-- The number of pages that `sz` bytes take, without the overflow of `PGROUNDUP`.
def pagesOf (sz : UInt64) : Nat := (sz.toNat + 4095) / 4096

theorem toNat_PGROUNDUP {sz : UInt64} (h : pagesOf sz ≤ 2 ^ 26) :
    (PGROUNDUP sz).toNat = 4096 * pagesOf sz := by
  unfold pagesOf at h ⊢
  have hsum : (sz + PGSIZE - 1).toNat = sz.toNat + 4095 := by
    rw [UInt64.toNat_sub, UInt64.toNat_add, toNat_PGSIZE,
      show (1 : UInt64).toNat = 1 by rfl]
    omega
  rw [PGROUNDUP, PGROUNDDOWN, UInt64.toNat_mul, UInt64.toNat_div, hsum,
    toNat_PGSIZE]
  omega

theorem toNat_signExtend (n : Int32) : (n.toInt64.toUInt64.toNat : Int) = n.toInt % 2 ^ 64 := by
  have hextend : n.toInt64.toInt = n.toInt := Int32.toInt_toInt64 n
  have hsigned : n.toInt64.toInt = (n.toInt64.toUInt64.toNat : Int).bmod (2 ^ 64) :=
    BitVec.toInt_eq_toNat_bmod _
  have hlt := n.toInt64.toUInt64.toNat_lt
  rw [Int.bmod_def] at hsigned
  split at hsigned
  · omega
  · omega

def Held (pt : Pagetable) (n : Nat) (pa : UInt64) : Prop :=
  ∃ m < n, ∃ pte, pt.leaf m = some pte ∧ pte.pa = pa

-- The memory of a process of `n` pages: below the page `top` exactly these are
-- mapped, each to a page of its own that the allocator has given away.
structure Heap [Image] (top : Nat) (s : State) (n : Nat) : Prop where
  free : ∀ pa ∈ s.freelist, ValidPage pa
  nodup : s.freelist.Nodup
  mapped : ∀ m < top, s.pagetable.leaf m ≠ none ↔ m < n
  page : ∀ m < n, ∀ pte, s.pagetable.leaf m = some pte →
    ValidPage pte.pa ∧ pte.perm ≠ ⟨false, false, false, false⟩ ∧ pte.pa ∉ s.freelist
  once : ∀ m < n, ∀ m' < n, ∀ pte pte', s.pagetable.leaf m = some pte →
    s.pagetable.leaf m' = some pte' → pte.pa = pte'.pa → m = m'

theorem length_le_of_valid [Image] {pages : List UInt64} (hvalid : ∀ pa ∈ pages, ValidPage pa)
    (hnodup : pages.Nodup) : pages.length ≤ 2 ^ 15 := by
  have hindex : ∀ pa ∈ pages, ∀ pa' ∈ pages,
      pa.toNat / 4096 - 0x80000 = pa'.toNat / 4096 - 0x80000 → pa = pa' := by
    intro pa hpa pa' hpa' heq
    have hmod := congrArg UInt64.toNat (hvalid pa hpa).mod
    have hmod' := congrArg UInt64.toNat (hvalid pa' hpa').mod
    have hbounds := (hvalid pa hpa).bounds
    have hbounds' := (hvalid pa' hpa').bounds
    rw [UInt64.toNat_mod, toNat_PGSIZE, show (0 : UInt64).toNat = 0 by rfl]
      at hmod hmod'
    apply UInt64.toNat_inj.mp
    omega
  have hsub : pages.map (fun pa => pa.toNat / 4096 - 0x80000) ⊆ List.range (2 ^ 15) := by
    intro i hi
    obtain ⟨pa, hpa, rfl⟩ := List.mem_map.mp hi
    have hbounds := (hvalid pa hpa).bounds
    rw [List.mem_range]
    omega
  have hlen := (List.subperm_of_subset (hnodup.map_on hindex) hsub).length_le
  rwa [List.length_map, List.length_range] at hlen

section Heap

variable [Image] {top : Nat}

theorem Heap.spares {s : State} {n : Nat} (h : Heap top s n) :
    Spares (Held s.pagetable n) s.mem s := by
  refine ⟨h.free, h.nodup, ?_, ?_, fun _ _ _ _ => rfl⟩
  · rintro pa hpa ⟨m, hm, pte, hpte, rfl⟩
    exact (h.page m hm pte hpte).2.2 hpa
  · rintro pa ⟨m, hm, pte, hpte, rfl⟩
    exact (h.page m hm pte hpte).1

theorem Heap.bound {s : State} {n : Nat} (h : Heap top s n) (htop : 2 ^ 15 < top) :
    n + s.freelist.length ≤ 2 ^ 15 := by
  have hpage : ∀ m ∈ List.range (min n top), ∃ pte, s.pagetable.leaf m = some pte := by
    intro m hm
    rw [List.mem_range] at hm
    exact Option.ne_none_iff_exists'.mp ((h.mapped m (by omega)).mpr (by omega))
  have hpa : ∀ m pte, s.pagetable.leaf m = some pte →
      ((s.pagetable.leaf m).map Pte.pa).getD 0 = pte.pa := by
    intro m pte hpte
    rw [hpte]
    rfl
  have hnodup : ((List.range (min n top)).map fun m =>
      ((s.pagetable.leaf m).map Pte.pa).getD 0).Nodup := by
    apply List.Nodup.map_on _ List.nodup_range
    intro m hm m' hm' heq
    obtain ⟨pte, hpte⟩ := hpage m hm
    obtain ⟨pte', hpte'⟩ := hpage m' hm'
    rw [hpa m pte hpte, hpa m' pte' hpte'] at heq
    rw [List.mem_range] at hm hm'
    exact h.once m (by omega) m' (by omega) pte pte' hpte hpte' heq
  have hheld : ∀ pa ∈ (List.range (min n top)).map fun m =>
      ((s.pagetable.leaf m).map Pte.pa).getD 0, ValidPage pa ∧ pa ∉ s.freelist := by
    intro pa hmem
    obtain ⟨m, hm, rfl⟩ := List.mem_map.mp hmem
    obtain ⟨pte, hpte⟩ := hpage m hm
    rw [List.mem_range] at hm
    obtain ⟨hvalid, _, hfree⟩ := h.page m (by omega) pte hpte
    rw [hpa m pte hpte]
    exact ⟨hvalid, hfree⟩
  have hlen := length_le_of_valid (List.forall_mem_append.mpr ⟨fun pa hmem => (hheld pa hmem).1, h.free⟩)
    (List.nodup_append'.mpr ⟨hnodup, h.nodup, fun pa hmem => (hheld pa hmem).2⟩)
  rw [List.length_append, List.length_map, List.length_range] at hlen
  omega

def SamePage (s s' : State) (pa : UInt64) : Prop := ∀ a, a - pa < PGSIZE → s'.mem a = s.mem a

-- The memory of a process has gone from `n` pages to `k`: the pages that it had
-- and still has are as they were, and those that are new are all zero.
structure Resized (top : Nat) (perm : Perm) (s s' : State) (n k : Nat) : Prop where
  heap : Heap top s' k
  beyond : ∀ m, top ≤ m → s'.pagetable.leaf m = s.pagetable.leaf m
  kept : ∀ m, m < n → m < k → s'.pagetable.leaf m = s.pagetable.leaf m
  bytes : ∀ m, m < n → m < k → ∀ pte, s.pagetable.leaf m = some pte → SamePage s s' pte.pa
  fresh : ∀ m, n ≤ m → m < k → ∃ pte, s'.pagetable.leaf m = some pte ∧ pte.perm = perm ∧
    ∀ a, a - pte.pa < PGSIZE → s'.mem a = 0

variable {perm : Perm}

variable {s s' : State} {n k : Nat} {page : UInt64}

theorem Resized.refl (h : Heap top s n) : Resized top perm s s n n :=
  ⟨h, fun _ _ => rfl, fun _ _ _ => rfl, fun _ _ _ _ _ _ _ => rfl, fun m hm hm' => by omega⟩

theorem Resized.trans {s'' : State} {l : Nat} (hnk : n ≤ k) (h : Resized top perm s s' n k)
    (h' : Resized top perm s' s'' k l) :
    Resized top perm s s'' n l := by
  refine ⟨h'.heap, fun m hm => (h'.beyond m hm).trans (h.beyond m hm), ?_, ?_, ?_⟩
  · intro m hm hm'
    exact (h'.kept m (by omega) hm').trans (h.kept m hm (by omega))
  · intro m hm hm' pte hpte a ha
    have hpte' : s'.pagetable.leaf m = some pte := (h.kept m hm (by omega)).trans hpte
    exact (h'.bytes m (by omega) hm' pte hpte' a ha).trans (h.bytes m hm (by omega) pte hpte a ha)
  · intro m hm hm'
    by_cases hk : m < k
    · obtain ⟨pte, hpte, hperm, hzero⟩ := h.fresh m hm hk
      refine ⟨pte, (h'.kept m hk hm').trans hpte, hperm, fun a ha => ?_⟩
      rw [h'.bytes m hk hm' pte hpte a ha]
      exact hzero a ha
    · exact h'.fresh m (by omega) hm'

theorem Resized.leaf_eq (hheap : Heap top s n) (h : Resized top perm s s' n n) :
    s'.pagetable.leaf = s.pagetable.leaf := by
  funext m
  by_cases hn : m < n
  · exact h.kept m hn hn
  · by_cases hm : m < top
    · have hold := (hheap.mapped m hm).not.mpr hn
      have hnew := (h.heap.mapped m hm).not.mpr hn
      rw [not_not] at hold hnew
      rw [hold, hnew]
    · exact h.beyond m (by omega)

theorem Resized.same (hheap : Heap top s n) (hleaf : s'.pagetable.leaf = s.pagetable.leaf)
    (hspares : Spares (Held s.pagetable n) s.mem s') : Resized top perm s s' n n := by
  refine ⟨⟨hspares.valid, hspares.nodup, ?_, ?_, ?_⟩, ?_, ?_, ?_, fun m hm hm' => by omega⟩
  · rw [hleaf]
    exact hheap.mapped
  · intro m hm pte hpte
    rw [hleaf] at hpte
    obtain ⟨hvalid, hperm, _⟩ := hheap.page m hm pte hpte
    exact ⟨hvalid, hperm, fun hfree => hspares.apart _ hfree ⟨m, hm, pte, hpte, rfl⟩⟩
  · rw [hleaf]
    exact hheap.once
  · intro m _
    rw [hleaf]
  · intro m _ _
    rw [hleaf]
  · intro m hm _ pte hpte
    exact hspares.same pte.pa ⟨m, hm, pte, hpte, rfl⟩

theorem Heap.add (h : Heap top s n) (hvalid : ValidPage page) (hheld : ¬Held s.pagetable n page)
    (hperm : perm ≠ ⟨false, false, false, false⟩)
    (hleaf : s'.pagetable.leaf = update s.pagetable.leaf n (some ⟨page, perm⟩))
    (hspares : Spares (fun pa => Held s.pagetable n pa ∨ pa = page) s'.mem s') :
    Heap top s' (n + 1) := by
  have hnew : s'.pagetable.leaf n = some ⟨page, perm⟩ := by
    rw [hleaf, update_self]
  have hold : ∀ m, m ≠ n → s'.pagetable.leaf m = s.pagetable.leaf m := by
    intro m hm
    rw [hleaf, update_of_ne hm]
  refine ⟨hspares.valid, hspares.nodup, ?_, ?_, ?_⟩
  · intro m hm
    by_cases heq : m = n
    · rw [heq, hnew]
      simp
    · rw [hold m heq, h.mapped m hm]
      omega
  · intro m hm pte hpte
    by_cases heq : m = n
    · rw [heq, hnew, Option.some.injEq] at hpte
      subst hpte
      exact ⟨hvalid, hperm, fun hfree => hspares.apart _ hfree (.inr rfl)⟩
    · rw [hold m heq] at hpte
      obtain ⟨hvalid', hperm', _⟩ := h.page m (by omega) pte hpte
      exact ⟨hvalid', hperm', fun hfree =>
        hspares.apart _ hfree (.inl ⟨m, by omega, pte, hpte, rfl⟩)⟩
  · -- The new page is mapped nowhere else.
    have hother : ∀ m, m < n + 1 → m ≠ n → ∀ pte, s'.pagetable.leaf m = some pte →
        pte.pa ≠ page := by
      intro m hm hne pte hpte heq
      rw [hold m hne] at hpte
      exact hheld ⟨m, by omega, pte, hpte, heq⟩
    intro m hm m' hm' pte pte' hpte hpte' heq
    by_cases hmn : m = n
    · by_cases hmn' : m' = n
      · rw [hmn, hmn']
      · rw [hmn, hnew, Option.some.injEq] at hpte
        subst hpte
        exact absurd heq.symm (hother m' hm' hmn' pte' hpte')
    · by_cases hmn' : m' = n
      · rw [hmn', hnew, Option.some.injEq] at hpte'
        subst hpte'
        exact absurd heq (hother m hm hmn pte hpte)
      · rw [hold m hmn] at hpte
        rw [hold m' hmn'] at hpte'
        exact h.once m (by omega) m' (by omega) pte pte' hpte hpte' heq

theorem Resized.add (hheap : Heap top s n) (hvalid : ValidPage page) (hheld : ¬Held s.pagetable n page)
    (hperm : perm ≠ ⟨false, false, false, false⟩) (hn : n < top)
    (hleaf : s'.pagetable.leaf = update s.pagetable.leaf n (some ⟨page, perm⟩))
    (hspares : Spares (fun pa => Held s.pagetable n pa ∨ pa = page) s'.mem s')
    (hsame : ∀ pa, Held s.pagetable n pa → SamePage s s' pa)
    (hzero : ∀ a, a - page < PGSIZE → s'.mem a = 0) : Resized top perm s s' n (n + 1) := by
  have hold : ∀ m, m ≠ n → s'.pagetable.leaf m = s.pagetable.leaf m := by
    intro m hm
    rw [hleaf, update_of_ne hm]
  refine ⟨hheap.add hvalid hheld hperm hleaf hspares, fun m hm => hold m (by omega),
    fun m hm _ => hold m (by omega), ?_, ?_⟩
  · intro m hm _ pte hpte
    exact hsame pte.pa ⟨m, hm, pte, hpte, rfl⟩
  · intro m hm hm'
    have heq : m = n := by omega
    refine ⟨⟨page, perm⟩, ?_, rfl, hzero⟩
    rw [heq, hleaf, update_self]

theorem Heap.cut (h : Heap top s n) (hkn : k ≤ n) (hleaf : s'.pagetable.leaf = fun m =>
      if k ≤ m ∧ m < k + (n - k) then none else s.pagetable.leaf m)
    (hspares : Spares (Held s.pagetable k) s.mem s') : Heap top s' k := by
  have hold : ∀ m, m < k ∨ n ≤ m → s'.pagetable.leaf m = s.pagetable.leaf m := by
    intro m hm
    rw [hleaf]
    exact if_neg (by omega)
  refine ⟨hspares.valid, hspares.nodup, ?_, ?_, ?_⟩
  · intro m hm
    by_cases hrange : k ≤ m ∧ m < n
    · have hnone : s'.pagetable.leaf m = none := by
        rw [hleaf]
        exact if_pos (by omega)
      rw [hnone]
      simp only [ne_eq, not_true_eq_false, false_iff]
      omega
    · rw [hold m (by omega), h.mapped m hm]
      omega
  · intro m hm pte hpte
    rw [hold m (.inl hm)] at hpte
    obtain ⟨hvalid, hperm, _⟩ := h.page m (by omega) pte hpte
    exact ⟨hvalid, hperm, fun hfree => hspares.apart _ hfree ⟨m, hm, pte, hpte, rfl⟩⟩
  · intro m hm m' hm' pte pte' hpte hpte'
    rw [hold m (.inl hm)] at hpte
    rw [hold m' (.inl hm')] at hpte'
    exact h.once m (by omega) m' (by omega) pte pte' hpte hpte'

theorem Resized.cut (hheap : Heap top s n) (hkn : k ≤ n) (hn : n ≤ top)
    (hleaf : s'.pagetable.leaf = fun m =>
      if k ≤ m ∧ m < k + (n - k) then none else s.pagetable.leaf m)
    (hspares : Spares (Held s.pagetable k) s.mem s') : Resized top perm s s' n k := by
  have hold : ∀ m, m < k ∨ n ≤ m → s'.pagetable.leaf m = s.pagetable.leaf m := by
    intro m hm
    rw [hleaf]
    exact if_neg (by omega)
  refine ⟨hheap.cut hkn hleaf hspares, fun m hm => hold m (by omega),
    fun m _ hm => hold m (.inl hm), ?_, fun m hm hm' => by omega⟩
  intro m _ hm pte hpte
  exact hspares.same pte.pa ⟨m, hm, pte, hpte, rfl⟩

-- Other pages are kept besides, and the memory of the process is none of them.
structure Aside (keep : UInt64 → Prop) (mem₀ : UInt64 → UInt8) (s : State) (n : Nat) : Prop where
  spares : Spares keep mem₀ s
  off : ∀ m < n, ∀ pte, s.pagetable.leaf m = some pte → ¬keep pte.pa

section Aside

variable {keep : UInt64 → Prop} {mem₀ : UInt64 → UInt8} {s s' : State} {n : Nat}

theorem Heap.aside_none (h : Heap top s n) : Aside (fun _ => False) s.mem s n :=
  ⟨h.spares.mono fun _ => False.elim, fun _ _ _ _ => id⟩

theorem Aside.both (h : Heap top s n) (haside : Aside keep mem₀ s n) :
    Spares (fun pa => Held s.pagetable n pa ∨ keep pa) s.mem s :=
  h.spares.or haside.spares.now

theorem Aside.same (h : Aside keep mem₀ s n) (hleaf : s'.pagetable.leaf = s.pagetable.leaf)
    (hspares : Spares keep s.mem s') : Aside keep mem₀ s' n :=
  ⟨h.spares.trans hspares, hleaf ▸ h.off⟩

theorem Aside.add {page : UInt64} {perm : Perm} (h : Aside keep mem₀ s n) (hkeep : ¬keep page)
    (hleaf : s'.pagetable.leaf = update s.pagetable.leaf n (some ⟨page, perm⟩))
    (hspares : Spares keep s.mem s') : Aside keep mem₀ s' (n + 1) := by
  refine ⟨h.spares.trans hspares, ?_⟩
  intro m hm pte hpte
  rw [hleaf] at hpte
  by_cases heq : m = n
  · rw [heq, update_self, Option.some.injEq] at hpte
    subst hpte
    exact hkeep
  · rw [update_of_ne heq] at hpte
    exact h.off m (by omega) pte hpte

theorem Aside.cut {k : Nat} (h : Aside keep mem₀ s n) (hkn : k ≤ n)
    (hleaf : s'.pagetable.leaf = fun m =>
      if k ≤ m ∧ m < k + (n - k) then none else s.pagetable.leaf m)
    (hspares : Spares keep s.mem s') : Aside keep mem₀ s' k := by
  refine ⟨h.spares.trans hspares, ?_⟩
  intro m hm pte hpte
  rw [hleaf] at hpte
  simp only at hpte
  rw [if_neg (by omega)] at hpte
  exact h.off m (by omega) pte hpte

theorem Aside.loose {k : Nat} (haside : Aside keep mem₀ s n) (h : Heap top s n) :
    Loose (fun pa => Held s.pagetable k pa ∨ keep pa) s k (n - k) := by
  constructor
  · intro m hm hm' pte hpte
    obtain ⟨hvalid, _, hfree⟩ := h.page m (by omega) pte hpte
    refine ⟨hvalid, ?_, hfree⟩
    rintro (⟨m', hm'', pte', hpte', heq⟩ | hkeep)
    · have := h.once m' (by omega) m (by omega) pte' pte hpte' hpte heq
      omega
    · exact haside.off m (by omega) pte hpte hkeep
  · intro m m' hm hlt hm' hlt' pte pte' hpte hpte' heq
    exact h.once m (by omega) m' (by omega) pte pte' hpte hpte' heq

end Aside

variable {keep : UInt64 → Prop} {mem₀ : UInt64 → UInt8}

theorem uvmunmap_heap {s : State} {n k : Nat} {va : UInt64} (h : Heap top s n) (hn : n ≤ top)
    (htop : top ≤ 2 ^ 26) (hkn : k ≤ n) (hva : va.toNat = 4096 * k) (hspares : Spares keep mem₀ s)
    (hloose : Loose keep s k (n - k)) :
    wp (uvmunmap va (UInt64.ofNat (n - k)) true) s
      (fun _ s' => s'.pagetable.leaf = (fun m =>
        if k ≤ m ∧ m < k + (n - k) then none else s.pagetable.leaf m) ∧ Spares keep mem₀ s')
      fun _ => False := by
  have hmod : va.toNat % 4096 = 0 := by omega
  have hvpn : vpn va = k := by
    unfold vpn
    omega
  have hcount : (UInt64.ofNat (n - k)).toNat = n - k := by
    rw [UInt64.toNat_ofNat']
    omega
  have hfreed : wp (uvmunmap va (UInt64.ofNat (n - k)) true) s (fun _ s' => Spares keep mem₀ s')
      fun _ => True := by
    unfold uvmunmap
    split
    · exact wp_throw trivial
    · rw [hcount]
      exact unmapLoop_spares _ _ va hmod (by omega) hspares (hvpn.symm ▸ hloose)
  apply ((uvmunmap_wp true va (n - k) hmod (by omega) s).and hfreed).mono
  · rintro _ s' ⟨⟨_, hunmapped⟩, hspares'⟩
    have hleaf := hunmapped.leaf
    rw [hvpn] at hleaf
    exact ⟨hleaf, hspares'⟩
  · rintro _ ⟨⟨⟨m, hm, hm', hbad⟩, -⟩, -⟩
    rw [hvpn] at hm hm'
    apply hbad
    obtain ⟨pte, hpte⟩ := Option.ne_none_iff_exists'.mp ((h.mapped m (by omega)).mpr (by omega))
    obtain ⟨hvalid, hperm, _⟩ := h.page m (by omega) pte hpte
    exact ⟨pte, hpte, hperm, fun _ => hvalid⟩

theorem uvmdealloc_heap {s : State} {oldsz newsz : UInt64} (htop : 2 ^ 15 < top) (htop' : top ≤ 2 ^ 26)
    (h : Heap top s (pagesOf oldsz)) (haside : Aside keep mem₀ s (pagesOf oldsz)) (hlt : newsz < oldsz) :
    wp (uvmdealloc oldsz newsz) s
      (fun r s' => r = newsz ∧ Resized top perm s s' (pagesOf oldsz) (pagesOf newsz) ∧
        Aside keep mem₀ s' (pagesOf newsz)) fun _ => False := by
  have hbound := h.bound htop
  have hlt' := UInt64.lt_iff_toNat_lt.mp hlt
  have hle : pagesOf newsz ≤ pagesOf oldsz := by
    unfold pagesOf
    omega
  have hold : (PGROUNDUP oldsz).toNat = 4096 * pagesOf oldsz := toNat_PGROUNDUP (by omega)
  have hnew : (PGROUNDUP newsz).toNat = 4096 * pagesOf newsz := toNat_PGROUNDUP (by omega)
  have hkept : Spares (fun pa => Held s.pagetable (pagesOf newsz) pa ∨ keep pa) s.mem s := by
    apply (haside.both h).mono
    rintro pa (⟨m, hm, hheld⟩ | hkeep)
    · exact .inl ⟨m, by omega, hheld⟩
    · exact .inr hkeep
  unfold uvmdealloc
  rw [if_neg (UInt64.not_le.mpr hlt)]
  by_cases hround : PGROUNDUP newsz < PGROUNDUP oldsz
  · rw [if_pos hround]
    rw [UInt64.lt_iff_toNat_lt, hold, hnew] at hround
    have hcount : (PGROUNDUP oldsz - PGROUNDUP newsz) / PGSIZE =
        UInt64.ofNat (pagesOf oldsz - pagesOf newsz) := by
      apply UInt64.toNat_inj.mp
      rw [UInt64.toNat_div, UInt64.toNat_sub_of_le, hold, hnew, UInt64.toNat_ofNat',
        toNat_PGSIZE]
      · omega
      · rw [UInt64.le_iff_toNat_le]
        omega
    rw [hcount]
    refine wp_call (uvmunmap_heap h (by omega) htop' hle hnew hkept (haside.loose h)) ?_
    rintro _ s' ⟨hleaf, hspares⟩
    exact ⟨rfl, Resized.cut h hle (by omega) hleaf (hspares.mono fun _ => .inl),
      haside.cut hle hleaf (hspares.mono fun _ => .inr)⟩
  · rw [if_neg hround]
    rw [UInt64.lt_iff_toNat_lt, hold, hnew] at hround
    have heq : pagesOf newsz = pagesOf oldsz := by omega
    rw [heq]
    exact ⟨rfl, Resized.refl h, haside⟩

end Heap

end Xv6Ringbuf.Kernel
