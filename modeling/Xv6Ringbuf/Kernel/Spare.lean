import Xv6Ringbuf.Kernel.Tree

namespace Xv6Ringbuf.Kernel

open Machine Function

-- The free pages are pages of the allocator, each of them free once, and none is
-- among the pages that are kept. The kept pages hold the bytes of `mem₀`.
structure Spares [Image] (keep : UInt64 → Prop) (mem₀ : UInt64 → UInt8) (s : State) : Prop where
  valid : ∀ pa ∈ s.freelist, ValidPage pa
  nodup : s.freelist.Nodup
  apart : ∀ pa ∈ s.freelist, ¬keep pa
  held : ∀ pa, keep pa → ValidPage pa
  same : ∀ pa, keep pa → ∀ a, a - pa < PGSIZE → s.mem a = mem₀ a

theorem ValidPage.apart [Image] {pa pa' a : UInt64} (h : ValidPage pa) (h' : ValidPage pa')
    (ha : a - pa < PGSIZE) (ha' : a - pa' < PGSIZE) : pa = pa' := by
  have hmod := congrArg UInt64.toNat h.mod
  have hmod' := congrArg UInt64.toNat h'.mod
  have hbounds := h.bounds
  have hbounds' := h'.bounds
  have halt := a.toNat_lt
  rw [UInt64.toNat_mod, toNat_PGSIZE, show (0 : UInt64).toNat = 0 by rfl]
    at hmod hmod'
  rw [UInt64.lt_iff_toNat_lt, UInt64.toNat_sub, toNat_PGSIZE] at ha ha'
  apply UInt64.toNat_inj.mp
  omega

def NotFree [Image] (s : State) (pa : UInt64) : Prop := ValidPage pa ∧ pa ∉ s.freelist

section Spares

variable [Image] {keep : UInt64 → Prop} {mem₀ : UInt64 → UInt8}

variable {s s' : State} {keep' : UInt64 → Prop} {page dst pa : UInt64}

theorem Spares.mono (h : Spares keep mem₀ s) (hsub : ∀ pa, keep' pa → keep pa) : Spares keep' mem₀ s :=
  ⟨h.valid, h.nodup, fun pa hpa hkeep => h.apart pa hpa (hsub pa hkeep),
    fun pa hkeep => h.held pa (hsub pa hkeep), fun pa hkeep => h.same pa (hsub pa hkeep)⟩

theorem Spares.now (h : Spares keep mem₀ s) : Spares keep s.mem s :=
  ⟨h.valid, h.nodup, h.apart, h.held, fun _ _ _ _ => rfl⟩

theorem Spares.trans (h : Spares keep mem₀ s) (h' : Spares keep s.mem s') :
    Spares keep mem₀ s' :=
  ⟨h'.valid, h'.nodup, h'.apart, h'.held,
    fun pa hkeep a ha => (h'.same pa hkeep a ha).trans (h.same pa hkeep a ha)⟩

theorem Spares.add (h : Spares keep mem₀ s) (hpage : ValidPage page) (hfree : page ∉ s.freelist) :
    Spares (fun pa => keep pa ∨ pa = page) s.mem s := by
  refine ⟨h.valid, h.nodup, ?_, ?_, fun _ _ _ _ => rfl⟩
  · rintro pa hpa (hkeep | rfl)
    · exact h.apart pa hpa hkeep
    · exact hfree hpa
  · rintro pa (hkeep | rfl)
    · exact h.held pa hkeep
    · exact hpage

theorem Spares.table (h : Spares keep mem₀ s) (pt : Pagetable) :
    Spares keep mem₀ { s with pagetable := pt } :=
  ⟨h.valid, h.nodup, h.apart, h.held, h.same⟩

theorem Spares.or (h : Spares keep mem₀ s) (h' : Spares keep' mem₀ s) :
    Spares (fun pa => keep pa ∨ keep' pa) mem₀ s := by
  refine ⟨h.valid, h.nodup, ?_, ?_, ?_⟩
  · rintro pa hpa (hkeep | hkeep)
    · exact h.apart pa hpa hkeep
    · exact h'.apart pa hpa hkeep
  · rintro pa (hkeep | hkeep)
    · exact h.held pa hkeep
    · exact h'.held pa hkeep
  · rintro pa (hkeep | hkeep)
    · exact h.same pa hkeep
    · exact h'.same pa hkeep

theorem Spares.write (h : Spares keep mem₀ s) (hdst : ValidPage dst) (hkeep : ¬keep dst)
    {mem : UInt64 → UInt8} (hmem : ∀ a, ¬a - dst < PGSIZE → mem a = s.mem a) :
    Spares keep mem₀ { s with mem := mem } := by
  refine ⟨h.valid, h.nodup, h.apart, h.held, ?_⟩
  intro pa hpa a ha
  have hne : ¬a - dst < PGSIZE := by
    intro ha'
    exact hkeep ((h.held pa hpa).apart hdst ha ha' ▸ hpa)
  show mem a = mem₀ a
  rw [hmem a hne]
  exact h.same pa hpa a ha

theorem Spares.memset (h : Spares keep mem₀ s) (hdst : ValidPage dst) (hkeep : ¬keep dst) (c : UInt8) :
    Spares keep mem₀ { s with mem := memset s.mem dst c } :=
  h.write hdst hkeep fun _ ha => if_neg ha

def State.taken (s : State) (page : UInt64) (rest : List UInt64) : State :=
  { s with freelist := rest, mem := memset s.mem page 5 }

omit [Image] in
theorem kalloc_rule {Q : Option UInt64 → State → Prop} {E : Panic → Prop}
    (hnone : s.freelist = [] → Q none s)
    (hsome : ∀ page rest, s.freelist = page :: rest → Q (some page) (s.taken page rest)) :
    wp kalloc s Q E := by
  unfold kalloc
  apply wp_get_bind
  cases hfree : s.freelist with
  | nil => exact hnone hfree
  | cons page rest => exact hsome page rest hfree

theorem Spares.taken {rest : List UInt64} (h : Spares keep mem₀ s) (hfree : s.freelist = page :: rest) :
    Spares keep mem₀ (s.taken page rest) ∧ ValidPage page ∧ ¬keep page ∧ page ∉ rest := by
  have hvalid := h.valid
  have hnodup := h.nodup
  have hapart := h.apart
  rw [hfree, List.forall_mem_cons] at hvalid hapart
  rw [hfree, List.nodup_cons] at hnodup
  have hrest : Spares keep mem₀ { s with freelist := rest } :=
    ⟨hvalid.2, hnodup.2, hapart.2, h.held, h.same⟩
  exact ⟨hrest.memset hvalid.1 hapart.1 5, hvalid.1, hapart.1, hnodup.1⟩

theorem newTable_spares (α : Type) : Keeps (Spares keep mem₀) (newTable α) := by
  intro s h
  unfold newTable
  apply wp_bind
  apply kalloc_rule
  · intro _
    exact h
  · intro page rest hfree
    obtain ⟨h', hvalid, hkeep, _⟩ := h.taken hfree
    exact h'.memset hvalid hkeep 0

theorem allocLevel1_spares (va : UInt64) : Keeps (Spares keep mem₀) (allocLevel1 va) := by
  refine Keeps.get.bind fun s => ?_
  match s.pagetable.entry (px 2 va) with
  | some _ => exact Keeps.pure _
  | none =>
    refine (newTable_spares Level0).bind fun r => ?_
    match r with
    | none => exact Keeps.pure _
    | some table => exact (Keeps.modify fun _ h => h.table _).bind fun _ => Keeps.pure _

theorem allocLevel0_spares (va : UInt64) : Keeps (Spares keep mem₀) (allocLevel0 va) := by
  refine Keeps.get.bind fun s => ?_
  match s.pagetable.entry (px 2 va) with
  | none => exact Keeps.pure _
  | some l1 =>
    simp only
    match l1.entry (px 1 va) with
    | some _ => exact Keeps.pure _
    | none =>
      refine (newTable_spares Pte).bind fun r => ?_
      match r with
      | none => exact Keeps.pure _
      | some table => exact (Keeps.modify fun _ h => h.table _).bind fun _ => Keeps.pure _

theorem mappages_spares (va size pa : UInt64) (perm : Perm) :
    Keeps (Spares keep mem₀) (mappages va size pa perm) :=
  mappages_rule (fun va => walk_rule (fun va _ => allocLevel1_spares va) allocLevel0_spares va true)
    (fun _ _ => Keeps.modify fun _ h => h.table _) va size pa perm

theorem kfree_spares (h : Spares keep mem₀ s) (hpa : ValidPage pa) (hkeep : ¬keep pa)
    (hfree : pa ∉ s.freelist) :
    wp (kfree pa) s (fun _ s' => Spares keep mem₀ s' ∧ s'.pagetable = s.pagetable ∧
      s'.freelist = pa :: s.freelist) fun _ => False := by
  unfold kfree
  rw [if_neg]
  · apply wp_modify_bind
    apply wp_modify
    have hset := h.memset hpa hkeep 1
    refine ⟨⟨?_, ?_, ?_, hset.held, hset.same⟩, rfl, rfl⟩
    · exact List.forall_mem_cons.mpr ⟨hpa, h.valid⟩
    · exact List.nodup_cons.mpr ⟨hfree, h.nodup⟩
    · exact List.forall_mem_cons.mpr ⟨hkeep, h.apart⟩
  · rw [not_or, not_or, not_not, UInt64.not_lt, UInt64.not_le]
    exact ⟨hpa.mod, hpa.kend_le, hpa.lt⟩

-- The pages of an address range: each is a page of the allocator, neither kept
-- nor free, and mapped once.
structure Loose (keep : UInt64 → Prop) (s : State) (n count : Nat) : Prop where
  page : ∀ m, n ≤ m → m < n + count → ∀ pte, s.pagetable.leaf m = some pte →
    ValidPage pte.pa ∧ ¬keep pte.pa ∧ pte.pa ∉ s.freelist
  once : ∀ m m', n ≤ m → m < n + count → n ≤ m' → m' < n + count → ∀ pte pte',
    s.pagetable.leaf m = some pte → s.pagetable.leaf m' = some pte' → pte.pa = pte'.pa → m = m'

theorem Loose.rest {n count : Nat} {pte : Pte} (h : Loose keep s n (count + 1))
    (hpte : s.pagetable.leaf n = some pte) (hfree : s'.freelist = pte.pa :: s.freelist)
    (hleaf : s'.pagetable.leaf = update s.pagetable.leaf n none) :
    Loose keep s' (n + 1) count := by
  have hold : ∀ m, n + 1 ≤ m → s'.pagetable.leaf m = s.pagetable.leaf m := by
    intro m hm
    rw [hleaf, update_of_ne (by omega)]
  constructor
  · intro m hm hm' pte' hpte'
    rw [hold m hm] at hpte'
    obtain ⟨hvalid, hkeep, hnot⟩ := h.page m (by omega) (by omega) pte' hpte'
    refine ⟨hvalid, hkeep, ?_⟩
    rw [hfree, List.mem_cons]
    rintro (heq | hmem)
    · have hn := h.once m n (by omega) (by omega) (by omega) (by omega) pte' pte hpte' hpte heq
      omega
    · exact hnot hmem
  · intro m m' hm hlt hm' hlt' pte₁ pte₂ hpte₁ hpte₂
    rw [hold m hm] at hpte₁
    rw [hold m' hm'] at hpte₂
    exact h.once m m' (by omega) (by omega) (by omega) (by omega) pte₁ pte₂ hpte₁ hpte₂

theorem unmapLoop_spares (stop : UInt64) (rounds : Nat) (a : UInt64) (hmod : a.toNat % 4096 = 0)
    (hbound : a.toNat + 4096 * rounds ≤ 274877906944) (h : Spares keep mem₀ s)
    (hloose : Loose keep s (vpn a) rounds) :
    wp (unmapLoop stop true rounds a) s (fun _ s' => Spares keep mem₀ s') fun _ => True := by
  refine (unmapLoop_rule (I := fun rounds a s => a.toNat % 4096 = 0 ∧
    a.toNat + 4096 * rounds ≤ 274877906944 ∧ Spares keep mem₀ s ∧ Loose keep s (vpn a) rounds)
    stop ?_ ⟨hmod, hbound, h, hloose⟩).mono (fun _ _ ⟨_, _, h⟩ => h.2.2.1) fun _ h => h
  rintro rounds a s pte hmax ⟨hmod, hbound, h, hloose⟩ hmissing hleaf
  have hnext : (a + PGSIZE).toNat = a.toNat + 4096 := by
    rw [UInt64.toNat_add, toNat_PGSIZE]
    omega
  have hvpn : vpn (a + PGSIZE) = vpn a + 1 := by
    unfold vpn
    omega
  obtain ⟨hvalid, hkeep, hfree⟩ := hloose.page (vpn a) (Nat.le_refl _) (by omega) pte hleaf
  apply (kfree_spares h hvalid hkeep hfree).mono _ fun _ h => h.elim
  rintro _ s' ⟨h', hpt, hfree'⟩
  refine ⟨by omega, by omega, h'.table _, ?_⟩
  rw [hvpn]
  refine hloose.rest hleaf hfree' ?_
  show (s'.pagetable.setPte a none).leaf = _
  rw [hpt]
  exact leaf_setPte none hmissing (vpn_lt hmax)

theorem Spares.start (hvalid : ∀ pa ∈ s.freelist, ValidPage pa) (hnodup : s.freelist.Nodup) :
    Spares (NotFree s) s.mem s :=
  ⟨hvalid, hnodup, fun _ hpa hused => hused.2 hpa, fun _ hused => hused.1, fun _ _ _ _ => rfl⟩

theorem Spares.free_subset {s₀ : State} (h : Spares (NotFree s₀) s₀.mem s) (hpa : pa ∈ s.freelist) :
    pa ∈ s₀.freelist := by
  by_contra hnot
  exact h.apart pa hpa ⟨h.valid pa hpa, hnot⟩

end Spares

end Xv6Ringbuf.Kernel
