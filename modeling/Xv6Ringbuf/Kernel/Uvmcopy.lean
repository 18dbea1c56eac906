import Xv6Ringbuf.Kernel.Balance
import Xv6Ringbuf.Kernel.Heap

namespace Xv6Ringbuf.Kernel

open Machine Function

def movePage (dst src : UInt64) : K Unit :=
  modify fun s => { s with
    mem := fun a => if a - dst < PGSIZE then s.mem (src + (a - dst)) else s.mem a }

-- The parent's table is only read; the one of the state is the child's.
def uvmcopyLoop [Image] (old : Pagetable) (sz : UInt64) : Nat → UInt64 → K Int32
  | 0, _ => return 0
  | fuel + 1, i =>
    if i < sz then
      if MAXVA ≤ i then throw .walk
      else
        match old.lookup i with
        | none => throw .uvmcopyPte
        | some none => throw .uvmcopyPresent
        | some (some pte) => do
            match ← kalloc with
            | none => do
                uvmunmap 0 (i / PGSIZE) true
                return -1
            | some mem => do
                movePage mem pte.pa
                if (← mappages i PGSIZE mem pte.perm) ≠ 0 then do
                  kfree mem
                  uvmunmap 0 (i / PGSIZE) true
                  return -1
                else uvmcopyLoop old sz fuel (i + PGSIZE)
    else return 0

-- The rounds suffice for every page below `sz`.
def uvmcopy [Image] (old : Pagetable) (sz : UInt64) : K Int32 :=
  uvmcopyLoop old sz (sz.toNat / 4096 + 1) 0

def ParentPages [Image] (old : Pagetable) (s : State) (n : Nat) : Prop :=
  ∀ m < n, ∃ pte, old.leaf m = some pte ∧ pte.perm ≠ ⟨false, false, false, false⟩ ∧
    NotFree s pte.pa

def Copies (old : Pagetable) (s s' : State) (n : Nat) : Prop :=
  ∀ m < n, ∃ pte pte', old.leaf m = some pte ∧ s'.pagetable.leaf m = some pte' ∧
    pte'.perm = pte.perm ∧ pte'.pa ∈ s.freelist ∧
    ∀ offset < PGSIZE, s'.mem (pte'.pa + offset) = s.mem (pte.pa + offset)

-- What holds before each round, for a child whose table was empty below the two
-- pages of the kernel.
structure Copying [Image] (old : Pagetable) (s s' : State) (n : Nat) : Prop where
  heap : Heap (2 ^ 26 - 2) s' n
  spares : Spares (NotFree s) s.mem s'
  tree : TreeState s'
  balance : s'.balance = s.balance
  rest : ∀ m, n ≤ m → s'.pagetable.leaf m = s.pagetable.leaf m
  copies : Copies old s s' n

-- The child's table maps what it mapped before, and every page is where it was or
-- in a table.
structure Undone [Image] (s s' : State) : Prop where
  spares : Spares (NotFree s) s.mem s'
  tree : TreeState s'
  balance : s'.balance = s.balance
  leaf : s'.pagetable.leaf = s.pagetable.leaf

theorem add_sub_self (a b : UInt64) : a + b - a = b := by
  rw [UInt64.add_comm, UInt64.add_sub_cancel]

theorem movePage_bytes {mem : UInt64 → UInt8} (dst src offset : UInt64) (h : offset < PGSIZE) :
    (fun a => if a - dst < PGSIZE then mem (src + (a - dst)) else mem a) (dst + offset) =
      mem (src + offset) := by
  simp only
  rw [add_sub_self, if_pos h]

theorem balance_taken {s : State} {page : UInt64} {rest : List UInt64}
    (hfree : s.freelist = page :: rest) : (s.taken page rest).balance + {page} = s.balance := by
  unfold State.balance State.taken
  rw [hfree, ← Multiset.cons_coe, ← Multiset.singleton_add]
  abel

theorem lookup_of_leaf {old : Pagetable} {i : UInt64} {n : Nat} {pte : Pte} (hvpn : vpn i = n)
    (h : old.leaf n = some pte) : old.lookup i = some (some pte) := by
  have hmissing : old.missing n = 0 := missing_of_leaf (by simp [h])
  rw [lookup_eq_slot, hvpn, slot_eq_leaf (lt_of_leaf_eq h) hmissing, h]

section Uvmcopy

variable [Image] {old : Pagetable} {s₀ : State}

variable {s s' : State} {n : Nat} {page i : UInt64} {pte : Pte}

theorem Copying.undo (h : Copying old s₀ s n) (hn : n ≤ 2 ^ 15)
    (hempty : ∀ m < 2 ^ 26 - 2, s₀.pagetable.leaf m = none) :
    wp (uvmunmap 0 (UInt64.ofNat n) true) s (fun _ s' => Undone s₀ s') fun _ => False := by
  have hloose : Loose (NotFree s₀) s 0 (n - 0) := by
    constructor
    · intro m _ hm pte hpte
      obtain ⟨hvalid, _, hfree⟩ := h.heap.page m (by omega) pte hpte
      obtain ⟨_, pte', _, hpte', _, hfresh, _⟩ := h.copies m (by omega)
      rw [hpte] at hpte'
      cases hpte'
      exact ⟨hvalid, fun hused => hused.2 hfresh, hfree⟩
    · intro m m' _ hm _ hm' pte pte' hpte hpte' heq
      exact h.heap.once m (by omega) m' (by omega) pte pte' hpte hpte' heq
  have hunmap := uvmunmap_heap h.heap (by omega) (by omega) (Nat.zero_le n)
    (show (0 : UInt64).toNat = 4096 * 0 by rfl) h.spares hloose
  rw [Nat.sub_zero] at hunmap
  apply ((hunmap.and (uvmunmap_keeps 0 _ true s h.tree)).and (uvmunmap_balance 0 _ s)).mono
  · rintro _ s' ⟨⟨⟨hleaf, hspares⟩, htree⟩, hbalance⟩
    refine ⟨hspares, htree, hbalance.trans h.balance, ?_⟩
    rw [hleaf]
    funext m
    by_cases hm : m < n
    · rw [if_pos (by omega), hempty m (by omega)]
    · rw [if_neg (by omega), h.rest m (by omega)]
  · rintro _ ⟨⟨hfalse, _⟩, _⟩
    exact hfalse

theorem Copying.add (h : Copying old s₀ s n) (hold : old.leaf n = some pte)
    (hperm : pte.perm ≠ ⟨false, false, false, false⟩) (hvalid : ValidPage page)
    (hheld : ¬Held s.pagetable n page) (hfresh : page ∈ s₀.freelist)
    (hleaf : s'.pagetable.leaf = update s.pagetable.leaf n (some ⟨page, pte.perm⟩))
    (hspares : Spares (fun pa => (Held s.pagetable n pa ∨ NotFree s₀ pa) ∨ pa = page) s'.mem s')
    (hsame : ∀ pa, Held s.pagetable n pa ∨ NotFree s₀ pa → SamePage s s' pa)
    (hbytes : ∀ offset < PGSIZE, s'.mem (page + offset) = s₀.mem (pte.pa + offset))
    (htree : TreeState s') (hbalance : s'.balance = s.balance) : Copying old s₀ s' (n + 1) := by
  have hnew : s'.pagetable.leaf n = some ⟨page, pte.perm⟩ := by
    rw [hleaf, update_self]
  have hother : ∀ m, m ≠ n → s'.pagetable.leaf m = s.pagetable.leaf m := by
    intro m hm
    rw [hleaf, update_of_ne hm]
  refine ⟨?_, ?_, htree, hbalance.trans h.balance, ?_, ?_⟩
  · refine h.heap.add hvalid hheld hperm hleaf (hspares.mono ?_)
    rintro pa (hpa | hpa)
    · exact .inl (.inl hpa)
    · exact .inr hpa
  · refine ⟨hspares.valid, hspares.nodup, ?_, fun pa hpa => hpa.1, ?_⟩
    · intro pa hpa hused
      exact hspares.apart pa hpa (.inl (.inr hused))
    · intro pa hused a ha
      rw [hsame pa (.inr hused) a ha]
      exact h.spares.same pa hused a ha
  · intro m hm
    rw [hother m (by omega)]
    exact h.rest m (by omega)
  · intro m hm
    by_cases heq : m = n
    · rw [heq]
      exact ⟨pte, ⟨page, pte.perm⟩, hold, hnew, rfl, hfresh, hbytes⟩
    · obtain ⟨pte₁, pte₂, h₁, h₂, hperm', hfresh', hbytes'⟩ := h.copies m (by omega)
      refine ⟨pte₁, pte₂, h₁, (hother m heq).trans h₂, hperm', hfresh', ?_⟩
      intro offset hoffset
      rw [hsame pte₂.pa (.inl ⟨m, by omega, pte₂, h₂, rfl⟩) (pte₂.pa + offset)
        (by rw [add_sub_self]; exact hoffset)]
      exact hbytes' offset hoffset

theorem Copying.same (h : Copying old s₀ s n) (hleaf : s'.pagetable.leaf = s.pagetable.leaf)
    (hspares : Spares (fun pa => Held s.pagetable n pa ∨ NotFree s₀ pa) s.mem s')
    (htree : TreeState s') (hbalance : s'.balance = s.balance) : Copying old s₀ s' n := by
  have hresized : Resized (2 ^ 26 - 2) ⟨false, false, false, false⟩ s s' n n :=
    Resized.same h.heap hleaf (hspares.mono fun _ => .inl)
  refine ⟨hresized.heap, h.spares.trans (hspares.mono fun _ => .inr), htree,
    hbalance.trans h.balance, ?_, ?_⟩
  · intro m hm
    rw [hleaf]
    exact h.rest m hm
  · intro m hm
    obtain ⟨pte₁, pte₂, h₁, h₂, hperm, hfresh, hbytes⟩ := h.copies m hm
    refine ⟨pte₁, pte₂, h₁, by rw [hleaf, h₂], hperm, hfresh, ?_⟩
    intro offset hoffset
    rw [hspares.same pte₂.pa (.inl ⟨m, hm, pte₂, h₂, rfl⟩) (pte₂.pa + offset)
      (by rw [add_sub_self]; exact hoffset)]
    exact hbytes offset hoffset

theorem Copying.map {rest : List UInt64} (h : Copying old s₀ s n) (hi : i.toNat = 4096 * n)
    (hn : n ≤ 2 ^ 15) (hfree : s.freelist = page :: rest) (hold : old.leaf n = some pte)
    (hperm : pte.perm ≠ ⟨false, false, false, false⟩) (hused : NotFree s₀ pte.pa) :
    wp (do movePage page pte.pa
           mappages i PGSIZE page pte.perm) (s.taken page rest)
      (fun r s' => r = 0 ∧ Copying old s₀ s' (n + 1) ∨
        r ≠ 0 ∧ ValidPage page ∧ page ∉ s'.freelist ∧
          Spares (fun pa => Held s.pagetable n pa ∨ NotFree s₀ pa) s.mem s' ∧
          ¬(Held s.pagetable n page ∨ NotFree s₀ page) ∧
          s'.pagetable.leaf = s.pagetable.leaf ∧ TreeState s' ∧ s'.balance + {page} = s.balance)
      fun _ => False := by
  have halign : Aligned i := by
    refine ⟨by omega, ?_⟩
    rw [UInt64.lt_iff_toNat_lt, toNat_MAXVA]
    omega
  have hvpn : vpn i = n := by
    unfold vpn
    omega
  obtain ⟨htaken, hvalid, hkeep, hrest⟩ := (h.heap.spares.or h.spares.now).taken hfree
  have hfresh : page ∈ s₀.freelist := by
    apply h.spares.free_subset
    rw [hfree]
    exact List.mem_cons_self
  apply wp_modify_bind
  have hmoved := htaken.write hvalid hkeep
    (fun a ha => if_neg ha : ∀ a, ¬a - page < PGSIZE → (if a - page < PGSIZE then
      (s.taken page rest).mem (pte.pa + (a - page)) else (s.taken page rest).mem a) =
        (s.taken page rest).mem a)
  have htree : TreeState { s.taken page rest with
      mem := fun a => if a - page < PGSIZE then
        (s.taken page rest).mem (pte.pa + (a - page)) else (s.taken page rest).mem a } :=
    ⟨hmoved.valid, h.tree.tree⟩
  apply (((mappages_wp halign _).and (mappages_spares i PGSIZE page pte.perm _
    (hmoved.add hvalid hrest))).and ((mappages_balance halign.mod _).and
      (mappages_keeps i PGSIZE page pte.perm _ htree))).mono
  · rintro r s' ⟨⟨hcases, hspares⟩, hbalance, htree'⟩
    have hback := hmoved.trans (hspares.mono fun _ => .inl)
    rcases hcases with ⟨rfl, hmapped⟩ | ⟨rfl, hshort⟩
    · left
      refine ⟨rfl, h.add hold hperm hvalid (fun hheld => hkeep (.inl hheld)) hfresh ?_
        hspares.now hback.same ?_ htree' ?_⟩
      · rw [hmapped.leaf, hvpn]
        rfl
      · intro offset hoffset
        have hoffset' : pte.pa + offset - pte.pa < PGSIZE := by
          rw [add_sub_self]
          exact hoffset
        rw [hspares.same page (.inr rfl) (page + offset) (by rw [add_sub_self]; exact hoffset)]
        calc
          _ = (s.taken page rest).mem (pte.pa + offset) := movePage_bytes page pte.pa offset hoffset
          _ = s.mem (pte.pa + offset) := htaken.same pte.pa (.inr hused) _ hoffset'
          _ = s₀.mem (pte.pa + offset) := h.spares.same pte.pa hused _ hoffset'
      · rcases hbalance with ⟨_, hbalance⟩ | ⟨hr, _⟩
        · exact hbalance.trans (balance_taken hfree)
        · exact absurd rfl hr
    · right
      refine ⟨by decide, hvalid, fun hmem => hspares.apart page hmem (.inr rfl), hback, hkeep,
        hshort.leaf, htree', ?_⟩
      rcases hbalance with ⟨hr, _⟩ | ⟨_, hbalance⟩
      · exact absurd hr (by decide)
      · rw [hbalance]
        exact balance_taken hfree
  · rintro _ ⟨⟨hbad, _⟩, _⟩
    apply hbad
    rw [hvpn]
    show s.pagetable.leaf n = none
    by_contra hsome
    exact absurd ((h.heap.mapped n (by omega)).mp hsome) (Nat.lt_irrefl n)

theorem uvmcopyLoop_wp {sz : UInt64} (hparent : ParentPages old s₀ (pagesOf sz))
    (hempty : ∀ m < 2 ^ 26 - 2, s₀.pagetable.leaf m = none) (fuel : Nat) (h : Copying old s₀ s n)
    (hi : i.toNat = 4096 * n) (hn : n ≤ pagesOf sz) (hfuel : pagesOf sz ≤ n + fuel) :
    wp (uvmcopyLoop old sz fuel i) s
      (fun r s' => r = 0 ∧ Copying old s₀ s' (pagesOf sz) ∨ r = -1 ∧ Undone s₀ s')
      fun _ => False := by
  induction fuel generalizing s i n with
  | zero =>
    have heq : n = pagesOf sz := by omega
    exact .inl ⟨rfl, heq ▸ h⟩
  | succ fuel ih =>
    have hbound := h.heap.bound (by decide)
    have hmore : i < sz ↔ n < pagesOf sz := by
      rw [UInt64.lt_iff_toNat_lt, hi]
      unfold pagesOf
      omega
    have hmax : ¬MAXVA ≤ i := by
      rw [UInt64.not_le, UInt64.lt_iff_toNat_lt, toNat_MAXVA]
      omega
    have hvpn : vpn i = n := by
      unfold vpn
      omega
    have hcount : i / PGSIZE = UInt64.ofNat n := by
      apply UInt64.toNat_inj.mp
      rw [UInt64.toNat_div, UInt64.toNat_ofNat', toNat_PGSIZE]
      omega
    rw [uvmcopyLoop]
    by_cases hlt : i < sz
    · obtain ⟨pte, hold, hperm, hused⟩ := hparent n (hmore.mp hlt)
      rw [if_pos hlt, if_neg hmax, lookup_of_leaf hvpn hold, hcount]
      apply wp_bind
      apply kalloc_rule
      · intro _
        refine wp_call (h.undo (by omega) hempty) ?_
        intro _ s' hundone
        exact .inr ⟨rfl, hundone⟩
      · intro page rest hfree
        have hmap := h.map hi (by omega) hfree hold hperm hused
        rw [wp_bind_iff] at hmap
        apply wp_bind
        apply hmap.mono _ fun _ h => h.elim
        intro _ s₁ hmap₁
        refine wp_call hmap₁ ?_
        rintro r s₂ (⟨rfl, hnext⟩ | ⟨hr, hvalid, hfree₂, hspares, hkeep, hleaf, htree, hbalance⟩)
        · rw [if_neg (by decide)]
          have hstep : (i + PGSIZE).toNat = 4096 * (n + 1) := by
            rw [UInt64.toNat_add, toNat_PGSIZE]
            omega
          have hlt' := hmore.mp hlt
          exact ih hnext hstep (by omega) (by omega)
        · rw [if_pos hr]
          apply wp_bind
          apply (((kfree_spares hspares hvalid hkeep hfree₂).and (kfree_balance page s₂)).and
            (kfree_keeps page s₂ htree)).mono _ fun _ h => h.1.1
          rintro _ s₃ ⟨⟨⟨hspares₃, hpt₃, _⟩, hbalance₃, _⟩, htree₃⟩
          have hsame : Copying old s₀ s₃ n :=
            h.same (by rw [hpt₃, hleaf]) hspares₃ htree₃ (hbalance₃.trans hbalance)
          refine wp_call (hsame.undo (by omega) hempty) ?_
          intro _ s' hundone
          exact .inr ⟨rfl, hundone⟩
    · rw [if_neg hlt]
      have heq : n = pagesOf sz := by
        have := hmore.not.mp hlt
        omega
      exact .inl ⟨rfl, heq ▸ h⟩

end Uvmcopy

end Xv6Ringbuf.Kernel
