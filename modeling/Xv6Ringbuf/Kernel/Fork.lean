import Xv6Ringbuf.Kernel.Uvmcopy
import Xv6Ringbuf.Kernel.Teardown

namespace Xv6Ringbuf.Kernel

open Machine Function

def Pagetable.tables (pt : Pagetable) : Multiset UInt64 :=
  Table.total (Table.total (Table.total fun _ => 0)) pt

theorem mem_pages [Image] {pt : Pagetable} (h : pt.Tree) {pa : UInt64} (hmem : pa ∈ pt.pages) :
    pa ∈ pt.tables ∨ ∃ n pte, pt.leaf n = some pte ∧ pte.pa = pa := by
  by_contra hnot
  rw [not_or] at hnot
  obtain ⟨htable, hleaf⟩ := hnot
  have hall := (h.all_iff fun pte => pte.pa ≠ pa).mpr fun n pte hpte heq => hleaf ⟨n, pte, hpte, heq⟩
  apply htable
  unfold Pagetable.tables
  rcases mem_total.mp hmem with hroot | ⟨i, l1, hl1, hmem1⟩
  · exact mem_total.mpr (.inl hroot)
  · refine mem_total.mpr (.inr ⟨i, l1, hl1, ?_⟩)
    rcases mem_total.mp hmem1 with hroot | ⟨j, l0, hl0, hmem0⟩
    · exact mem_total.mpr (.inl hroot)
    · refine mem_total.mpr (.inr ⟨j, l0, hl0, ?_⟩)
      rcases mem_total.mp hmem0 with hroot | ⟨k, pte, hpte, hmem'⟩
      · exact mem_total.mpr (.inl hroot)
      · exact absurd (Multiset.mem_singleton.mp hmem').symm (hall i l1 hl1 j l0 hl0 k pte hpte)

-- What `fork` finds: the allocator's free pages, the memory of the parent, and a
-- child that has only the two pages of the kernel.
structure Forking [Image] (old : Pagetable) (sz trapframe : UInt64) (s : State) : Prop where
  free : ∀ pa ∈ s.freelist, ValidPage pa
  nodup : s.freelist.Nodup
  parent : ParentPages old s (pagesOf sz)
  child : Layout s.pagetable 0 fun _ => False
  mapped : ∀ n pte, s.pagetable.leaf n = some pte → pte.pa ∉ s.freelist
  trapframe : ValidPage trapframe

-- The child has the parent's memory, in pages of its own.
structure Copied (old : Pagetable) (s s' : State) (n : Nat) : Prop where
  copies : Copies old s s' n
  once : ∀ m < n, ∀ m' < n, ∀ pte pte', s'.pagetable.leaf m = some pte →
    s'.pagetable.leaf m' = some pte' → pte.pa = pte'.pa → m = m'
  taken : ∀ m < n, ∀ pte, s'.pagetable.leaf m = some pte → pte.pa ∉ s'.freelist
  rest : ∀ m, n ≤ m → s'.pagetable.leaf m = s.pagetable.leaf m

-- The child maps nothing new, every page that was free is free once, or in a
-- table of the child, and the child can be freed.
structure CleanedUp [Image] (trapframe : UInt64) (s s' : State) : Prop where
  leaf : s'.pagetable.leaf = s.pagetable.leaf
  nodup : s'.freelist.Nodup
  back : ∀ pa ∈ s.freelist, pa ∈ s'.freelist ∨ pa ∈ s'.pagetable.tables
  subset : ∀ pa ∈ s'.freelist, pa ∈ s.freelist
  balance : s'.balance = s.balance
  freed : ∃ s'', (freeproc trapframe 0).run s' = .ok ((), s'')

section Fork

variable [Image] {old : Pagetable} {sz trapframe : UInt64} {s : State}

theorem Forking.empty (h : Forking old sz trapframe s) {m : Nat} (hm : m < 2 ^ 26 - 2) :
    s.pagetable.leaf m = none :=
  h.child.unmapped (by rw [userPages_zero]; omega) hm

theorem Forking.copying (h : Forking old sz trapframe s) : Copying old s s 0 := by
  refine ⟨⟨h.free, h.nodup, ?_, by simp, by simp⟩, Spares.start h.free h.nodup,
    ⟨h.free, h.child.tree⟩, rfl, fun _ _ => rfl, fun m hm => absurd hm (Nat.not_lt_zero m)⟩
  intro m hm
  rw [h.empty hm]
  simp

theorem Undone.cleanedUp {s' : State} (h : Forking old sz trapframe s) (hundone : Undone s s') :
    CleanedUp trapframe s s' := by
  have hlayout : Layout s'.pagetable 0 fun _ => False := by
    refine ⟨hundone.tree.tree, h.child.size, ?_, ?_, ?_⟩
    · rw [hundone.leaf]
      exact h.child.user
    · rw [hundone.leaf]
      exact h.child.top
    · rw [hundone.leaf]
      exact h.child.ring
  refine ⟨hundone.leaf, hundone.spares.nodup, ?_, fun pa => hundone.spares.free_subset,
    hundone.balance, ?_⟩
  · intro pa hpa
    have hmem : pa ∈ s'.balance := by
      rw [hundone.balance]
      exact Multiset.mem_add.mpr (.inl (Multiset.mem_coe.mpr hpa))
    rcases Multiset.mem_add.mp hmem with hfree | hpages
    · exact .inl (Multiset.mem_coe.mp hfree)
    · rcases mem_pages hundone.tree.tree hpages with htable | ⟨n, pte, hpte, rfl⟩
      · exact .inr htable
      · rw [hundone.leaf] at hpte
        exact absurd hpa (h.mapped n pte hpte)
  · have hfreeproc := freeproc_wp hundone.tree.free h.trapframe hlayout
    have hreturns : wp (freeproc trapframe 0) s' (fun _ _ => True) fun _ => False := by
      apply hfreeproc.mono (fun _ _ _ => trivial)
      rintro e ⟨⟨n, hn, hlt, hsome⟩, _⟩
      exact hsome (hlayout.unmapped hn hlt)
    obtain ⟨_, s'', hrun, _⟩ := hreturns.returns
    exact ⟨s'', hrun⟩

-- Both ends of the loop at once. The parent's pages are not free, so the first part also
-- says that the copy never writes to them, whether it is finished or given up.
theorem uvmcopy_copies_or_cleans_up (h : Forking old sz trapframe s) :
    ∃ r s', (uvmcopy old sz).run s = .ok (r, s') ∧ (∀ pa, NotFree s pa → SamePage s s' pa) ∧
      (r = 0 ∧ Copied old s s' (pagesOf sz) ∨ r = -1 ∧ CleanedUp trapframe s s') := by
  have hfuel : pagesOf sz ≤ 0 + (sz.toNat / 4096 + 1) := by
    unfold pagesOf
    omega
  have hloop := uvmcopyLoop_wp h.parent (fun m => h.empty) (sz.toNat / 4096 + 1) h.copying
    (show (0 : UInt64).toNat = 4096 * 0 by rfl) (Nat.zero_le _) hfuel
  obtain ⟨r, s', hrun, hcases⟩ := hloop.returns
  refine ⟨r, s', hrun, ?_, ?_⟩
  · rcases hcases with ⟨_, hcopying⟩ | ⟨_, hundone⟩
    · exact hcopying.spares.same
    · exact hundone.spares.same
  · rcases hcases with ⟨rfl, hcopying⟩ | ⟨rfl, hundone⟩
    · exact .inl ⟨rfl, hcopying.copies, hcopying.heap.once,
        fun m hm pte hpte => (hcopying.heap.page m hm pte hpte).2.2, hcopying.rest⟩
    · exact .inr ⟨rfl, hundone.cleanedUp h⟩

end Fork

def forkState : State :=
  ⟨[0x87f00000], fun _ => 0, (smallTable 0x87fd0000).setPte 0 none, fun _ => newRing [], [], none⟩

theorem forkState_leaf {n : Nat} {pte : Pte} (h : forkState.pagetable.leaf n = some pte) :
    n = 2 ^ 26 - 2 ∧ pte = ⟨0x87fd6000, ⟨true, true, false, false⟩⟩ ∨
      n = 2 ^ 26 - 1 ∧ pte = ⟨0x80007000, ⟨true, false, true, false⟩⟩ := by
  have hmissing : (smallTable 0x87fd0000).missing (vpn 0) = 0 := by decide
  have hleaf : forkState.pagetable.leaf = update (smallTable 0x87fd0000).leaf (vpn 0) none :=
    leaf_setPte none hmissing (by decide)
  rw [show vpn 0 = 0 by decide] at hleaf
  have hlt := lt_of_leaf_eq h
  rw [hleaf] at h
  by_cases hn : n = 0
  · rw [hn, update_self] at h
    cases h
  · rw [update_of_ne hn] at h
    have hrange := smallTable_leaf h
    by_cases htop : n = 2 ^ 26 - 2
    · subst htop
      cases h
      exact .inl ⟨rfl, rfl⟩
    · obtain rfl : n = 2 ^ 26 - 1 := by omega
      cases h
      exact .inr ⟨rfl, rfl⟩

theorem forkState_forking :
    @Forking smallImage (smallTable 0x87fe0000) 4096 0x87fd6000 forkState := by
  let _ := smallImage
  have hvalid : ∀ pa ∈ smallPages 0x87fd0000, ValidPage pa := smallPages_valid (by decide)
  have htree : forkState.pagetable.Tree := (smallTable_tree hvalid).setPte 0 none
  refine ⟨?_, List.nodup_singleton _, ?_, ?_, ?_, by decide⟩
  · intro pa hpa
    rw [List.mem_singleton.mp hpa]
    decide
  · intro m hm
    rw [show pagesOf 4096 = 1 by decide] at hm
    obtain rfl : m = 0 := by omega
    exact ⟨⟨0x87fe5000, permRing⟩, rfl, show permRing ≠ _ by decide, by decide,
      show (0x87fe5000 : UInt64) ∉ [0x87f00000] by decide⟩
  · refine ⟨htree, by decide, ?_, ?_, ?_⟩
    · intro n hn
      rw [userPages_zero] at hn
      omega
    · intro n hn hn'
      by_cases heq : n = 2 ^ 26 - 2
      · rw [heq]
        exact ⟨⟨0x87fd6000, ⟨true, true, false, false⟩⟩, rfl, by simp, rfl⟩
      · obtain rfl : n = 2 ^ 26 - 1 := by omega
        exact ⟨⟨0x80007000, ⟨true, false, true, false⟩⟩, rfl, by simp, rfl⟩
    · intro n _ hn pte hpte
      rcases forkState_leaf hpte with ⟨heq, _⟩ | ⟨heq, _⟩
      · omega
      · omega
  · intro n pte hpte
    rcases forkState_leaf hpte with ⟨_, rfl⟩ | ⟨_, rfl⟩
    · show (0x87fd6000 : UInt64) ∉ [0x87f00000]
      decide
    · show (0x80007000 : UInt64) ∉ [0x87f00000]
      decide

theorem uvmcopy_copies_or_cleans_up_one : ∃ s',
    (@uvmcopy smallImage (smallTable 0x87fe0000) 4096).run forkState = .ok (0, s') ∧
      Copied (smallTable 0x87fe0000) forkState s' 1 := by
  let _ := smallImage
  obtain ⟨r, s', hrun, _, hcases⟩ := uvmcopy_copies_or_cleans_up forkState_forking
  have hresult : ((uvmcopy (smallTable 0x87fe0000) 4096).run forkState).toOption.map Prod.fst =
      some 0 := by decide +kernel
  rw [hrun] at hresult
  obtain rfl := Option.some.inj hresult
  exact ⟨s', hrun, (hcases.resolve_right fun h => absurd h.1 (by decide)).2⟩

end Xv6Ringbuf.Kernel
