import Xv6Ringbuf.Kernel.PageCalls
import Xv6Ringbuf.Kernel.System

namespace Xv6Ringbuf.Sv39

open Machine Kernel

variable {m : Mem} {root : UInt64} {tree : Shape} {pages : Pages}

-- The histories of a table from `uvmcreate` on, with the map that they leave.
inductive History [Image] (root : UInt64) : Mem → Pages → Prop where
  | created {m m' : Mem} (hfresh : Fresh m fun _ => none) (hrun : uvmcreate.run m = .ok (some root, m')) :
      History root m' fun _ => none
  | call {m m' : Mem} {pages : Pages} {r : Int32} (c : Call) (h : History root m pages)
      (hallowed : c.Allowed m pages) (hrun : (c.run root).run m = .ok (r, m')) :
      History root m' (c.after pages r)

theorem uvmcreate_wp (hfresh : Fresh m fun _ => none) :
    wp uvmcreate m (fun r m' => ∀ root, r = some root → ∃ tree, Rep m' root tree fun _ => none)
      fun _ => False := by
  refine wp_bind (kalloc_wp ?_ ?_)
  · intro m' _ _ _ _
    exact wp_pure (by simp)
  · intro page rest m₁ hsupply _ htables _
    refine wp_bind (memset_wp ?_)
    intro m₂ hzero _ htables₂ _
    refine wp_pure ?_
    rintro root ⟨⟩
    have hmem : some page ∈ m.supply := by
      rw [hsupply]
      exact List.mem_cons_self
    have honly : ∀ x q, (if x = Place.root then some page else none) = some q → x = .root ∧ page = q := by
      intro x q hx
      by_cases hroot : x = .root
      · rw [if_pos hroot] at hx
        exact ⟨hroot, Option.some.inj hx⟩
      · rw [if_neg hroot] at hx
        cases hx
    refine ⟨fun x => if x = .root then some page else none, if_pos rfl, ?_, ?_, ?_, ?_, ?_, ?_, ?_, ?_⟩
    · intro x q hx i
      obtain ⟨rfl, rfl⟩ := honly x q hx
      rw [hzero]
      rfl
    · intro i j hlow
      exact absurd rfl hlow
    · intro x y q hx hy
      rw [(honly x q hx).1, (honly y q hy).1]
    · intro x q hx
      rw [← (honly x q hx).2]
      exact hfresh.aligned page hmem
    · intro x q hx
      rw [← (honly x q hx).2, htables₂, htables]
      exact List.mem_cons_self
    · intro n e he
      cases he
    · intro n e he
      cases he
    · intro n e he
      cases he

theorem History.rep [Image] (h : History root m pages) : ∃ tree, Rep m root tree pages := by
  induction h with
  | created hfresh hrun => exact (uvmcreate_wp hfresh).ok hrun root rfl
  | call c _ hallowed hrun ih =>
    obtain ⟨tree, hrep⟩ := ih
    exact (c.run_wp hrep hallowed).ok hrun

theorem Rep.finite (h : Rep m root tree pages) : {n | pages n ≠ none}.Finite := by
  refine (Set.finite_lt_nat (2 ^ 26)).subset ?_
  intro n hn
  obtain ⟨e, he⟩ := Option.ne_none_iff_exists'.mp hn
  exact h.bound n e he

def Pages.walkaddr (pages : Pages) (n : Nat) : UInt64 :=
  match pages n with
  | none => 0
  | some e => if e.flags &&& PTE_U = 0 then 0 else e.pa

theorem walkaddr_wp (h : Rep m root tree pages) (va : UInt64) :
    wp (walkaddr root va) m (fun r m' => r = pages.walkaddr (vpn va) ∧ m' = m) fun _ => False := by
  by_cases hva : MAXVA ≤ va
  · have hnone : pages (vpn va) = none := by
      cases he : pages (vpn va) with
      | none => rfl
      | some e =>
        have hlt := h.bound _ e he
        rw [UInt64.le_iff_toNat_le, toNat_MAXVA] at hva
        rw [vpn] at hlt
        omega
    rw [walkaddr, if_pos hva]
    exact wp_pure ⟨by rw [Pages.walkaddr, hnone], rfl⟩
  · have hva' : va < MAXVA := by simpa using hva
    rw [walkaddr, if_neg hva]
    refine wp_bind (walk_find h hva' ?_)
    cases hp : tree (leafPlace (vpn va)) with
    | none =>
      simp only [pteAddr, hp, Option.map_none]
      refine wp_pure ⟨?_, rfl⟩
      cases he : pages (vpn va) with
      | none => rw [Pages.walkaddr, he]
      | some e => exact absurd hp (h.reach _ e he)
    | some p =>
      simp only [pteAddr, hp, Option.map_some]
      refine wp_bind (load_wp ?_)
      simp only [h.entry (vpn_lt hva') hp, Pages.walkaddr]
      cases he : pages (vpn va) with
      | none => exact wp_pure ⟨rfl, rfl⟩
      | some e =>
        rw [if_neg ((entryWord_valid_iff _).mpr (by simp)), entryWord, entry_and e.pa e.small (by decide),
          PTE2PA_entry e.aligned e.small]
        by_cases hU : e.flags &&& PTE_U = 0
        · simp only [if_pos hU]
          exact wp_pure ⟨rfl, rfl⟩
        · simp only [if_neg hU]
          exact wp_pure ⟨rfl, rfl⟩

-- The tree is a finite map. Every address of a page leads to its entry, and a
-- call that keeps to its preconditions returns and changes the map as it should.
theorem page_table_represents_finite_map [Image] (h : History root m pages) :
    {n | pages n ≠ none}.Finite ∧
    (∀ va < MAXVA, ∃ pte, (walk root va false).run m = .ok (pte, m) ∧
      match pages (vpn va) with
      | none => ∀ a, pte = some a → m.words a.1 a.2 = 0
      | some e => ∃ a, pte = some a ∧ m.words a.1 a.2 = PA2PTE e.pa ||| e.flags) ∧
    (∀ va, (walkaddr root va).run m = .ok (pages.walkaddr (vpn va), m)) ∧
    ∀ c : Call, c.Allowed m pages →
      ∃ r m', (c.run root).run m = .ok (r, m') ∧ History root m' (c.after pages r) := by
  obtain ⟨tree, hrep⟩ := h.rep
  refine ⟨hrep.finite, ?_, ?_, ?_⟩
  · intro va hva
    have hwalk : wp (walk root va false) m (fun r m' => r = pteAddr tree (vpn va) ∧ m' = m)
        fun _ => False := walk_find hrep hva ⟨rfl, rfl⟩
    obtain ⟨pte, m', hrun, hpte, rfl⟩ := hwalk.returns
    refine ⟨pte, hrun, ?_⟩
    cases he : pages (vpn va) with
    | none =>
      rintro a rfl
      obtain ⟨p, hp, rfl⟩ := Option.map_eq_some_iff.mp hpte.symm
      rw [hrep.entry (vpn_lt hva) hp, he]
      rfl
    | some e =>
      obtain ⟨p, hp⟩ := Option.ne_none_iff_exists'.mp (hrep.reach _ e he)
      refine ⟨(p, index 0 (vpn va)), ?_, ?_⟩
      · rw [hpte, pteAddr, hp]
        rfl
      · rw [hrep.entry (vpn_lt hva) hp, he]
        rfl
  · intro va
    obtain ⟨r, m', hrun, rfl, rfl⟩ := (walkaddr_wp hrep va).returns
    exact hrun
  · intro c hallowed
    obtain ⟨r, m', hrun, _⟩ := (c.run_wp hrep hallowed).returns
    exact ⟨r, m', hrun, .call c h hallowed hrun⟩

def newMem : Mem := ⟨fun _ _ => 0, [some 0x87fff000], []⟩

def mapStack : Call :=
  .mappages 0x1000 0x87ffe000 0x16 (by decide) (by decide) [some 0x87ffd000, some 0x87ffc000]

theorem page_table_represents_finite_map_stack :
    ∃ m m' r, uvmcreate.run newMem = .ok (some 0x87fff000, m) ∧
      (@Call.run smallImage 0x87fff000 mapStack).run m = .ok (r, m') ∧
      (walkaddr 0x87fff000 0x1234).run m' = .ok (0x87ffe000, m') := by
  let _ := smallImage
  have hfresh : Fresh newMem fun _ => none := by
    refine ⟨by simp [newMem], ?_, ?_, ?_⟩
    · intro page hpage
      obtain rfl : page = 0x87fff000 := by simpa [newMem] using hpage
      rfl
    · simp [newMem]
    · simp
  obtain ⟨answer, m, hcreate, _⟩ := (uvmcreate_wp hfresh).returns
  obtain rfl : answer = some 0x87fff000 := by
    have hanswer : (uvmcreate.run newMem).toOption.map Prod.fst = some (some 0x87fff000) := rfl
    rw [hcreate] at hanswer
    exact Option.some.inj hanswer
  have hcreated : History 0x87fff000 m fun _ => none := .created hfresh hcreate
  have htables : m.tables = [0x87fff000] := by
    have htables : (uvmcreate.run newMem).toOption.map (fun r => r.2.tables) = some [0x87fff000] := rfl
    rw [hcreate] at htables
    exact Option.some.inj htables
  have hallowed : mapStack.Allowed m fun _ => none := by
    refine ⟨by decide, by decide, rfl, by simp [htables], by simp, ⟨by simp, ?_, by simp [htables], by simp⟩⟩
    intro page hpage
    obtain rfl | rfl : page = 0x87ffd000 ∨ page = 0x87ffc000 := by simpa using hpage
    · rfl
    · rfl
  obtain ⟨_, _, _, hcalls⟩ := page_table_represents_finite_map hcreated
  obtain ⟨r, m', hrun, hmapped⟩ := hcalls mapStack hallowed
  have hr : r = 0 := by
    obtain ⟨_, hcreate', hrun'⟩ : ∃ m, uvmcreate.run newMem = .ok (some 0x87fff000, m) ∧
        ((mapStack.run 0x87fff000).run m).toOption.map Prod.fst = some 0 := ⟨_, rfl, rfl⟩
    obtain rfl : m = _ := (Prod.mk.inj (Except.ok.inj (hcreate.symm.trans hcreate'))).2
    rw [hrun] at hrun'
    exact Option.some.inj hrun'
  subst hr
  obtain ⟨_, _, hwalkaddr, _⟩ := page_table_represents_finite_map hmapped
  exact ⟨m, m', 0, hcreate, hrun, hwalkaddr 0x1234⟩

end Xv6Ringbuf.Sv39
