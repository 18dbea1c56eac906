import Xv6Ringbuf.Kernel.Balance
import Xv6Ringbuf.Kernel.Spare

namespace Xv6Ringbuf.Kernel

open Machine

def Undisturbed (keep : UInt64 → Prop) (mem₀ : UInt64 → UInt8) (s : State) : Prop :=
  ∀ pa, keep pa → ∀ a, a - pa < PGSIZE → s.mem a = mem₀ a

-- What differs from `mem₀` lies in pages that are free.
def ChangedFree [Image] (mem₀ : UInt64 → UInt8) (s : State) : Prop :=
  ∀ a, s.mem a ≠ mem₀ a → ∃ pa ∈ s.freelist, ValidPage pa ∧ a - pa < PGSIZE

section ChangedFree

variable [Image] {keep : UInt64 → Prop} {mem₀ : UInt64 → UInt8} {I : State → Prop}

theorem ChangedFree.undisturbed {s s' : State} (h : ChangedFree s.mem s')
    (hbytes : Undisturbed keep mem₀ s) (hvalid : ∀ pa, keep pa → ValidPage pa)
    (hfree : ∀ pa ∈ s'.freelist, ¬keep pa) : Undisturbed keep mem₀ s' := by
  intro pa hkeep a ha
  rw [← hbytes pa hkeep a ha]
  by_contra hne
  obtain ⟨pa', hpa', hpage, ha'⟩ := h a hne
  exact hfree pa' hpa' ((hvalid pa hkeep).apart hpage ha ha' ▸ hkeep)

theorem kfree_changedFree (pa : UInt64) : Keeps (ChangedFree mem₀) (kfree pa) := by
  refine Keeps.ite (fun _ => Keeps.throw _) fun hgood s h => ?_
  rw [not_or, not_or, not_not, UInt64.not_lt, UInt64.not_le] at hgood
  apply wp_modify_bind
  apply wp_modify
  intro a ha
  by_cases hin : a - pa < PGSIZE
  · exact ⟨pa, List.mem_cons_self, ⟨hgood.1, hgood.2.1, hgood.2.2⟩, hin⟩
  · have ha' : (if a - pa < PGSIZE then 1 else s.mem a) ≠ mem₀ a := ha
    rw [if_neg hin] at ha'
    obtain ⟨pa', hfree, hpage⟩ := h a ha'
    exact ⟨pa', List.mem_cons_of_mem pa hfree, hpage⟩

theorem freeTable_rule {α : Type} {free : α → K Unit} (hfree : ∀ pa, Keeps I (kfree pa))
    (hchild : ∀ child, Keeps I (free child)) (t : Table α) : Keeps I (freeTable free t) := by
  have hentries : ∀ is, Keeps I (freeEntries free t is) := by
    intro is
    induction is with
    | nil => exact Keeps.pure _
    | cons i rest ih =>
      rw [freeEntries]
      cases t.entry i with
      | none => exact ih
      | some child => exact (hchild child).bind fun _ => ih
  unfold freeTable
  generalize List.finRange 512 = is
  exact (hentries is).bind fun _ => hfree t.page

theorem uvmfree_rule (hset : ∀ va x, Keeps I (setPte va x)) (hfree : ∀ pa, Keeps I (kfree pa))
    (sz : UInt64) : Keeps I (uvmfree sz) := by
  have hentry : ∀ pte, Keeps I (freewalkEntry pte) := fun _ =>
    Keeps.ite (fun _ => Keeps.throw _) fun _ => Keeps.throw _
  have hwalk : ∀ pt, Keeps I (freewalk pt) :=
    freeTable_rule hfree (freeTable_rule hfree (freeTable_rule hfree hentry))
  have hrest : Keeps I (do freewalk (← get).pagetable) := Keeps.get.bind fun s => hwalk s.pagetable
  unfold uvmfree
  by_cases hpos : 0 < sz
  · rw [if_pos hpos]
    exact (uvmunmap_rule hset hfree _ _ _).bind fun _ => hrest
  · rw [if_neg hpos]
    exact hrest

theorem uvmfree_changedFree (sz : UInt64) (s : State) :
    wp (uvmfree sz) s (fun _ s' => ChangedFree s.mem s') fun _ => True :=
  uvmfree_rule (fun _ _ => Keeps.modify fun _ h => h) kfree_changedFree sz s fun _ ha => absurd rfl ha

end ChangedFree

section Release

variable [Image]

theorem uvmfree_balance (sz : UInt64) (s : State) :
    wp (uvmfree sz) s (fun _ s' => (s'.freelist : Multiset UInt64) = s.balance) fun _ => True := by
  unfold uvmfree
  by_cases hpos : 0 < sz
  · rw [if_pos hpos]
    refine wp_call (uvmunmap_balance _ _ s) ?_
    intro _ s' hbalance
    apply wp_get_bind
    apply (freewalk_balance _ s').mono _ fun _ h => h
    intro _ s'' hfreed
    exact hfreed.trans hbalance
  · rw [if_neg hpos]
    apply wp_get_bind
    exact freewalk_balance _ s

theorem procFreepagetable_release {sz : UInt64} {s : State} {code frame : Pte}
    {keep : UInt64 → Prop} {mem₀ : UInt64 → UInt8}
    (hfree : ∀ pa ∈ s.freelist, ValidPage pa) (hlayout : Layout s.pagetable sz fun _ => False)
    (hcode : s.pagetable.leaf (2 ^ 26 - 1) = some code)
    (hframe : s.pagetable.leaf (2 ^ 26 - 2) = some frame)
    (hvalid : ∀ pa, keep pa → ValidPage pa)
    (hkeep : ∀ w, s.balance = w + {code.pa} + {frame.pa} → ∀ pa ∈ w, ¬keep pa)
    (hbytes : Undisturbed keep mem₀ s) :
    wp (procFreepagetable sz) s
      (fun _ s' => s.balance = s'.freelist + {code.pa} + {frame.pa} ∧ Undisturbed keep mem₀ s')
      fun _ => False := by
  have hTrampoline : vpn TRAMPOLINE = 2 ^ 26 - 1 := by decide
  have hTrapframe : vpn TRAPFRAME = 2 ^ 26 - 2 := by decide
  have hrest : wp (procFreepagetable sz) s
      (fun _ s' => s.balance = s'.freelist + {code.pa} + {frame.pa} ∧ Undisturbed keep mem₀ s')
      fun _ => True := by
    unfold procFreepagetable
    apply wp_bind
    have hunmap₁ := uvmunmap_wp false TRAMPOLINE 1 (by decide) (by decide) s
    have hbalance₁ := uvmunmapOne_balance ⟨by decide, by decide⟩ (hTrampoline.symm ▸ hcode)
    apply (hunmap₁.and hbalance₁).mono _ fun _ _ => trivial
    rintro _ s₁ ⟨⟨_, hunmapped₁⟩, hlost₁⟩
    have hframe₁ : s₁.pagetable.leaf (vpn TRAPFRAME) = some frame := by
      rw [hunmapped₁.leaf, hTrapframe, hTrampoline]
      exact hframe
    apply wp_bind
    have hunmap₂ := uvmunmap_wp false TRAPFRAME 1 (by decide) (by decide) s₁
    have hbalance₂ := uvmunmapOne_balance ⟨by decide, by decide⟩ hframe₁
    apply (hunmap₂.and hbalance₂).mono _ fun _ _ => trivial
    rintro _ s₂ ⟨⟨_, hunmapped₂⟩, hlost₂⟩
    have hleft : s.balance = s₂.balance + {code.pa} + {frame.pa} := by
      rw [← hlost₁, ← hlost₂, add_right_comm]
    have hbytes₂ : Undisturbed keep mem₀ s₂ := by
      unfold Undisturbed
      rw [(hunmapped₂.free rfl).2, (hunmapped₁.free rfl).2]
      exact hbytes
    apply ((uvmfree_balance sz s₂).and (uvmfree_changedFree sz s₂)).mono _ fun _ _ => trivial
    rintro _ s' ⟨hfreed, hchanged⟩
    refine ⟨by rw [hfreed]; exact hleft, hchanged.undisturbed hbytes₂ hvalid fun pa hpa => ?_⟩
    rw [← Multiset.mem_coe, hfreed] at hpa
    exact hkeep _ hleft pa hpa
  apply ((procFreepagetable_wp hfree hlayout).and hrest).mono
  · rintro _ s' ⟨_, h⟩
    exact h
  · rintro _ ⟨⟨⟨n, hn, hlt, hsome⟩, _⟩, _⟩
    apply hsome
    rw [Option.eq_none_iff_forall_ne_some]
    intro pte hpte
    exact (hlayout.ring n hn hlt pte hpte).1

end Release

end Xv6Ringbuf.Kernel
