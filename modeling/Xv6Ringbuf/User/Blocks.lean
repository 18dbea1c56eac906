import Xv6Ringbuf.User.Malloc

namespace Xv6Ringbuf.Umalloc

structure Block where
  addr : Nat
  size : Nat

def Block.stop (b : Block) : Nat := b.addr + 16 * b.size

def Apart (b c : Block) : Prop := b.stop ≤ c.addr ∨ c.stop ≤ b.addr

theorem Apart.symm {b c : Block} (h : Apart b c) : Apart c b := Or.symm h

instance : Std.Symm Apart := ⟨fun _ _ => Apart.symm⟩

-- The free blocks `L`, in the order of their addresses, and the blocks `V` in use.
structure Layout (start brk : Nat) (L V : List Block) : Prop where
  order : L.Pairwise fun b c => b.addr < c.addr
  apart : (L ++ V).Pairwise Apart
  inside : ∀ b ∈ L ++ V, start ≤ b.addr ∧ 0 < b.size ∧ b.stop ≤ brk

section Moves

variable {start brk : Nat} {L₁ L₂ V : List Block} {b c : Block}

theorem perm_front (L₁ L₂ V : List Block) (c : Block) :
    ((L₁ ++ c :: L₂) ++ V).Perm (c :: (L₁ ++ L₂ ++ V)) := by
  rw [← List.cons_append]
  exact List.perm_middle.append_right V

variable {L : List Block}

theorem Layout.perm {V W : List Block} (h : Layout start brk L V) (hperm : V.Perm W) :
    Layout start brk L W where
  order := h.order
  apart := ((hperm.append_left L).pairwise_iff Apart.symm).mp h.apart
  inside b hb := h.inside b ((hperm.append_left L).mem_iff.mpr hb)

theorem Layout.take (h : Layout start brk (L₁ ++ c :: L₂) V) :
    Layout start brk (L₁ ++ L₂) (c :: V) := by
  have hperm : ((L₁ ++ c :: L₂) ++ V).Perm ((L₁ ++ L₂) ++ c :: V) :=
    (perm_front L₁ L₂ V c).trans List.perm_middle.symm
  refine ⟨List.Pairwise.sublist ?_ h.order, (hperm.pairwise_iff Apart.symm).mp h.apart, ?_⟩
  · exact (List.sublist_cons_self c L₂).append_left L₁
  · intro b hb
    exact h.inside b (hperm.mem_iff.mpr hb)

theorem Layout.insert (h : Layout start brk (L₁ ++ L₂) (b :: V))
    (hbefore : ∀ x ∈ L₁, x.addr < b.addr) (hafter : ∀ x ∈ L₂, b.addr < x.addr) :
    Layout start brk (L₁ ++ b :: L₂) V := by
  have hperm : ((L₁ ++ L₂) ++ b :: V).Perm ((L₁ ++ b :: L₂) ++ V) :=
    List.perm_middle.trans (perm_front L₁ L₂ V b).symm
  refine ⟨?_, (hperm.pairwise_iff Apart.symm).mp h.apart, ?_⟩
  · obtain ⟨h₁, h₂, hcross⟩ := List.pairwise_append.mp h.order
    apply List.pairwise_append.mpr
    refine ⟨h₁, List.pairwise_cons.mpr ⟨hafter, h₂⟩, ?_⟩
    intro x hx y hy
    rcases List.mem_cons.mp hy with rfl | hy
    · exact hbefore x hx
    · exact hcross x hx y hy
  · intro x hx
    exact h.inside x (hperm.mem_iff.mpr hx)

theorem Layout.others (h : Layout start brk (L₁ ++ c :: L₂) V) {x : Block}
    (hx : x ∈ L₁ ++ L₂ ++ V) : Apart c x := by
  have hfront := ((perm_front L₁ L₂ V c).pairwise_iff Apart.symm).mp h.apart
  exact (List.pairwise_cons.mp hfront).1 x hx

theorem order_resize (size : Nat) (h : (L₁ ++ c :: L₂).Pairwise fun b c => b.addr < c.addr) :
    (L₁ ++ ⟨c.addr, size⟩ :: L₂).Pairwise fun b c => b.addr < c.addr := by
  obtain ⟨h₁, h₂, hcross⟩ := List.pairwise_append.mp h
  obtain ⟨hc, h₂⟩ := List.pairwise_cons.mp h₂
  apply List.pairwise_append.mpr
  refine ⟨h₁, List.pairwise_cons.mpr ⟨hc, h₂⟩, ?_⟩
  intro x hx y hy
  rcases List.mem_cons.mp hy with rfl | hy
  · exact hcross x hx c List.mem_cons_self
  · exact hcross x hx y (List.mem_cons_of_mem c hy)

theorem Layout.split (h : Layout start brk (L₁ ++ c :: L₂) V) {k : Nat} (hk : 0 < k)
    (hless : k < c.size) :
    Layout start brk (L₁ ++ ⟨c.addr, c.size - k⟩ :: L₂)
      (⟨c.addr + 16 * (c.size - k), k⟩ :: V) := by
  have hrest : (L₁ ++ L₂ ++ V).Pairwise Apart :=
    (List.pairwise_cons.mp (((perm_front L₁ L₂ V c).pairwise_iff Apart.symm).mp h.apart)).2
  have hc := h.inside c (List.mem_append_left V (List.mem_append_right L₁ List.mem_cons_self))
  have hperm : ((L₁ ++ (⟨c.addr, c.size - k⟩ : Block) :: L₂) ++
      (⟨c.addr + 16 * (c.size - k), k⟩ : Block) :: V).Perm
      (⟨c.addr + 16 * (c.size - k), k⟩ :: ⟨c.addr, c.size - k⟩ :: (L₁ ++ L₂ ++ V)) :=
    List.perm_middle.trans ((perm_front L₁ L₂ V _).cons _)
  refine ⟨order_resize _ h.order, ?_, ?_⟩
  · apply (hperm.pairwise_iff Apart.symm).mpr
    refine List.pairwise_cons.mpr ⟨?_, List.pairwise_cons.mpr ⟨?_, hrest⟩⟩
    · intro x hx
      rcases List.mem_cons.mp hx with rfl | hx
      · right
        exact Nat.le_refl _
      · have happart := h.others hx
        simp only [Apart, Block.stop] at happart hc ⊢
        omega
    · intro x hx
      have happart := h.others hx
      simp only [Apart, Block.stop] at happart ⊢
      omega
  · intro x hx
    simp only [Block.stop] at hc
    rcases List.mem_cons.mp (hperm.mem_iff.mp hx) with rfl | hx
    · simp only [Block.stop]
      omega
    · rcases List.mem_cons.mp hx with rfl | hx
      · simp only [Block.stop]
        omega
      · exact h.inside x ((perm_front L₁ L₂ V c).mem_iff.mpr (List.mem_cons_of_mem c hx))

theorem Layout.merge (h : Layout start brk (L₁ ++ b :: c :: L₂) V) (hadjacent : b.stop = c.addr) :
    Layout start brk (L₁ ++ ⟨b.addr, b.size + c.size⟩ :: L₂) V := by
  have hc : Layout start brk ((L₁ ++ [b]) ++ c :: L₂) V := by
    rw [List.append_assoc, List.singleton_append]
    exact h
  have hall : ∀ x ∈ L₁ ++ L₂ ++ V, x ∈ L₁ ++ c :: L₂ ++ V ∧ x ∈ L₁ ++ [b] ++ L₂ ++ V := by
    intro x hx
    simp only [List.mem_append, List.mem_cons] at hx ⊢
    tauto
  have hbin := h.inside b (List.mem_append_left V (List.mem_append_right L₁ List.mem_cons_self))
  have hcin := hc.inside c (List.mem_append_left V (List.mem_append_right _ List.mem_cons_self))
  have hrest : (L₁ ++ L₂ ++ V).Pairwise Apart := by
    apply List.Pairwise.sublist _ h.apart
    apply List.Sublist.append_right
    apply List.Sublist.append_left
    exact (List.sublist_cons_self c L₂).trans (List.sublist_cons_self b (c :: L₂))
  have hperm := perm_front L₁ L₂ V ⟨b.addr, b.size + c.size⟩
  refine ⟨?_, (hperm.pairwise_iff Apart.symm).mpr (List.pairwise_cons.mpr ⟨?_, hrest⟩), ?_⟩
  · apply order_resize
    apply List.Pairwise.sublist _ h.order
    apply List.Sublist.append_left
    exact (List.sublist_cons_self c L₂).cons_cons b
  · intro x hx
    have hbx := h.others (hall x hx).1
    have hcx := hc.others (hall x hx).2
    have hxin := h.inside x (by
      simp only [List.mem_append, List.mem_cons] at hx ⊢
      tauto)
    simp only [Apart, Block.stop] at *
    omega
  · intro x hx
    rcases List.mem_cons.mp (hperm.mem_iff.mp hx) with rfl | hx
    · simp only [Block.stop] at *
      omega
    · apply h.inside
      simp only [List.mem_append, List.mem_cons] at hx ⊢
      tauto

theorem Layout.extend (h : Layout start brk L V) (hstart : start ≤ brk) {size : Nat} (hsize : 0 < size) :
    Layout start (brk + 16 * size) L (⟨brk, size⟩ :: V) where
  order := h.order
  apart := by
    apply (List.perm_middle.pairwise_iff Apart.symm).mpr
    refine List.pairwise_cons.mpr ⟨?_, h.apart⟩
    intro x hx
    right
    exact (h.inside x hx).2.2
  inside x hx := by
    rcases List.mem_cons.mp (List.perm_middle.mem_iff.mp hx) with rfl | hx
    · exact ⟨hstart, hsize, Nat.le_refl _⟩
    · obtain ⟨hlow, hpos, hstop⟩ := h.inside x hx
      exact ⟨hlow, hpos, Nat.le_trans hstop (Nat.le_add_right brk _)⟩

theorem length_blocks_le (horder : L.Pairwise fun b c => b.addr < c.addr) (hapart : L.Pairwise Apart)
    (hinside : ∀ b ∈ L, start ≤ b.addr ∧ 0 < b.size ∧ b.stop ≤ brk) (hstart : start ≤ brk) :
    start + 16 * L.length ≤ brk := by
  induction L generalizing start with
  | nil =>
    rw [List.length_nil]
    omega
  | cons b L ih =>
    obtain ⟨hfirst, horder'⟩ := List.pairwise_cons.mp horder
    obtain ⟨hothers, hapart'⟩ := List.pairwise_cons.mp hapart
    obtain ⟨hlow, hpos, hstop⟩ := hinside b List.mem_cons_self
    have hrest : b.stop + 16 * L.length ≤ brk := by
      apply ih horder' hapart' _ hstop
      intro x hx
      obtain ⟨_, hpos', hstop'⟩ := hinside x (List.mem_cons_of_mem b hx)
      refine ⟨?_, hpos', hstop'⟩
      have hlt := hfirst x hx
      have hbx := hothers x hx
      simp only [Apart, Block.stop] at hbx ⊢
      omega
    rw [List.length_cons]
    simp only [Block.stop] at hrest
    omega

theorem Layout.length_le (h : Layout start brk L V) (hstart : start ≤ brk) :
    start + 16 * L.length ≤ brk := by
  apply length_blocks_le h.order (List.pairwise_append.mp h.apart).1 _ hstart
  intro b hb
  exact h.inside b (List.mem_append_left V hb)

end Moves

end Xv6Ringbuf.Umalloc
