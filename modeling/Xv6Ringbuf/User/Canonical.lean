import Xv6Ringbuf.User.FreeList

namespace Xv6Ringbuf.Umalloc

open Machine Linked

-- A block without units still has its header.
def Block.ends (b : Block) : Nat := b.addr + 16 * max 1 b.size

def Disjoint (b c : Block) : Prop := b.ends ≤ c.addr ∨ c.ends ≤ b.addr

def Adjacent (b c : Block) : Prop := b.stop = c.addr ∨ c.stop = b.addr

def Block.units (b : Block) : Set Nat := { a | ∃ i < b.size, a = b.addr + 16 * i }

def units (L : List Block) : Set Nat := { a | ∃ b ∈ L, a ∈ b.units }

-- The circular list in memory, from its lowest block on, with `freep` anywhere on it.
structure FreeList (h : Heap) (L : List Block) : Prop where
  ring : Around h.next (addrs L)
  freep : h.freep ∈ addrs L
  sizes : ∀ b ∈ L, (h.mem b.addr).size = b.size
  sorted : L.Pairwise fun b c => b.addr < c.addr
  disjoint : L.Pairwise Disjoint
  separate : L.Pairwise fun b c => ¬Adjacent b c
  inside : ∀ b ∈ L, b.ends ≤ h.brk
  memory : h.brk ≤ (PHYSTOP - KERNBASE).toNat

structure InUse (h : Heap) (L : List Block) (b : Block) : Prop where
  units : 0 < b.size
  size : (h.mem b.addr).size = b.size
  inside : b.ends ≤ h.brk
  disjoint : ∀ x ∈ L, Disjoint b x

def Below (b c : Block) : Prop := b.ends ≤ c.addr ∧ b.stop < c.addr

theorem stop_le_ends (b : Block) : b.stop ≤ b.ends := by
  unfold Block.stop Block.ends
  omega

theorem addr_lt_ends (b : Block) : b.addr + 16 ≤ b.ends := by
  unfold Block.ends
  omega

theorem ends_eq_stop {b : Block} (h : 0 < b.size) : b.ends = b.stop := by
  unfold Block.stop Block.ends
  omega

theorem pairwise_below_iff {L : List Block} :
    L.Pairwise Below ↔ (L.Pairwise fun b c => b.addr < c.addr) ∧ L.Pairwise Disjoint ∧
      L.Pairwise fun b c => ¬Adjacent b c := by
  rw [← List.pairwise_and_iff, ← List.pairwise_and_iff]
  apply Iff.intro <;> apply List.Pairwise.imp
  · rintro b c ⟨hends, hstop⟩
    have hb := addr_lt_ends b
    have hc : c.addr ≤ c.stop := Nat.le_add_right _ _
    refine ⟨by omega, .inl hends, ?_⟩
    rintro (h | h) <;> omega
  · rintro b c ⟨hlt, hdisjoint, hseparate⟩
    have hc := addr_lt_ends c
    have hb := stop_le_ends b
    rcases hdisjoint with h | h
    · exact ⟨h, lt_of_le_of_ne (by omega) fun heq => hseparate (.inl heq)⟩
    · omega

section Units

theorem units_cons (b : Block) (L : List Block) : units (b :: L) = b.units ∪ units L := by
  ext a
  simp only [units, List.mem_cons, Set.mem_ofPred_eq, Set.mem_union, exists_eq_or_imp]

theorem units_append (A B : List Block) : units (A ++ B) = units A ∪ units B := by
  induction A with
  | nil =>
    ext a
    simp [units]
  | cons b A ih => rw [List.cons_append, units_cons, units_cons, ih, Set.union_assoc]

theorem units_merge {b c : Block} (h : b.stop = c.addr) :
    (⟨b.addr, b.size + c.size⟩ : Block).units = b.units ∪ c.units := by
  unfold Block.stop at h
  ext a
  constructor
  · rintro ⟨i, hi, rfl⟩
    by_cases hlt : i < b.size
    · exact .inl ⟨i, hlt, rfl⟩
    · refine .inr ⟨i - b.size, ?_, ?_⟩
      · simp only at hi
        omega
      · simp only
        omega
  · rintro (⟨i, hi, rfl⟩ | ⟨i, hi, rfl⟩)
    · exact ⟨i, Nat.lt_add_right _ hi, rfl⟩
    · refine ⟨b.size + i, Nat.add_lt_add_left hi _, ?_⟩
      simp only
      omega

end Units

section Joining

variable {A B : List Block} {b p : Block} {brk : Nat}

theorem exists_place {L : List Block} (hsorted : L.Pairwise Below) (hb : ∀ x ∈ L, Disjoint b x) :
    ∃ A B, L = A ++ B ∧ (∀ x ∈ A, x.ends ≤ b.addr) ∧ ∀ y ∈ B, b.ends ≤ y.addr := by
  induction L with
  | nil => exact ⟨[], [], rfl, fun _ hx => absurd hx List.not_mem_nil, fun _ hx => absurd hx List.not_mem_nil⟩
  | cons c L ih =>
    obtain ⟨hfirst, hsorted'⟩ := List.pairwise_cons.mp hsorted
    rcases hb c List.mem_cons_self with habove | hbelow
    · refine ⟨[], c :: L, rfl, fun _ hx => absurd hx List.not_mem_nil, ?_⟩
      intro y hy
      rcases List.mem_cons.mp hy with rfl | hy
      · exact habove
      · have hcy := (hfirst y hy).1
        have hc := addr_lt_ends c
        omega
    · obtain ⟨A, B, rfl, hA, hB⟩ := ih hsorted' fun x hx => hb x (List.mem_cons_of_mem c hx)
      refine ⟨c :: A, B, rfl, ?_, hB⟩
      intro x hx
      rcases List.mem_cons.mp hx with rfl | hx
      · exact hbelow
      · exact hA x hx

def joinUp (b : Block) : List Block → Block × List Block
  | [] => (b, [])
  | x :: B => if b.stop = x.addr then (⟨b.addr, b.size + x.size⟩, B) else (b, x :: B)

theorem joinUp_of_touch {x : Block} (h : b.stop = x.addr) :
    joinUp b (x :: B) = (⟨b.addr, b.size + x.size⟩, B) := by rw [joinUp, if_pos h]

theorem joinUp_of_gap (h : ∀ x ∈ B.head?, b.stop ≠ x.addr) : joinUp b B = (b, B) := by
  cases B with
  | nil => rfl
  | cons x B => rw [joinUp, if_neg (h x rfl)]

structure Joint (brk : Nat) (b : Block) (B : List Block) (c : Block) (B' : List Block) : Prop where
  addr : c.addr = b.addr
  size : b.size ≤ c.size
  inside : c.ends ≤ brk
  sub : B' <:+ B
  below : (c :: B').Pairwise Below
  units : units (c :: B') = units (b :: B)

theorem joint_joinUp (hpos : 0 < b.size) (hinside : b.ends ≤ brk) (hB : B.Pairwise Below)
    (hin : ∀ y ∈ B, y.ends ≤ brk) (habove : ∀ y ∈ B, b.ends ≤ y.addr) :
    Joint brk b B (joinUp b B).1 (joinUp b B).2 := by
  rw [ends_eq_stop hpos] at habove
  cases B with
  | nil =>
    exact ⟨rfl, Nat.le_refl _, hinside, List.suffix_refl _, List.pairwise_singleton _ _, rfl⟩
  | cons x B =>
    obtain ⟨hfirst, hB'⟩ := List.pairwise_cons.mp hB
    have hx := habove x List.mem_cons_self
    by_cases htouch : b.stop = x.addr
    · have hends : (⟨b.addr, b.size + x.size⟩ : Block).ends = x.stop := by
        rw [ends_eq_stop (Nat.add_pos_left hpos _)]
        unfold Block.stop at htouch ⊢
        simp only
        omega
      rw [joinUp_of_touch htouch]
      refine ⟨rfl, Nat.le_add_right _ _, ?_, List.suffix_cons _ _, ?_, ?_⟩
      · show (⟨b.addr, b.size + x.size⟩ : Block).ends ≤ brk
        have hxin := hin x List.mem_cons_self
        have hxstop := stop_le_ends x
        omega
      · refine List.pairwise_cons.mpr ⟨fun y hy => ?_, hB'⟩
        have hxy := (hfirst y hy).2
        rw [Below, ← ends_eq_stop (Nat.add_pos_left hpos _), hends]
        exact ⟨Nat.le_of_lt hxy, hxy⟩
      · rw [units_cons, units_merge htouch, units_cons, units_cons, Set.union_assoc]
    · rw [joinUp, if_neg htouch]
      refine ⟨rfl, Nat.le_refl _, hinside, List.suffix_refl _, ?_, rfl⟩
      refine List.pairwise_cons.mpr ⟨fun y hy => ?_, hB⟩
      have hlt : b.stop < x.addr := by omega
      have hlt' : b.stop < y.addr := by
        rcases List.mem_cons.mp hy with rfl | hy
        · exact hlt
        · have hxy := (hfirst y hy).1
          have hxends := addr_lt_ends x
          omega
      rw [Below, ends_eq_stop hpos]
      exact ⟨Nat.le_of_lt hlt', hlt'⟩

def joinDown (p c : Block) : List Block :=
  if p.stop = c.addr then [⟨p.addr, p.size + c.size⟩] else [p, c]

theorem units_joinDown (p c : Block) : units (joinDown p c) = units [p, c] := by
  rw [joinDown]
  by_cases h : p.stop = c.addr
  · rw [if_pos h, units_cons, units_merge h, units_cons, units_cons, Set.union_assoc]
  · rw [if_neg h]

theorem below_joinDown {c : Block} (hpos : 0 < c.size) (hA : (A ++ [p]).Pairwise Below)
    (hpc : p.ends ≤ c.addr) (hc : (c :: B).Pairwise Below) :
    (A ++ (joinDown p c ++ B)).Pairwise Below := by
  obtain ⟨hA', _, hcross⟩ := List.pairwise_append.mp hA
  obtain ⟨hcB, hB⟩ := List.pairwise_cons.mp hc
  have hAp : ∀ x ∈ A, Below x p := fun x hx => hcross x hx p List.mem_cons_self
  have hpends := addr_lt_ends p
  have hcends := addr_lt_ends c
  rw [joinDown]
  by_cases h : p.stop = c.addr
  · rw [if_pos h]
    have hends : (⟨p.addr, p.size + c.size⟩ : Block).ends = c.stop := by
      rw [ends_eq_stop (Nat.add_pos_right _ hpos)]
      unfold Block.stop at h ⊢
      simp only
      omega
    refine List.pairwise_append.mpr ⟨hA', List.pairwise_cons.mpr ⟨fun y hy => ?_, hB⟩, ?_⟩
    · have hcy := hcB y hy
      rw [Below, ends_eq_stop hpos] at hcy
      rw [Below, ← ends_eq_stop (Nat.add_pos_right _ hpos), hends]
      exact ⟨hcy.1, hcy.2⟩
    · intro x hx y hy
      rcases List.mem_cons.mp hy with rfl | hy
      · exact hAp x hx
      · have hxp := hAp x hx
        have hcy := hcB y hy
        unfold Below at *
        omega
  · rw [if_neg h]
    have hpstop := stop_le_ends p
    have hbelow : Below p c := ⟨hpc, by omega⟩
    have hup : ∀ x, Below x p → ∀ y ∈ c :: B, Below x y := by
      intro x hxp y hy
      rcases List.mem_cons.mp hy with rfl | hy
      · unfold Below at *
        omega
      · have hcy := hcB y hy
        unfold Below at *
        omega
    have hpB : ∀ y ∈ c :: B, Below p y := by
      intro y hy
      rcases List.mem_cons.mp hy with rfl | hy
      · exact hbelow
      · have hcy := hcB y hy
        unfold Below at *
        omega
    refine List.pairwise_append.mpr ⟨hA', List.pairwise_cons.mpr ⟨hpB, hc⟩, ?_⟩
    intro x hx y hy
    rcases List.mem_cons.mp hy with rfl | hy
    · exact hAp x hx
    · exact hup x (hAp x hx) y hy

end Joining

end Xv6Ringbuf.Umalloc
