import Xv6Ringbuf.User.FreeRim

namespace Xv6Ringbuf.Umalloc

open Machine Linked

section Join

variable {base start : Nat} {h h' : Heap} {A L L₁ L₂ R V : List Block} {b c p : Block}
  {E : Stop → Prop}

theorem Inv.back (hinv : Inv base start h (L₁ ++ L₂) V) :
    Walk h.next ((addrs L₁).getLastD base) (addrs L₂ ++ [base]) := by
  have hloop := hinv.loop
  rw [addrs_append] at hloop
  exact hloop.rest

theorem Inv.ends_le (hinv : Inv base start h L V) {x : Block} (hx : x ∈ L ++ V) : x.ends ≤ h.brk := by
  obtain ⟨_, hpos, hstop⟩ := hinv.layout.inside x hx
  rw [ends_eq_stop hpos]
  exact hstop

theorem Inv.around (hinv : Inv base start h (L₁ ++ L₂) V) (hp : ⟨base, 0⟩ :: L₁ = A ++ [p]) :
    addrs (A ++ p :: L₂) = base :: addrs (L₁ ++ L₂) ∧ Loop h.next p.addr (addrs (L₂ ++ A)) := by
  have haddrs : addrs (A ++ p :: L₂) = base :: addrs (L₁ ++ L₂) := by
    rw [List.append_cons, ← hp]
    rfl
  have haround : Around h.next (addrs (A ++ p :: L₂)) := by
    rw [haddrs]
    exact hinv.loop
  rw [addrs_append] at haround
  refine ⟨haddrs, ?_⟩
  rw [addrs_append]
  exact haround.rotate

-- The base is part of the ring as a block without units.
theorem Inv.rim (hinv : Inv base start h (L₁ ++ L₂) (b :: V)) (hp : ⟨base, 0⟩ :: L₁ = A ++ [p]) :
    Rim h p (L₂ ++ A) b := by
  have hmem : ∀ x ∈ p :: (L₂ ++ A), x = ⟨base, 0⟩ ∨ x ∈ L₁ ++ L₂ := by
    intro x hx
    have hx' : x ∈ (A ++ [p]) ++ L₂ := by
      simp only [List.mem_cons, List.mem_append] at hx ⊢
      tauto
    rw [← hp] at hx'
    exact List.mem_cons.mp hx'
  have hbmem : b ∈ (L₁ ++ L₂) ++ b :: V := List.mem_append_right _ List.mem_cons_self
  have hb := hinv.layout.addr_bounds hinv.below hbmem
  refine ⟨(hinv.around hp).2, ?_, ?_, ?_, hinv.top⟩
  · intro hin
    obtain ⟨x, hx, heq⟩ := List.mem_map.mp hin
    rcases hmem x hx with rfl | hx
    · simp only at heq
      omega
    · exact hinv.layout.addr_ne (List.mem_append_left V hx) heq
  · intro x hx
    rcases List.mem_cons.mp hx with rfl | hx
    · exact hinv.sizes x hbmem
    · rcases hmem x hx with rfl | hx
      · exact hinv.base_size
      · exact hinv.sizes x (List.mem_append_left _ hx)
  · intro x hx
    rcases List.mem_cons.mp hx with rfl | hx
    · exact hinv.ends_le hbmem
    · rcases hmem x hx with rfl | hx
      · have hbelow := hinv.below
        have hstart := hinv.start_le
        simp only [Block.ends]
        omega
      · exact hinv.ends_le (List.mem_append_left _ hx)

theorem Freed.layout (hfreed : Freed h p (L₂ ++ A) b c R h')
    (hinv : Inv base start h (L₁ ++ L₂) (b :: V)) (hp : ⟨base, 0⟩ :: L₁ = A ++ [p])
    (hbefore : ∀ x ∈ L₁, x.addr < b.addr) (hafter : ∀ x ∈ L₂, b.addr < x.addr) :
    ∃ L, R = L ++ A ∧ Layout start h.brk (L₁ ++ c :: L) V ∧ L ⊆ L₂ ∧ b.size ≤ c.size := by
  have hlayout := hinv.layout.insert hbefore hafter
  rcases hfreed.cases with ⟨rfl, rfl, _⟩ | ⟨x, hW, htouch, rfl⟩
  · exact ⟨L₂, rfl, hlayout, List.Subset.refl _, Nat.le_refl _⟩
  · cases L₂ with
    | nil =>
      -- the next block around is below the freed one
      have hx : x ∈ (⟨base, 0⟩ : Block) :: L₁ := by
        rw [List.nil_append] at hW
        rw [hp, hW]
        exact List.mem_append_left _ List.mem_cons_self
      have hlt : x.addr < b.addr := by
        rcases List.mem_cons.mp hx with rfl | hx
        · exact (hinv.layout.addr_bounds hinv.below (List.mem_append_right _ List.mem_cons_self)).1
        · exact hbefore x hx
      unfold Block.stop at htouch
      omega
    | cons y L =>
      obtain ⟨rfl, rfl⟩ := List.cons.inj hW
      exact ⟨L, rfl, hlayout.merge htouch, List.subset_cons_self y L, Nat.le_add_right _ _⟩

theorem Freed.inv (hfreed : Freed h p (L₂ ++ A) b c (L ++ A) h')
    (hinv : Inv base start h (L₁ ++ L₂) (b :: V)) {L' : List Block}
    (hring : ⟨base, 0⟩ :: L' = A ++ (joinDown p c ++ L)) (hlayout : Layout start h.brk L' V)
    (hrest : ∀ x ∈ A ++ L ++ V, (x = ⟨base, 0⟩ ∨ x ∈ L₁ ++ L₂ ++ V) ∧ x.addr ≠ p.addr) :
    Inv base start h' L' V := by
  have hb := (hinv.layout.addr_bounds hinv.below (List.mem_append_right _ List.mem_cons_self)).1
  have hsizes : ∀ x ∈ (⟨base, 0⟩ :: L') ++ V, (h'.mem x.addr).size = x.size := by
    intro x hx
    rw [hring] at hx
    by_cases hdown : x ∈ joinDown p c
    · exact hfreed.sizes x hdown
    · obtain ⟨hold, hne⟩ := hrest x (by
        simp only [List.mem_append] at hx ⊢
        tauto)
      rcases hold with rfl | hold
      · rw [hfreed.others base (Nat.ne_of_lt hb) hne]
        exact hinv.base_size
      · rw [hfreed.others _ (hinv.layout.addr_ne hold) hne]
        apply hinv.sizes
        simp only [List.mem_append, List.mem_cons] at hold ⊢
        tauto
  have haddrs : base :: addrs L' = addrs A ++ p.addr :: addrs ((joinDown p c).tail ++ L) := by
    obtain ⟨q, hq, hdown⟩ := joinDown_cons p c
    have hmap := congrArg addrs hring
    rw [hdown, addrs_append] at hmap
    rw [← hq]
    exact hmap
  refine ⟨hinv.below, ?_, ?_, ?_, ?_, fun x hx => hsizes x (List.mem_cons_of_mem _ hx),
    hsizes _ List.mem_cons_self, ?_⟩
  · rw [hfreed.brk]
    exact hinv.start_le
  · rw [hfreed.brk]
    exact hinv.top
  · rw [hfreed.brk]
    exact hlayout
  · show Around h'.next (base :: addrs L')
    rw [haddrs]
    apply Around.rotate
    have hloop := hfreed.loop
    rw [← List.append_assoc, addrs_append] at hloop
    exact hloop
  · rw [hfreed.freep, haddrs]
    exact List.mem_append_right _ List.mem_cons_self

theorem Freed.keeps_inv (hfreed : Freed h p (L₂ ++ A) b c (L ++ A) h')
    (hinv : Inv base start h (L₁ ++ L₂) (b :: V)) (hp : ⟨base, 0⟩ :: L₁ = A ++ [p])
    (hlayout : Layout start h.brk (L₁ ++ c :: L) V) (hsub : L ⊆ L₂) :
    ∃ L', Inv base start h' L' V ∧ ∃ d ∈ L', c.size ≤ d.size := by
  have hbase : ∀ {x}, x ∈ (L₁ ++ c :: L) ++ V → base < x.addr :=
    fun hx => (hlayout.addr_bounds hinv.below hx).1
  cases A with
  | nil =>
    obtain ⟨rfl, rfl⟩ := List.cons.inj hp
    have hgap : (⟨base, 0⟩ : Block).stop ≠ c.addr := by
      have hc := hbase (x := c) (by simp)
      simp only [Block.stop]
      omega
    refine ⟨c :: L, hfreed.inv hinv (by rw [joinDown, if_neg hgap]; rfl) hlayout fun x hx => ?_,
      c, List.mem_cons_self, Nat.le_refl _⟩
    simp only [List.mem_append, List.not_mem_nil, false_or] at hx
    refine ⟨.inr ?_, (Nat.ne_of_lt (hbase ?_)).symm⟩
    · rw [List.mem_append]
      exact hx.imp_left fun hx => hsub hx
    · simp only [List.mem_append, List.mem_cons]
      tauto
  | cons a A =>
    obtain ⟨rfl, rfl⟩ := List.cons.inj hp
    have hpc : Layout start h.brk (A ++ p :: c :: L) V := by
      rw [List.append_cons]
      exact hlayout
    have hrest : ∀ x ∈ ⟨base, 0⟩ :: A ++ L ++ V,
        (x = ⟨base, 0⟩ ∨ x ∈ A ++ [p] ++ L₂ ++ V) ∧ x.addr ≠ p.addr := by
      intro x hx
      rw [List.append_assoc, List.cons_append] at hx
      rcases List.mem_cons.mp hx with rfl | hx
      · exact ⟨.inl rfl, Nat.ne_of_lt (hbase (by simp))⟩
      · refine ⟨.inr ?_, hpc.take.addr_ne ?_⟩
        · have hL := @hsub x
          simp only [List.mem_append] at hx ⊢
          tauto
        · simp only [List.mem_append, List.mem_cons] at hx ⊢
          tauto
    by_cases htouch : p.stop = c.addr
    · refine ⟨A ++ ⟨p.addr, p.size + c.size⟩ :: L, hfreed.inv hinv ?_ (hpc.merge htouch) hrest,
        _, List.mem_append_right _ List.mem_cons_self, Nat.le_add_left _ _⟩
      rw [joinDown, if_pos htouch]
      rfl
    · refine ⟨A ++ p :: c :: L, hfreed.inv hinv ?_ hpc hrest, c, by simp, Nat.le_refl _⟩
      rw [joinDown, if_neg htouch]
      rfl

theorem free_wp {fuel : Nat} (hinv : Inv base start h L (b :: V)) (hfuel : 2 * L.length + 2 ≤ fuel) :
    wp (free fuel (b.addr + 16)) h
      (fun _ h' => ∃ L', Inv base start h' L' V ∧ (∃ c ∈ L', b.size ≤ c.size) ∧ h'.brk = h.brk) E := by
  obtain ⟨L₁, L₂, rfl, hbefore, hafter⟩ := hinv.layout.place
  obtain ⟨A, p, hp⟩ : ∃ A p, (⟨base, 0⟩ : Block) :: L₁ = A ++ [p] :=
    (List.eq_nil_or_concat' _).resolve_left (List.cons_ne_nil _ _)
  have hbmem : b ∈ (L₁ ++ L₂) ++ b :: V := List.mem_append_right _ List.mem_cons_self
  have hpos := (hinv.layout.inside b hbmem).2.1
  have hnodup := hinv.layout.nodup hinv.below
  rw [← (hinv.around hp).1] at hnodup
  have hsearch := freeLoop_wp hinv hbefore hafter hfuel (E := E)
  rw [show (addrs L₁).getLastD base = p.addr from last_addr hp.symm] at hsearch
  have hmore : ¬(L₂ ++ A = [] ∧ b.stop = p.addr) := by
    rintro ⟨-, htouch⟩
    have hlt : p.addr < b.addr := by
      have hpmem : p ∈ (⟨base, 0⟩ : Block) :: L₁ := by
        rw [hp]
        exact List.mem_append_right _ List.mem_cons_self
      rcases List.mem_cons.mp hpmem with rfl | hpmem
      · exact (hinv.layout.addr_bounds hinv.below hbmem).1
      · exact hbefore p hpmem
    unfold Block.stop at htouch
    omega
  apply ((hinv.rim hp).free hpos (not_mem_around hnodup) hmore hsearch).mono _ (fun _ he => he)
  rintro _ h' ⟨c, R, hfreed⟩
  obtain ⟨L, rfl, hlayout, hsub, hsize⟩ := hfreed.layout hinv hp hbefore hafter
  obtain ⟨L', hinv', d, hd, hle⟩ := hfreed.keeps_inv hinv hp hlayout hsub
  exact ⟨L', hinv', ⟨d, hd, Nat.le_trans hsize hle⟩, hfreed.brk⟩

end Join

end Xv6Ringbuf.Umalloc
