import Xv6Ringbuf.User.FreeRim

namespace Xv6Ringbuf.Umalloc

open Machine Linked

section Lists

variable {h h' : Heap} {L W R A B : List Block} {b c p : Block} {E : Stop → Prop}

theorem FreeList.below (hlist : FreeList h L) : L.Pairwise Below :=
  pairwise_below_iff.mpr ⟨hlist.sorted, hlist.disjoint, hlist.separate⟩

theorem FreeList.nodup (hlist : FreeList h L) : (addrs L).Nodup :=
  List.pairwise_map.mpr (hlist.sorted.imp Nat.ne_of_lt)

theorem FreeList.rim (hlist : FreeList h L) (huse : InUse h L b)
    (hloop : Loop h.next p.addr (addrs W)) (hmem : ∀ x ∈ p :: W, x ∈ L) : Rim h p W b := by
  refine ⟨hloop, ?_, ?_, ?_, hlist.memory⟩
  · intro hin
    obtain ⟨x, hx, heq⟩ := List.mem_map.mp hin
    have hb := addr_lt_ends b
    have hx' := addr_lt_ends x
    rcases huse.disjoint x (hmem x hx) with h | h <;> omega
  · intro x hx
    rcases List.mem_cons.mp hx with rfl | hx
    · exact huse.size
    · exact hlist.sizes x (hmem x hx)
  · intro x hx
    rcases List.mem_cons.mp hx with rfl | hx
    · exact huse.inside
    · exact hlist.inside x (hmem x hx)

theorem Freed.freeList (hlist : FreeList h L) (hfreed : Freed h p W b c R h') {L' : List Block}
    (haround : Around h'.next (addrs L')) (hfreep : p.addr ∈ addrs L') (hbelow : L'.Pairwise Below)
    (hmem : ∀ x ∈ L', x ∈ joinDown p c ∨ x ∈ L ∧ x.addr ≠ b.addr ∧ x.addr ≠ p.addr)
    (hinside : ∀ x ∈ joinDown p c, x.ends ≤ h.brk) : FreeList h' L' := by
  obtain ⟨hsorted, hdisjoint, hseparate⟩ := pairwise_below_iff.mp hbelow
  refine ⟨haround, by rw [hfreed.freep]; exact hfreep, ?_, hsorted, hdisjoint, hseparate, ?_, ?_⟩
  · intro x hx
    rcases hmem x hx with hx | ⟨hx, hb, hp⟩
    · exact hfreed.sizes x hx
    · rw [hfreed.others _ hb hp]
      exact hlist.sizes x hx
  · intro x hx
    rw [hfreed.brk]
    rcases hmem x hx with hx | ⟨hx, _⟩
    · exact hinside x hx
    · exact hlist.inside x hx
  · rw [hfreed.brk]
    exact hlist.memory

theorem ends_joinDown {brk : Nat} (hpos : 0 < c.size) (hp : p.ends ≤ brk) (hc : c.ends ≤ brk) :
    ∀ x ∈ joinDown p c, x.ends ≤ brk := by
  intro x hx
  rw [joinDown] at hx
  by_cases htouch : p.stop = c.addr
  · rw [if_pos htouch] at hx
    rw [List.mem_singleton.mp hx]
    unfold Block.stop at htouch
    unfold Block.ends at hc ⊢
    simp only
    omega
  · rw [if_neg htouch] at hx
    rcases List.mem_cons.mp hx with rfl | hx
    · exact hp
    · rw [List.mem_singleton.mp hx]
      exact hc

theorem Freed.size_pos (hpos : 0 < b.size) (hfreed : Freed h p W b c R h') : 0 < c.size := by
  rcases hfreed.cases with ⟨rfl, _⟩ | ⟨x, _, _, rfl⟩
  · exact hpos
  · exact Nat.add_pos_left hpos _

theorem FreeList.free_above (hlist : FreeList h (A ++ p :: B)) (huse : InUse h (A ++ p :: B) b)
    (hA : ∀ x ∈ A ++ [p], x.ends ≤ b.addr) (hB : ∀ y ∈ B, b.ends ≤ y.addr)
    (hfreed : Freed h p (B ++ A) b c R h') :
    FreeList h' (A ++ (joinDown p c ++ (joinUp b B).2)) ∧ c = (joinUp b B).1 := by
  have hbelow := hlist.below
  have hjoint : joinUp b B = (c, (joinUp b B).2) ∧ R = (joinUp b B).2 ++ A := by
    rcases hfreed.cases with ⟨rfl, rfl, hgap⟩ | ⟨x, hW, htouch, rfl⟩
    · have haround : Around h.next (addrs (p :: (B ++ A))) := by
        have hring := hlist.ring
        rw [addrs_append] at hring
        have hrot := hring.rotate
        rw [← addrs_append] at hrot
        exact hrot
      rw [joinUp_of_gap]
      · exact ⟨rfl, rfl⟩
      · intro x hx
        cases B with
        | nil => cases hx
        | cons y B =>
          cases hx
          have hlink : h.next p.addr = x.addr := haround.1
          rw [← hlink]
          exact hgap
    · cases B with
      | nil =>
        -- the next block around is below the freed one
        have hx : x ∈ A := by
          rw [List.nil_append] at hW
          rw [hW]
          exact List.mem_cons_self
        have hxb := hA x (List.mem_append_left _ hx)
        have hxends := addr_lt_ends x
        unfold Block.stop at htouch
        omega
      | cons y B =>
        obtain ⟨rfl, rfl⟩ := List.cons.inj hW
        rw [joinUp_of_touch htouch]
        exact ⟨rfl, rfl⟩
  obtain ⟨hup, hR⟩ := hjoint
  have hc : c = (joinUp b B).1 := by rw [hup]
  have hB' : B.Pairwise Below := (List.pairwise_cons.mp (List.pairwise_append.mp hbelow).2.1).2
  have hAp : (A ++ [p]).Pairwise Below := by
    apply List.Pairwise.sublist _ hbelow
    exact (List.Sublist.refl A).append (List.singleton_sublist.mpr List.mem_cons_self)
  have hjoint := joint_joinUp huse.units huse.inside hB'
    (fun y hy => hlist.inside y (List.mem_append_right A (List.mem_cons_of_mem p hy))) hB
  rw [← hc] at hjoint
  refine ⟨?_, hc⟩
  have hpb : p.ends ≤ b.addr := hA p (List.mem_append_right A List.mem_cons_self)
  have hpos := hfreed.size_pos huse.units
  obtain ⟨q, hq, hdown⟩ := joinDown_cons p c
  have hsplit : addrs (A ++ (joinDown p c ++ (joinUp b B).2)) =
      addrs A ++ (p.addr :: addrs ((joinDown p c).tail ++ (joinUp b B).2)) := by
    rw [hdown, addrs_append]
    show _ ++ (q.addr :: _) = _
    rw [hq]
    rfl
  apply hfreed.freeList hlist
  · rw [hsplit]
    apply Around.rotate
    have hloop := hfreed.loop
    rw [hR, ← List.append_assoc, addrs_append] at hloop
    exact hloop
  · rw [hsplit]
    exact List.mem_append_right _ List.mem_cons_self
  · apply below_joinDown hpos hAp _ hjoint.below
    rw [hjoint.addr]
    exact hpb
  · intro x hx
    rcases List.mem_append.mp hx with hx | hx
    · have hxp := (List.pairwise_append.mp hAp).2.2 x hx p List.mem_cons_self
      have hxb := hA x (List.mem_append_left _ hx)
      have hxends := addr_lt_ends x
      exact .inr ⟨List.mem_append_left _ hx, by omega, by have := hxp.1; omega⟩
    · rcases List.mem_append.mp hx with hx | hx
      · exact .inl hx
      · have hxB := hjoint.sub.subset hx
        have hbx := hB x hxB
        have hbends := addr_lt_ends b
        have hpends := addr_lt_ends p
        exact .inr ⟨List.mem_append_right _ (List.mem_cons_of_mem p hxB), by omega, by omega⟩
  · exact ends_joinDown hpos (hlist.inside p (List.mem_append_right A List.mem_cons_self)) hfreed.inside

theorem FreeList.free_below (hlist : FreeList h (B ++ [p])) (huse : InUse h (B ++ [p]) b)
    (hB : ∀ y ∈ B ++ [p], b.ends ≤ y.addr) (hfreed : Freed h p B b c R h')
    (hmore : ¬(B = [] ∧ b.stop = p.addr)) :
    FreeList h' (c :: (joinUp b (B ++ [p])).2) ∧ c = (joinUp b (B ++ [p])).1 := by
  have hjoint : joinUp b (B ++ [p]) = (c, R ++ [p]) := by
    rcases hfreed.cases with ⟨rfl, rfl, hgap⟩ | ⟨x, rfl, htouch, rfl⟩
    · apply joinUp_of_gap
      intro x hx
      cases R with
      | nil =>
        cases hx
        exact fun htouch => hmore ⟨rfl, htouch⟩
      | cons y R =>
        cases hx
        have haround' : Around h.next (addrs (x :: R) ++ [p.addr]) := by
          have hring := hlist.ring
          rw [addrs_append] at hring
          exact hring
        have hlink : h.next p.addr = x.addr := haround'.rotate.1
        rw [← hlink]
        exact hgap
    · exact joinUp_of_touch htouch
  have hjoined := joint_joinUp huse.units huse.inside hlist.below hlist.inside hB
  rw [hjoint] at hjoined ⊢
  refine ⟨?_, rfl⟩
  have hpos := hfreed.size_pos huse.units
  have hbp := hB p (List.mem_append_right B List.mem_cons_self)
  have hbends := addr_lt_ends b
  have hne : p.stop ≠ c.addr := by
    rw [hfreed.addr]
    unfold Block.stop
    omega
  have hdown : joinDown p c = [p, c] := by rw [joinDown, if_neg hne]
  apply hfreed.freeList hlist
  · have hloop := hfreed.loop
    rw [hdown] at hloop
    have haround : Around h'.next ([p.addr] ++ addrs (c :: R)) := hloop
    have hrot := haround.rotate
    show Around h'.next (addrs ((c :: R) ++ [p]))
    rw [addrs_append]
    exact hrot
  · show p.addr ∈ addrs ((c :: R) ++ [p])
    rw [addrs_append]
    exact List.mem_append_right _ List.mem_cons_self
  · exact hjoined.below
  · intro x hx
    rw [hdown]
    have hx' : x ∈ c :: (R ++ [p]) := hx
    rcases List.mem_cons.mp hx' with rfl | hx'
    · exact .inl (List.mem_cons_of_mem p List.mem_cons_self)
    · rcases List.mem_append.mp hx' with hxR | hxp
      · have hxL := hjoined.sub.subset hx'
        have hbx := hB x hxL
        have hxp : Below x p := (List.pairwise_append.mp (List.pairwise_cons.mp hjoined.below).2).2.2
          x hxR p List.mem_cons_self
        have hxends := addr_lt_ends x
        exact .inr ⟨hxL, by omega, by have := hxp.1; omega⟩
      · rw [List.mem_singleton.mp hxp]
        exact .inl List.mem_cons_self
  · exact ends_joinDown hpos (hlist.inside p (List.mem_append_right B List.mem_cons_self)) hfreed.inside

end Lists

section Free

instance : Std.Symm Disjoint := ⟨fun _ _ => Or.symm⟩

instance : Std.Symm fun b c => ¬Adjacent b c := ⟨fun _ _ hne had => hne (Or.symm had)⟩

variable {h : Heap} {L A B : List Block} {b p : Block} {fuel : Nat} {E : Stop → Prop}

theorem FreeList.search_above (hlist : FreeList h (A ++ p :: B))
    (hA : ∀ x ∈ A ++ [p], x.ends ≤ b.addr) (hB : ∀ y ∈ B, b.ends ≤ y.addr)
    (hfuel : 2 * (A ++ p :: B).length + 2 ≤ fuel) :
    wp (freeLoop fuel b.addr h.freep) h (fun a h' => a = p.addr ∧ h' = h) E := by
  have hL : A ++ p :: B = (A ++ [p]) ++ B := by rw [List.append_assoc, List.singleton_append]
  obtain ⟨a, M, hM⟩ := List.exists_cons_of_ne_nil (show A ++ [p] ≠ [] by simp)
  have haddrs : addrs (A ++ p :: B) = a.addr :: (addrs M ++ addrs B) := by
    rw [hL, hM, addrs_append]
    rfl
  have hlast := last_addr hM
  have hsorted : (addrs (A ++ p :: B)).Pairwise (· < ·) := List.pairwise_map.mpr hlist.sorted
  have hring := hlist.ring
  have hfreep := hlist.freep
  rw [haddrs] at hsorted hring hfreep
  rw [← hlast]
  apply freeLoop_above hring hsorted _ _ _ hfreep
  · have hlen := congrArg List.length haddrs
    rw [addrs, List.length_map, List.length_cons] at hlen
    omega
  · rw [← haddrs]
    intro x hx
    obtain ⟨y, hy, rfl⟩ := List.mem_map.mp hx
    have hin := hlist.inside y hy
    have hends := addr_lt_ends y
    omega
  · intro x hx
    have hx' : x ∈ addrs (A ++ [p]) := by
      rw [hM]
      exact hx
    obtain ⟨y, hy, rfl⟩ := List.mem_map.mp hx'
    have hyb := hA y hy
    have hends := addr_lt_ends y
    omega
  · intro x hx
    obtain ⟨y, hy, rfl⟩ := List.mem_map.mp hx
    have hby := hB y hy
    have hends := addr_lt_ends b
    omega

theorem FreeList.search_below (hlist : FreeList h (B ++ [p])) (hB : ∀ y ∈ B ++ [p], b.ends ≤ y.addr)
    (hfuel : (B ++ [p]).length ≤ fuel) :
    wp (freeLoop fuel b.addr h.freep) h (fun a h' => a = p.addr ∧ h' = h) E := by
  obtain ⟨a, M, hM⟩ := List.exists_cons_of_ne_nil (show B ++ [p] ≠ [] by simp)
  have hlast := last_addr hM
  rw [hM] at hlist hB hfuel
  have hsorted : (addrs (a :: M)).Pairwise (· < ·) := List.pairwise_map.mpr hlist.sorted
  rw [← hlast]
  apply freeLoop_below hlist.ring hsorted _ _ hlist.freep
  · show (addrs M).length + 1 ≤ fuel
    rw [addrs, List.length_map]
    exact hfuel
  · intro x hx
    have hx' : x ∈ addrs (a :: M) := hx
    obtain ⟨y, hy, rfl⟩ := List.mem_map.mp hx'
    have hin := hlist.inside y hy
    have hends := addr_lt_ends y
    omega
  · have hba := hB a List.mem_cons_self
    have hends := addr_lt_ends b
    omega

theorem FreeList.loop_from (hlist : FreeList h (A ++ p :: B)) : Loop h.next p.addr (addrs (B ++ A)) := by
  have hring := hlist.ring
  rw [addrs_append] at hring
  have hrot := hring.rotate
  rw [← addrs_append] at hrot
  exact hrot

theorem FreeList.free (hlist : FreeList h L) (huse : InUse h L b) (hfuel : 2 * L.length + 2 ≤ fuel)
    (hmore : ¬∃ x, L = [x] ∧ b.stop = x.addr) :
    wp (free fuel (b.addr + 16)) h
      (fun _ h' => ∃ L', FreeList h' L' ∧ units L' = units L ∪ units [b]) E := by
  obtain ⟨A, B, rfl, hA, hB⟩ := exists_place hlist.below huse.disjoint
  rcases List.eq_nil_or_concat' A with rfl | ⟨A, p, rfl⟩
  · rw [List.nil_append] at hlist huse hfuel hmore ⊢
    rcases List.eq_nil_or_concat' B with rfl | ⟨B, p, rfl⟩
    · exact hlist.ring.elim
    · have hmore' : ¬(B = [] ∧ b.stop = p.addr) := by
        rintro ⟨rfl, htouch⟩
        exact hmore ⟨p, rfl, htouch⟩
      have hrim : Rim h p B b := by
        apply hlist.rim huse
        · have hloop := hlist.loop_from
          rw [List.nil_append] at hloop
          exact hloop
        · intro x hx
          rcases List.mem_cons.mp hx with rfl | hx
          · exact List.mem_append_right B List.mem_cons_self
          · exact List.mem_append_left _ hx
      have hnodup := not_mem_around hlist.nodup
      rw [List.nil_append] at hnodup
      apply (hrim.free huse.units hnodup hmore' (hlist.search_below hB (by omega))).mono _ (fun _ he => he)
      rintro _ h' ⟨c, R, hfreed⟩
      obtain ⟨hlist', hc⟩ := hlist.free_below huse hB hfreed hmore'
      refine ⟨_, hlist', ?_⟩
      have hjoint := joint_joinUp huse.units huse.inside hlist.below hlist.inside hB
      rw [hc, hjoint.units, units_cons, units_cons, Set.union_comm]
      simp [units]
  · have hL : (A ++ [p]) ++ B = A ++ p :: B := by rw [List.append_assoc, List.singleton_append]
    rw [hL] at hlist huse hfuel hmore ⊢
    have hmore' : ¬(B ++ A = [] ∧ b.stop = p.addr) := by
      rintro ⟨_, htouch⟩
      have hpb := hA p (List.mem_append_right A List.mem_cons_self)
      have hends := addr_lt_ends p
      unfold Block.stop at htouch
      omega
    have hrim : Rim h p (B ++ A) b := by
      apply hlist.rim huse hlist.loop_from
      intro x hx
      rcases List.mem_cons.mp hx with rfl | hx
      · exact List.mem_append_right A List.mem_cons_self
      · rcases List.mem_append.mp hx with hx | hx
        · exact List.mem_append_right A (List.mem_cons_of_mem p hx)
        · exact List.mem_append_left _ hx
    have hsearch := hlist.search_above hA hB hfuel (E := E)
    apply (hrim.free huse.units (not_mem_around hlist.nodup) hmore' hsearch).mono _ (fun _ he => he)
    rintro _ h' ⟨c, R, hfreed⟩
    obtain ⟨hlist', hc⟩ := hlist.free_above huse hA hB hfreed
    refine ⟨_, hlist', ?_⟩
    have hB' : B.Pairwise Below :=
      (List.pairwise_cons.mp (List.pairwise_append.mp hlist.below).2.1).2
    have hjoint := joint_joinUp huse.units huse.inside hB'
      (fun y hy => hlist.inside y (List.mem_append_right A (List.mem_cons_of_mem p hy))) hB
    have hunits : units (joinDown p c ++ (joinUp b B).2) = p.units ∪ units (b :: B) := by
      rw [units_append, units_joinDown, units_cons, Set.union_assoc, ← hjoint.units, ← hc,
        ← units_append, List.singleton_append]
    rw [units_append, hunits, units_append, units_cons, units_cons, units_cons]
    ext a
    simp only [Set.mem_union, units, List.not_mem_nil, false_and, exists_false, Set.ofPred_false,
      Set.union_empty]
    tauto

theorem FreeList.free_single {x : Block} (hlist : FreeList h [x]) (huse : InUse h [x] b)
    (htouch : b.stop = x.addr) (hfuel : 1 ≤ fuel) :
    wp (Umalloc.free fuel (b.addr + 16)) h (fun _ h' =>
      h' = { (h.set b.addr ⟨x.addr, b.size + x.size⟩).set x.addr ⟨b.addr, x.size⟩ with
        freep := x.addr } ∧ ∀ L', ¬FreeList h' L') E := by
  have hbends := ends_eq_stop huse.units
  have hb := addr_lt_ends b
  have hx := addr_lt_ends x
  have hbin := huse.inside
  have hxin := hlist.inside x List.mem_cons_self
  have hsearch : wp (freeLoop fuel b.addr h.freep) h (fun a h' => a = x.addr ∧ h' = h) E := by
    apply FreeList.search_below (B := []) hlist _ hfuel
    intro y hy
    rw [List.mem_singleton.mp hy]
    omega
  have hself : h.next x.addr = x.addr := hlist.ring.1
  have hsize : (h.mem b.addr).size = b.size := huse.size
  have hxsize := hlist.sizes x List.mem_cons_self
  have hless : b.size + x.size < 2 ^ 32 := by
    have hmemory := hlist.memory
    rw [show (PHYSTOP - KERNBASE).toNat = 2 ^ 27 by rfl] at hmemory
    unfold Block.ends at hbin hxin
    omega
  have hne : x.addr ≠ b.addr := by omega
  have htouch' : b.addr + 16 * (h.mem b.addr).size = h.next x.addr := by
    rw [hself, hsize]
    exact htouch
  unfold Umalloc.free
  rw [Nat.add_sub_cancel]
  apply wp_get_bind
  refine wp_call hsearch ?_
  rintro _ h₁ ⟨rfl, heq⟩
  rw [heq]
  apply wp_bind
  apply joinNext_touch (by omega) (by omega) (by rw [hself]; omega) htouch'
  rw [hself, hself, hsize, hxsize, Nat.mod_eq_of_lt hless]
  generalize hjoined : h.set b.addr _ = h₂
  have hbrk : h₂.brk = h.brk := by rw [← hjoined]; rfl
  have hxmem : h₂.mem x.addr = h.mem x.addr := by rw [← hjoined, set_mem_of_ne h _ hne]
  apply wp_bind
  apply joinPrev_gap (by omega) (by omega) (by rw [hxmem]; omega)
  apply wp_modify
  rw [hxmem, hxsize]
  refine ⟨rfl, fun L' hlist' => ?_⟩
  -- the list has both blocks, the lower one with all the units
  have hxin' : x.addr ∈ addrs L' := hlist'.freep
  have hbin' : b.addr ∈ addrs L' := by
    have hnext := hlist'.ring.next_mem hxin'
    rw [Heap.next, set_mem_self] at hnext
    exact hnext
  obtain ⟨x', hx', hxaddr⟩ := List.mem_map.mp hxin'
  obtain ⟨b', hb', hbaddr⟩ := List.mem_map.mp hbin'
  have hbsize := hlist'.sizes b' hb'
  rw [hbaddr] at hbsize
  have hbsize' : b'.size = b.size + x.size := by
    rw [← hbsize]
    show ((Heap.set _ _ _).mem b.addr).size = _
    rw [set_mem_of_ne _ _ (Ne.symm hne), ← hjoined, set_mem_self]
  have hdiff : b' ≠ x' := fun heq => hne (by rw [← hxaddr, ← hbaddr, heq])
  have hdisjoint := hlist'.disjoint.forall hb' hx' hdiff
  have hseparate := hlist'.separate.forall hb' hx' hdiff
  apply hseparate
  unfold Disjoint Block.ends at hdisjoint
  unfold Block.stop at htouch
  left
  unfold Block.stop
  omega

end Free

-- The freed block joins the list, unless the list is a single block that it touches from below.
theorem free_keeps_list_canonical_iff (h : Heap) (L : List Block) (b : Block) (fuel : Nat)
    (hlist : FreeList h L) (huse : InUse h L b) (hfuel : 2 * L.length + 2 ≤ fuel) :
    ∃ h', (free fuel (b.addr + 16)).run h = .ok ((), h') ∧
      ((∃ L', FreeList h' L' ∧ units L' = units L ∪ units [b]) ↔ ¬∃ x, L = [x] ∧ b.stop = x.addr) := by
  by_cases hsingle : ∃ x, L = [x] ∧ b.stop = x.addr
  · obtain ⟨x, rfl, htouch⟩ := hsingle
    have hfuel' : 1 ≤ fuel := by omega
    obtain ⟨_, h', hrun, _, hnot⟩ := (hlist.free_single huse htouch hfuel').returns
    exact ⟨h', hrun, fun ⟨L', hlist', _⟩ => absurd hlist' (hnot L'), fun h => absurd ⟨x, rfl, htouch⟩ h⟩
  · obtain ⟨_, h', hrun, hkept⟩ := (hlist.free huse hfuel hsingle).returns
    exact ⟨h', hrun, fun _ => hsingle, fun _ => hkept⟩

def baseAndOne : Heap where
  mem a := if a = 16 then ⟨64, 0⟩ else if a = 64 then ⟨16, 1⟩ else ⟨0, 2⟩
  freep := 64
  brk := 4096
  grants := []

theorem free_keeps_list_canonical_between :
    ∃ h', (free 6 48).run baseAndOne = .ok ((), h') ∧
      ∃ L', FreeList h' L' ∧ units L' = units [⟨16, 0⟩, ⟨64, 1⟩] ∪ units [⟨32, 2⟩] := by
  have hlist : FreeList baseAndOne [⟨16, 0⟩, ⟨64, 1⟩] := by
    refine ⟨⟨rfl, rfl, trivial⟩, ?_, ?_, ?_, ?_, ?_, ?_, by decide⟩ <;>
      simp [baseAndOne, addrs, Disjoint, Adjacent, Block.ends, Block.stop]
  have huse : InUse baseAndOne [⟨16, 0⟩, ⟨64, 1⟩] ⟨32, 2⟩ := by
    refine ⟨by decide, rfl, by decide, ?_⟩
    simp [Disjoint, Block.ends]
  obtain ⟨h', hrun, hiff⟩ :=
    free_keeps_list_canonical_iff baseAndOne _ ⟨32, 2⟩ 6 hlist huse (by decide)
  refine ⟨h', hrun, hiff.mpr ?_⟩
  rintro ⟨x, heq, _⟩
  cases heq

def oneBlock : Heap where
  mem a := if a = 64 then ⟨64, 1⟩ else ⟨0, 1⟩
  freep := 64
  brk := 4096
  grants := []

-- Both blocks are on the list, the lower one with the units of the other.
theorem free_overlaps_single_block :
    FreeList oneBlock [⟨64, 1⟩] ∧ InUse oneBlock [⟨64, 1⟩] ⟨48, 1⟩ ∧
      (free 4 64).run oneBlock = .ok ((), (oneBlock.set 48 ⟨64, 2⟩).set 64 ⟨48, 1⟩) ∧
        ∀ L', ¬FreeList ((oneBlock.set 48 ⟨64, 2⟩).set 64 ⟨48, 1⟩) L' := by
  have hlist : FreeList oneBlock [⟨64, 1⟩] := by
    refine ⟨⟨rfl, trivial⟩, ?_, ?_, ?_, ?_, ?_, ?_, by decide⟩ <;>
      simp [oneBlock, addrs, Block.ends]
  have huse : InUse oneBlock [⟨64, 1⟩] ⟨48, 1⟩ := by
    refine ⟨by decide, rfl, by decide, ?_⟩
    simp [Disjoint, Block.ends]
  have hfuel : 1 ≤ 4 := by decide
  obtain ⟨_, h', hrun, rfl, hnot⟩ := (hlist.free_single huse rfl hfuel).returns
  exact ⟨hlist, huse, hrun, hnot⟩

end Xv6Ringbuf.Umalloc
