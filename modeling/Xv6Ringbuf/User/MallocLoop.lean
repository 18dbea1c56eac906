import Xv6Ringbuf.User.MallocSpec

namespace Xv6Ringbuf.Umalloc

open Machine Linked

section Carve

variable {base start units : Nat} {h : Heap} {L₁ L₂ V : List Block} {c : Block} {E : Stop → Prop}

theorem Inv.unlink (hinv : Inv base start h (L₁ ++ c :: L₂) V) :
    Inv base start
      { h.set ((addrs L₁).getLastD base)
          { h.mem ((addrs L₁).getLastD base) with ptr := (h.mem c.addr).ptr } with
        freep := (addrs L₁).getLastD base } (L₁ ++ L₂) (c :: V) := by
  have hnodup := hinv.layout.nodup hinv.below
  rw [addrs_append, ← List.cons_append] at hnodup
  obtain ⟨hnodup₁, _, hcross⟩ := List.nodup_append.mp hnodup
  have hlast := getLastD_mem base (addrs L₁)
  have hback := hinv.back
  generalize hp : (addrs L₁).getLastD base = p at *
  have hsizes : ∀ a, ((h.set p { h.mem p with ptr := (h.mem c.addr).ptr }).mem a).size =
      (h.mem a).size := by
    intro a
    by_cases heq : a = p
    · rw [heq, set_mem_self]
    · rw [set_mem_of_ne h _ heq]
  refine ⟨hinv.below, hinv.start_le, hinv.top, hinv.layout.take, ?_, ?_, ?_, ?_⟩
  · have hloop := hinv.loop
    rw [addrs_append] at hloop
    show Loop (h.set p { h.mem p with ptr := (h.mem c.addr).ptr }).next base (addrs (L₁ ++ L₂))
    rw [addrs_append]
    apply hloop.splice hnodup₁
    · intro a _ ha
      rw [hp] at ha
      exact set_next_of_ne h _ ha
    · rw [hp]
      apply Walk.move hback.2
      · exact set_next_self h p _
      · intro a ha
        exact set_next_of_ne h _ (hcross p hlast a (List.mem_cons_of_mem _ ha)).symm
  · intro b hb
    refine (hsizes b.addr).trans (hinv.sizes b ?_)
    exact ((perm_front L₁ L₂ V c).trans List.perm_middle.symm).mem_iff.mpr hb
  · exact (hsizes base).trans hinv.base_size
  · rw [addrs_append, ← List.cons_append]
    exact List.mem_append_left _ hlast

theorem Inv.cut (hinv : Inv base start h (L₁ ++ c :: L₂) V) (hunits : 0 < units)
    (hless : units < c.size) (y : Header) :
    Inv base start
      { (h.set c.addr { h.mem c.addr with size := c.size - units }).set
          (c.addr + 16 * (c.size - units)) { y with size := units } with
        freep := (addrs L₁).getLastD base }
      (L₁ ++ ⟨c.addr, c.size - units⟩ :: L₂) (⟨c.addr + 16 * (c.size - units), units⟩ :: V) := by
  have hlayout := hinv.layout.split hunits hless
  have hfreed : ∀ b ∈ (L₁ ++ (⟨c.addr, c.size - units⟩ : Block) :: L₂) ++ V,
      b.addr ≠ c.addr + 16 * (c.size - units) := fun b hb => hlayout.addr_ne hb
  have hothers : ∀ b ∈ L₁ ++ L₂ ++ V, b.addr ≠ c.addr := by
    intro b hb
    exact hinv.layout.take.addr_ne hb
  have hc := hinv.layout.addr_bounds hinv.below
    (List.mem_append_left V (List.mem_append_right L₁ List.mem_cons_self))
  have hnext : ∀ a, a ≠ c.addr + 16 * (c.size - units) →
      ((h.set c.addr { h.mem c.addr with size := c.size - units }).set
        (c.addr + 16 * (c.size - units)) { y with size := units }).next a = h.next a := by
    intro a ha
    rw [set_next_of_ne _ _ ha]
    by_cases heq : a = c.addr
    · rw [heq, set_next_self, Heap.next]
    · exact set_next_of_ne h _ heq
  have haddrs : addrs (L₁ ++ ⟨c.addr, c.size - units⟩ :: L₂) = addrs (L₁ ++ c :: L₂) := by
    rw [addrs_append, addrs_append]
    rfl
  refine ⟨hinv.below, hinv.start_le, hinv.top, hlayout, ?_, ?_, ?_, ?_⟩
  · rw [haddrs]
    apply hinv.loop.congr
    intro a ha
    apply hnext
    rw [← haddrs] at ha
    rcases List.mem_cons.mp ha with rfl | ha
    · omega
    · obtain ⟨b, hb, rfl⟩ := List.mem_map.mp ha
      exact hfreed b (List.mem_append_left V hb)
  · intro b hb
    show (((h.set c.addr _).set (c.addr + 16 * (c.size - units)) _).mem b.addr).size = b.size
    rcases List.mem_cons.mp (List.perm_middle.mem_iff.mp hb) with rfl | hb
    · rw [set_mem_self]
    · rw [set_mem_of_ne _ _ (hfreed b hb)]
      rcases List.mem_cons.mp ((perm_front L₁ L₂ V _).mem_iff.mp hb) with rfl | hb
      · rw [set_mem_self]
      · rw [set_mem_of_ne h _ (hothers b hb)]
        exact hinv.sizes b ((perm_front L₁ L₂ V c).mem_iff.mpr (List.mem_cons_of_mem c hb))
  · show (((h.set c.addr _).set (c.addr + 16 * (c.size - units)) _).mem base).size = 0
    rw [set_mem_of_ne _ _ (by omega), set_mem_of_ne h _ (by omega)]
    exact hinv.base_size
  · rw [addrs_append, ← List.cons_append]
    exact List.mem_append_left _ (getLastD_mem base (addrs L₁))

theorem carve_wp (hinv : Inv base start h (L₁ ++ c :: L₂) V) (hunits : 0 < units)
    (hle : units ≤ c.size) :
    wp (carve units ((addrs L₁).getLastD base) c.addr (h.mem c.addr)) h
      (fun q h' => ∃ L, Inv base start { h' with freep := (addrs L₁).getLastD base } L
        (⟨q, units⟩ :: V)) E := by
  have hcmem : c ∈ (L₁ ++ c :: L₂) ++ V :=
    List.mem_append_left V (List.mem_append_right L₁ List.mem_cons_self)
  have hc := hinv.layout.addr_bounds hinv.below hcmem
  have hstop := (hinv.layout.inside c hcmem).2.2
  have hp : (addrs L₁).getLastD base < h.brk := by
    apply hinv.layout.node_lt hinv.below hinv.start_le
    rw [addrs_append, ← List.cons_append]
    exact List.mem_append_left _ (getLastD_mem base (addrs L₁))
  have hsize := hinv.sizes c hcmem
  unfold carve
  by_cases hexact : (h.mem c.addr).size = units
  · rw [if_pos hexact]
    apply wp_bind
    apply load_wp hp
    apply wp_bind
    apply store_wp hp
    apply wp_pure
    refine ⟨L₁ ++ L₂, ?_⟩
    rw [show (⟨c.addr, units⟩ : Block) = c by rw [← hexact, hsize]]
    exact hinv.unlink
  · rw [if_neg hexact, hsize]
    rw [hsize] at hexact
    simp only [Block.stop] at hstop
    have hend : c.addr + 16 * (c.size - units) < h.brk := by omega
    apply wp_bind
    apply store_wp hc.2
    apply wp_bind
    refine load_wp hend ?_
    apply wp_bind
    refine store_wp hend ?_
    apply wp_pure
    exact ⟨_, hinv.cut hunits (by omega) _⟩

end Carve

section Search

variable {base start fuel units : Nat} {h : Heap} {L V : List Block} {E : Stop → Prop}

-- What `malloc` leaves: nothing has been taken, or a block of the right size.
def Taken (base start units : Nat) (V : List Block) (q : Nat) (h : Heap) : Prop :=
  (q = 0 ∧ ∃ L, Inv base start h L V) ∨
    ∃ L addr, q = addr + 16 ∧ Inv base start h L (⟨addr, units⟩ :: V)

theorem Inv.successor (hinv : Inv base start h L V) {a : Nat} (ha : a ∈ base :: addrs L) :
    h.next a = base ∨
      ∃ L₁ c L₂, L = L₁ ++ c :: L₂ ∧ a = (addrs L₁).getLastD base ∧ h.next a = c.addr := by
  obtain ⟨xs, ys, hsplit, hlast⟩ := exists_getLastD ha
  obtain ⟨L₁, L₂, rfl, rfl, rfl⟩ := List.map_eq_append_iff.mp hsplit
  have hback := hinv.back
  cases L₂ with
  | nil =>
    left
    rw [hlast]
    exact hback.1
  | cons c L₂ =>
    right
    refine ⟨L₁, c, L₂, rfl, hlast, ?_⟩
    rw [hlast]
    exact hback.1

theorem mallocLoop_found (hinv : Inv base start h L V) (hunits : 0 < units) {k prevp v : Nat}
    (hlink : h.next prevp = v) (hprev : prevp ∈ base :: addrs L) (hv : v < h.brk)
    (hsize : units ≤ (h.mem v).size) :
    wp (mallocLoop fuel units (k + 1) prevp v) h (Taken base start units V) E := by
  rw [mallocLoop]
  apply wp_bind
  apply load_wp hv
  rw [if_pos hsize]
  rcases hinv.successor hprev with hbase | ⟨L₁, c, L₂, rfl, rfl, hc⟩
  · -- the base has no units
    rw [← hlink, hbase, hinv.base_size] at hsize
    omega
  · obtain rfl : v = c.addr := hlink.symm.trans hc
    have hcmem : c ∈ (L₁ ++ c :: L₂) ++ V :=
      List.mem_append_left V (List.mem_append_right L₁ List.mem_cons_self)
    rw [hinv.sizes c hcmem] at hsize
    refine wp_call (carve_wp hinv hunits hsize) ?_
    rintro q h₁ ⟨L', hinv'⟩
    apply wp_modify_bind
    apply wp_pure
    exact .inr ⟨L', q, rfl, hinv'⟩

theorem mallocLoop_scan (hinv : Inv base start h L V) (hunits : 0 < units) {k : Nat} (vs : List Nat)
    (v prevp : Nat) (hwalk : Walk h.next prevp (v :: vs))
    (hnodes : ∀ x ∈ prevp :: v :: vs, x ∈ base :: addrs L) (hnodup : (v :: vs).Nodup)
    (hlast : vs.getLastD v = h.freep)
    (hnone : (∀ x ∈ v :: vs, (h.mem x).size < units) →
      wp (do
        let p ← morecore fuel units
        if p = 0 then pure 0
        else do
          let y ← load p
          mallocLoop fuel units k p y.ptr) h (Taken base start units V) E) :
    wp (mallocLoop fuel units (k + vs.length + 1) prevp v) h (Taken base start units V) E := by
  have hprev : prevp ∈ base :: addrs L := hnodes prevp List.mem_cons_self
  have hv : v < h.brk := hinv.layout.node_lt hinv.below hinv.start_le
    (hnodes v (List.mem_cons_of_mem prevp List.mem_cons_self))
  by_cases hsize : units ≤ (h.mem v).size
  · exact mallocLoop_found hinv hunits hwalk.1 hprev hv hsize
  induction vs generalizing v prevp with
  | nil =>
    rw [List.length_nil, Nat.add_zero, mallocLoop]
    apply wp_bind
    apply load_wp hv
    rw [if_neg hsize]
    apply wp_get_bind
    rw [if_pos (show v = h.freep from hlast)]
    apply hnone
    intro x hx
    rw [List.mem_singleton.mp hx]
    omega
  | cons w vs ih =>
    obtain ⟨hnot, hnodup'⟩ := List.nodup_cons.mp hnodup
    rw [List.getLastD_cons] at hlast
    have hne : v ≠ h.freep := by
      intro heq
      exact hnot (heq ▸ hlast ▸ getLastD_mem w vs)
    have hlink : (h.mem v).ptr = w := hwalk.2.1
    have hw : w < h.brk := hinv.layout.node_lt hinv.below hinv.start_le
      (hnodes w (List.mem_cons_of_mem _ (List.mem_cons_of_mem _ List.mem_cons_self)))
    have hvnode : v ∈ base :: addrs L := hnodes v (List.mem_cons_of_mem prevp List.mem_cons_self)
    rw [List.length_cons, mallocLoop]
    apply wp_bind
    apply load_wp hv
    rw [if_neg hsize]
    apply wp_get_bind
    rw [if_neg hne, hlink]
    by_cases hsize' : units ≤ (h.mem w).size
    · exact mallocLoop_found hinv hunits hlink hvnode hw hsize'
    · apply ih w v hwalk.2 (fun x hx => hnodes x (List.mem_cons_of_mem prevp hx)) hnodup' hlast _
        hvnode hw hsize'
      intro hsmall
      apply hnone
      intro x hx
      rcases List.mem_cons.mp hx with rfl | hx
      · omega
      · exact hsmall x hx

theorem mallocLoop_round (hinv : Inv base start h L V) (hunits : 0 < units) {k : Nat}
    (hnone : (∀ c ∈ L, c.size < units) →
      wp (do
        let p ← morecore fuel units
        if p = 0 then pure 0
        else do
          let y ← load p
          mallocLoop fuel units k p y.ptr) h (Taken base start units V) E) :
    wp (mallocLoop fuel units (k + L.length + 1) h.freep (h.next h.freep)) h
      (Taken base start units V) E := by
  obtain ⟨xs, ys, hsplit, hfreep⟩ := exists_getLastD hinv.freep
  have hloop := hinv.loop
  rw [hsplit] at hloop
  have hround := hloop.round
  rw [← hfreep] at hround
  have hperm : (ys ++ base :: xs).Perm (base :: addrs L) := by
    rw [hsplit]
    exact List.perm_middle.trans (List.perm_append_comm.cons base)
  have hlen : (ys ++ base :: xs).length = L.length + 1 := by
    rw [hperm.length_eq, List.length_cons, addrs, List.length_map]
  have hend : (ys ++ base :: xs).getLastD h.freep = h.freep := by
    rw [getLastD_append, List.getLastD_cons, ← hfreep]
  have hmem : ∀ x ∈ ys ++ base :: xs, x ∈ base :: addrs L := fun x hx => hperm.mem_iff.mp hx
  have hnodup : (ys ++ base :: xs).Nodup :=
    hperm.nodup_iff.mpr (hinv.layout.nodup hinv.below)
  have hsmall : (∀ x ∈ ys ++ base :: xs, (h.mem x).size < units) → ∀ c ∈ L, c.size < units := by
    intro hall c hc
    rw [← hinv.sizes c (List.mem_append_left V hc)]
    exact hall c.addr (hperm.mem_iff.mpr (List.mem_cons_of_mem base (List.mem_map_of_mem hc)))
  generalize ys ++ base :: xs = vs at hround hperm hlen hend hmem hnodup hsmall
  cases vs with
  | nil => cases hlen
  | cons v vs =>
    rw [List.length_cons] at hlen
    rw [List.getLastD_cons] at hend
    rw [show k + L.length + 1 = k + vs.length + 1 by omega, hround.1]
    apply mallocLoop_scan hinv hunits vs v h.freep hround _ hnodup hend
    · exact fun hall => hnone (hsmall hall)
    · intro x hx
      rcases List.mem_cons.mp hx with rfl | hx
      · exact hinv.freep
      · exact hmem x hx

theorem Inv.length_le (hinv : Inv base start h L V) : L.length ≤ 2 ^ 23 := by
  have hlen := hinv.layout.length_le hinv.start_le
  have htop := hinv.top
  omega

theorem mallocLoop_wp (hpos : 0 < base) (hinv : Inv base start h L V) (hunits : 0 < units)
    (hless : request units * 16 < 2 ^ 31) (hfuel : 2 ^ 25 ≤ fuel) :
    wp (mallocLoop fuel units fuel h.freep (h.next h.freep)) h (Taken base start units V) E := by
  have hlen := hinv.length_le
  rw [show mallocLoop fuel units fuel =
    mallocLoop fuel units (fuel - (L.length + 1) + L.length + 1) by congr 1; omega]
  apply mallocLoop_round hinv hunits
  intro _
  refine wp_call (morecore_wp hpos hinv hless (by omega)) ?_
  rintro p h₁ (⟨rfl, hinv₁⟩ | ⟨hne, rfl, L', hinv', c, hc, hsize⟩)
  · rw [if_pos rfl]
    exact wp_pure (.inl ⟨rfl, L, hinv₁⟩)
  · have hlen' := hinv'.length_le
    rw [if_neg hne]
    apply wp_bind
    apply load_wp (hinv'.layout.node_lt hinv'.below hinv'.start_le hinv'.freep)
    rw [show mallocLoop fuel units (fuel - (L.length + 1)) =
      mallocLoop fuel units (fuel - (L.length + 1) - (L'.length + 1) + L'.length + 1) by congr 1; omega]
    apply mallocLoop_round hinv' hunits
    intro hsmall
    have hlt := hsmall c hc
    omega

end Search

end Xv6Ringbuf.Umalloc
