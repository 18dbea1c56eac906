import Xv6Ringbuf.Linked
import Xv6Ringbuf.User.Blocks

namespace Xv6Ringbuf.Umalloc

open Machine Linked Function

def Heap.next (h : Heap) (a : Nat) : Nat := (h.mem a).ptr

def Heap.set (h : Heap) (a : Nat) (x : Header) : Heap :=
  { h with mem := update h.mem a x }

def addrs (L : List Block) : List Nat := L.map Block.addr

theorem le_PGROUNDUP (sz : Nat) : sz ≤ PGROUNDUP sz := by
  rw [PGROUNDUP, toNat_PGSIZE]
  omega

section Access

variable {h : Heap} {a : Nat} {E : Stop → Prop}

theorem load_wp {Q : Header → Heap → Prop} (ha : a < h.brk) (hQ : Q (h.mem a) h) :
    wp (load a) h Q E := by
  apply wp_get_bind
  rw [if_pos (Nat.lt_of_lt_of_le ha (le_PGROUNDUP h.brk))]
  exact hQ

theorem store_wp {x : Header} {Q : Unit → Heap → Prop} (ha : a < h.brk) (hQ : Q () (h.set a x)) :
    wp (store a x) h Q E := by
  apply wp_get_bind
  rw [if_pos (Nat.lt_of_lt_of_le ha (le_PGROUNDUP h.brk))]
  exact hQ

theorem set_mem_self (h : Heap) (a : Nat) (x : Header) : (h.set a x).mem a = x := by
  simp only [Heap.set, update_self]

theorem set_mem_of_ne (h : Heap) {a a' : Nat} (x : Header) (hne : a' ≠ a) :
    (h.set a x).mem a' = h.mem a' := by
  simp only [Heap.set, update_of_ne hne]

theorem set_next_of_ne (h : Heap) {a a' : Nat} (x : Header) (hne : a' ≠ a) :
    (h.set a x).next a' = h.next a' := by
  rw [Heap.next, set_mem_of_ne h x hne, Heap.next]

theorem set_next_self (h : Heap) (a : Nat) (x : Header) : (h.set a x).next a = x.ptr := by
  rw [Heap.next, set_mem_self]

end Access

variable {h : Heap} {base bp : Nat} {E : Stop → Prop}

theorem freeLoop_forward (xs ys : List Nat) (a k : Nat) (hwalk : Walk h.next a (xs ++ (ys ++ [base])))
    (hsorted : (a :: xs).Pairwise (· < ·)) (hbase : base ≤ a) (ha : ∀ x ∈ a :: xs, x < bp ∧ x < h.brk)
    (hys : ∀ y ∈ ys, bp < y) :
    wp (freeLoop (xs.length + 1 + k) bp a) h (fun p h' => p = xs.getLastD a ∧ h' = h) E := by
  obtain ⟨habp, habrk⟩ := ha a List.mem_cons_self
  induction xs generalizing a with
  | nil =>
    rw [List.length_nil, Nat.zero_add, Nat.add_comm, freeLoop]
    apply wp_bind
    apply load_wp habrk
    cases ys with
    | nil =>
      have hlink : (h.mem a).ptr = base := hwalk.1
      rw [hlink, if_neg (by omega), if_pos ⟨hbase, .inl habp⟩]
      exact wp_pure ⟨rfl, rfl⟩
    | cons y ys =>
      have hlink : (h.mem a).ptr = y := hwalk.1
      rw [hlink, if_pos ⟨habp, hys y List.mem_cons_self⟩]
      exact wp_pure ⟨rfl, rfl⟩
  | cons x xs ih =>
    obtain ⟨hless, hsorted'⟩ := List.pairwise_cons.mp hsorted
    have hlink : (h.mem a).ptr = x := hwalk.1
    have hax : a < x := hless x List.mem_cons_self
    obtain ⟨hxbp, hxbrk⟩ := ha x (List.mem_cons_of_mem a List.mem_cons_self)
    rw [List.length_cons, Nat.add_right_comm _ 1 1, Nat.add_right_comm _ 1 k, freeLoop]
    apply wp_bind
    apply load_wp habrk
    rw [hlink, if_neg (by omega), if_neg (by omega), List.getLastD_cons]
    exact ih x hwalk.2 hsorted' (by omega) (fun z hz => ha z (List.mem_cons_of_mem a hz)) hxbp hxbrk

theorem freeLoop_around {Q : Nat → Heap → Prop} (xs : List Nat) (a k : Nat)
    (hwalk : Walk h.next a (xs ++ [base])) (hsorted : (a :: xs).Pairwise (· < ·)) (hbase : base < bp)
    (ha : ∀ x ∈ a :: xs, bp < x ∧ x < h.brk) (hnext : wp (freeLoop k bp base) h Q E) :
    wp (freeLoop (xs.length + 1 + k) bp a) h Q E := by
  obtain ⟨habp, habrk⟩ := ha a List.mem_cons_self
  induction xs generalizing a with
  | nil =>
    have hlink : (h.mem a).ptr = base := hwalk.1
    rw [List.length_nil, Nat.zero_add, Nat.add_comm, freeLoop]
    apply wp_bind
    apply load_wp habrk
    rw [hlink, if_neg (by omega), if_neg (by omega)]
    exact hnext
  | cons x xs ih =>
    obtain ⟨hless, hsorted'⟩ := List.pairwise_cons.mp hsorted
    have hlink : (h.mem a).ptr = x := hwalk.1
    have hax : a < x := hless x List.mem_cons_self
    obtain ⟨hxbp, hxbrk⟩ := ha x (List.mem_cons_of_mem a List.mem_cons_self)
    rw [List.length_cons, Nat.add_right_comm _ 1 1, Nat.add_right_comm _ 1 k, freeLoop]
    apply wp_bind
    apply load_wp habrk
    rw [hlink, if_neg (by omega), if_neg (by omega)]
    exact ih x hwalk.2 hsorted' (fun z hz => ha z (List.mem_cons_of_mem a hz)) hxbp hxbrk

-- The list that the memory holds: free blocks `L` behind `base`, blocks `V` in use.
structure Inv (base start : Nat) (h : Heap) (L V : List Block) : Prop where
  below : base + 16 ≤ start
  start_le : start ≤ h.brk
  top : h.brk ≤ 2 ^ 27
  layout : Layout start h.brk L V
  loop : Loop h.next base (addrs L)
  sizes : ∀ b ∈ L ++ V, (h.mem b.addr).size = b.size
  base_size : (h.mem base).size = 0
  freep : h.freep ∈ base :: addrs L

section Nodes

variable {base start brk : Nat} {L V : List Block}

theorem Layout.addr_bounds (h : Layout start brk L V) (hbelow : base + 16 ≤ start) {b : Block}
    (hb : b ∈ L ++ V) : base < b.addr ∧ b.addr < brk := by
  obtain ⟨hlow, hpos, hstop⟩ := h.inside b hb
  simp only [Block.stop] at hstop
  omega

theorem Layout.sorted (h : Layout start brk L V) (hbelow : base + 16 ≤ start) :
    (base :: addrs L).Pairwise (· < ·) := by
  refine List.pairwise_cons.mpr ⟨?_, List.pairwise_map.mpr h.order⟩
  intro x hx
  obtain ⟨b, hb, rfl⟩ := List.mem_map.mp hx
  exact (h.addr_bounds hbelow (List.mem_append_left V hb)).1

theorem Layout.nodup (h : Layout start brk L V) (hbelow : base + 16 ≤ start) :
    (base :: addrs L).Nodup :=
  (h.sorted hbelow).imp Nat.ne_of_lt

theorem Layout.node_lt (h : Layout start brk L V) (hbelow : base + 16 ≤ start) (hstart : start ≤ brk)
    {x : Nat} (hx : x ∈ base :: addrs L) : x < brk := by
  rcases List.mem_cons.mp hx with rfl | hx
  · omega
  · obtain ⟨b, hb, rfl⟩ := List.mem_map.mp hx
    exact (h.addr_bounds hbelow (List.mem_append_left V hb)).2

theorem Layout.addr_ne {b c : Block} (h : Layout start brk L (c :: V)) (hb : b ∈ L ++ V) :
    b.addr ≠ c.addr := by
  have hapart : Apart c b :=
    (List.pairwise_cons.mp ((List.perm_middle.pairwise_iff Apart.symm).mp h.apart)).1 b hb
  have hc := h.inside c (List.mem_append_right L List.mem_cons_self)
  have hb' := h.inside b (by
    rcases List.mem_append.mp hb with hb | hb
    · exact List.mem_append_left _ hb
    · exact List.mem_append_right L (List.mem_cons_of_mem c hb))
  simp only [Apart, Block.stop] at *
  omega

end Nodes

theorem addrs_append (L₁ L₂ : List Block) : addrs (L₁ ++ L₂) = addrs L₁ ++ addrs L₂ :=
  List.map_append

theorem pairwise_from_last {R : Nat → Nat → Prop} {a : Nat} {xs ys : List Nat}
    (h : (a :: (xs ++ ys)).Pairwise R) : (xs.getLastD a :: ys).Pairwise R := by
  induction xs generalizing a with
  | nil => exact h
  | cons x xs ih =>
    rw [List.getLastD_cons]
    exact ih (List.pairwise_cons.mp h).2

theorem Layout.place {start brk : Nat} {L V : List Block} {b : Block}
    (h : Layout start brk L (b :: V)) :
    ∃ L₁ L₂, L = L₁ ++ L₂ ∧ (∀ x ∈ L₁, x.addr < b.addr) ∧ ∀ x ∈ L₂, b.addr < x.addr := by
  have hne : ∀ x ∈ L, x.addr ≠ b.addr := fun x hx => h.addr_ne (List.mem_append_left V hx)
  have horder := h.order
  clear h
  induction L with
  | nil => exact ⟨[], [], rfl, fun _ hx => absurd hx List.not_mem_nil, fun _ hx => absurd hx List.not_mem_nil⟩
  | cons c L ih =>
    obtain ⟨hfirst, horder'⟩ := List.pairwise_cons.mp horder
    have hc : c.addr ≠ b.addr := hne c List.mem_cons_self
    by_cases hlt : c.addr < b.addr
    · obtain ⟨L₁, L₂, rfl, hbefore, hafter⟩ :=
        ih (fun x hx => hne x (List.mem_cons_of_mem c hx)) horder'
      refine ⟨c :: L₁, L₂, rfl, ?_, hafter⟩
      intro x hx
      rcases List.mem_cons.mp hx with rfl | hx
      · exact hlt
      · exact hbefore x hx
    · refine ⟨[], c :: L, rfl, fun _ hx => absurd hx List.not_mem_nil, ?_⟩
      intro x hx
      rcases List.mem_cons.mp hx with rfl | hx
      · omega
      · have hcx := hfirst x hx
        omega

section Free

variable {base start bp fuel : Nat} {h : Heap} {xs ys : List Nat} {L₁ L₂ V : List Block} {b : Block}
  {E : Stop → Prop}

theorem freeLoop_above (hloop : Loop h.next base (xs ++ ys))
    (hsorted : (base :: (xs ++ ys)).Pairwise (· < ·)) (hlt : ∀ x ∈ base :: (xs ++ ys), x < h.brk)
    (hxs : ∀ x ∈ base :: xs, x < bp) (hys : ∀ y ∈ ys, bp < y) (hfreep : h.freep ∈ base :: (xs ++ ys))
    (hfuel : 2 * (xs ++ ys).length + 2 ≤ fuel) :
    wp (freeLoop fuel bp h.freep) h (fun p h' => p = xs.getLastD base ∧ h' = h) E := by
  have hfront : ∀ x ∈ base :: xs, x < bp ∧ x < h.brk := by
    intro x hx
    refine ⟨hxs x hx, hlt x ?_⟩
    rw [← List.cons_append]
    exact List.mem_append_left _ hx
  have hlen : xs.length + ys.length = (xs ++ ys).length := List.length_append.symm
  have hsorted₁ : (base :: xs).Pairwise (· < ·) := by
    rw [← List.cons_append] at hsorted
    exact (List.pairwise_append.mp hsorted).1
  -- from the base it is a search forward
  have hforward : ∀ k, xs.length + 1 ≤ k → wp (freeLoop k bp base) h
      (fun p h' => p = xs.getLastD base ∧ h' = h) E := by
    intro k hk
    rw [show k = xs.length + 1 + (k - (xs.length + 1)) by omega]
    apply freeLoop_forward xs ys base _ _ hsorted₁ (Nat.le_refl base) hfront hys
    rw [Loop, List.append_assoc] at hloop
    exact hloop
  obtain ⟨us, vs, hsplit, hlast⟩ := exists_getLastD hfreep
  have hrest : Walk h.next h.freep (vs ++ [base]) := by
    rw [hsplit] at hloop
    rw [hlast]
    exact hloop.rest
  have hsorted' : (h.freep :: vs).Pairwise (· < ·) := by
    rw [hlast]
    exact pairwise_from_last (hsplit ▸ hsorted)
  have hlen' : us.length + vs.length = (xs ++ ys).length := by
    rw [← List.length_append, hsplit]
  have hfreep_le : base ≤ h.freep := by
    rcases List.mem_cons.mp hfreep with heq | hmem
    · omega
    · exact Nat.le_of_lt ((List.pairwise_cons.mp hsorted).1 _ hmem)
  have hnear : ∀ zs, xs = us ++ zs → vs = zs ++ ys → wp (freeLoop fuel bp h.freep) h
      (fun p h' => p = xs.getLastD base ∧ h' = h) E := by
    intro zs hus hvs
    have hmem : ∀ x ∈ h.freep :: zs, x ∈ base :: xs := by
      intro x hx
      rcases List.mem_cons.mp hx with rfl | hx
      · rw [hlast, hus, ← List.cons_append]
        exact List.mem_append_left zs (getLastD_mem base us)
      · rw [hus]
        exact List.mem_cons_of_mem base (List.mem_append_right us hx)
    have hend : xs.getLastD base = zs.getLastD h.freep := by
      rw [hus, getLastD_append, hlast]
    have hlen₁ : xs.length = us.length + zs.length := by rw [hus, List.length_append]
    rw [hvs] at hsorted' hrest
    rw [hend, show fuel = zs.length + 1 + (fuel - (zs.length + 1)) by omega]
    apply freeLoop_forward zs ys h.freep
    · rw [List.append_assoc] at hrest
      exact hrest
    · rw [← List.cons_append] at hsorted'
      exact (List.pairwise_append.mp hsorted').1
    · exact hfreep_le
    · exact fun x hx => hfront x (hmem x hx)
    · exact hys
  rcases List.append_eq_append_iff.mp hsplit.symm with ⟨zs, hus, hvs⟩ | ⟨zs, hus, hvs⟩
  · exact hnear zs hus hvs
  · cases zs with
    | nil => exact hnear [] (by rw [hus, List.append_nil, List.append_nil]) hvs.symm
    | cons z zs =>
      -- `freep` is behind the place
      have hmem : h.freep ∈ ys := by
        rw [hlast, hus, getLastD_append, List.getLastD_cons, hvs]
        exact List.mem_append_left vs (getLastD_mem z zs)
      rw [show fuel = vs.length + 1 + (fuel - (vs.length + 1)) by omega]
      apply freeLoop_around vs h.freep _ hrest hsorted' (hxs base List.mem_cons_self)
      · intro x hx
        have hxys : x ∈ ys := by
          rcases List.mem_cons.mp hx with rfl | hx
          · exact hmem
          · rw [hvs]
            exact List.mem_append_right _ hx
        exact ⟨hys x hxys, hlt x (List.mem_cons_of_mem base (List.mem_append_right _ hxys))⟩
      · apply hforward
        omega

theorem freeLoop_wp (hinv : Inv base start h (L₁ ++ L₂) (b :: V))
    (hbefore : ∀ x ∈ L₁, x.addr < b.addr) (hafter : ∀ x ∈ L₂, b.addr < x.addr)
    (hfuel : 2 * (L₁ ++ L₂).length + 2 ≤ fuel) :
    wp (freeLoop fuel b.addr h.freep) h
      (fun p h' => p = (addrs L₁).getLastD base ∧ h' = h) E := by
  have hsorted := hinv.layout.sorted hinv.below
  have hlt : ∀ x ∈ base :: addrs (L₁ ++ L₂), x < h.brk :=
    fun x hx => hinv.layout.node_lt hinv.below hinv.start_le hx
  have hloop := hinv.loop
  have hfreep := hinv.freep
  rw [addrs_append] at hloop hsorted hlt hfreep
  apply freeLoop_above hloop hsorted hlt _ _ hfreep
  · rw [← addrs_append, addrs, List.length_map]
    exact hfuel
  · intro x hx
    rcases List.mem_cons.mp hx with rfl | hx
    · exact (hinv.layout.addr_bounds hinv.below (List.mem_append_right _ List.mem_cons_self)).1
    · obtain ⟨c, hc, rfl⟩ := List.mem_map.mp hx
      exact hbefore c hc
  · intro y hy
    obtain ⟨c, hc, rfl⟩ := List.mem_map.mp hy
    exact hafter c hc

end Free

end Xv6Ringbuf.Umalloc
