import Xv6Ringbuf.User.Canonical
import Xv6Ringbuf.User.FreeList

namespace Xv6Ringbuf.Umalloc

open Machine Linked

section Search

variable {h : Heap} {base bp fuel : Nat} {xs : List Nat} {E : Stop → Prop}

theorem freeLoop_last (a k : Nat) (hwalk : Walk h.next a (xs ++ [base]))
    (hsorted : (a :: xs).Pairwise (· < ·)) (hbase : base ≤ a) (hbp : bp < base)
    (hlt : ∀ x ∈ a :: xs, x < h.brk) :
    wp (freeLoop (xs.length + 1 + k) bp a) h (fun p h' => p = xs.getLastD a ∧ h' = h) E := by
  have habrk := hlt a List.mem_cons_self
  induction xs generalizing a with
  | nil =>
    have hlink : (h.mem a).ptr = base := hwalk.1
    rw [List.length_nil, Nat.zero_add, Nat.add_comm, freeLoop]
    apply wp_bind
    apply load_wp habrk
    rw [hlink, if_neg (by omega), if_pos ⟨hbase, .inr hbp⟩]
    exact wp_pure ⟨rfl, rfl⟩
  | cons x xs ih =>
    obtain ⟨hless, hsorted'⟩ := List.pairwise_cons.mp hsorted
    have hlink : (h.mem a).ptr = x := hwalk.1
    have hax : a < x := hless x List.mem_cons_self
    rw [List.length_cons, Nat.add_right_comm _ 1 1, Nat.add_right_comm _ 1 k, freeLoop]
    apply wp_bind
    apply load_wp habrk
    rw [hlink, if_neg (by omega), if_neg (by omega), List.getLastD_cons]
    exact ih x hwalk.2 hsorted' (by omega) (fun y hy => hlt y (List.mem_cons_of_mem a hy))
      (hlt x (List.mem_cons_of_mem a List.mem_cons_self))

theorem freeLoop_below (hloop : Loop h.next base xs) (hsorted : (base :: xs).Pairwise (· < ·))
    (hlt : ∀ x ∈ base :: xs, x < h.brk) (hbp : bp < base) (hfreep : h.freep ∈ base :: xs)
    (hfuel : xs.length + 1 ≤ fuel) :
    wp (freeLoop fuel bp h.freep) h (fun p h' => p = xs.getLastD base ∧ h' = h) E := by
  obtain ⟨us, vs, rfl, hlast⟩ := exists_getLastD hfreep
  have hmem : ∀ x ∈ h.freep :: vs, x ∈ base :: (us ++ vs) := by
    intro x hx
    rcases List.mem_cons.mp hx with rfl | hx
    · exact hfreep
    · exact List.mem_cons_of_mem base (List.mem_append_right us hx)
  have hbase : base ≤ h.freep := by
    rcases List.mem_cons.mp hfreep with heq | hin
    · omega
    · exact Nat.le_of_lt ((List.pairwise_cons.mp hsorted).1 _ hin)
  rw [List.length_append] at hfuel
  rw [getLastD_append, ← hlast, show fuel = vs.length + 1 + (fuel - (vs.length + 1)) by omega]
  apply freeLoop_last h.freep _ _ _ hbase hbp (fun x hx => hlt x (hmem x hx))
  · rw [hlast]
    exact hloop.rest
  · rw [hlast]
    exact pairwise_from_last hsorted

end Search

section Join

variable {h : Heap} {bp p : Nat} {Q : Unit → Heap → Prop} {E : Stop → Prop}

theorem joinNext_touch (hbp : bp < h.brk) (hp : p < h.brk) (hnext : h.next p < h.brk)
    (htouch : bp + 16 * (h.mem bp).size = h.next p)
    (hQ : Q () (h.set bp
      ⟨h.next (h.next p), ((h.mem bp).size + (h.mem (h.next p)).size) % 2 ^ 32⟩)) :
    wp (joinNext bp p) h Q E := by
  have htouch' : bp + 16 * (h.mem bp).size = (h.mem p).ptr := htouch
  unfold joinNext
  apply wp_bind
  apply load_wp hbp
  apply wp_bind
  apply load_wp hp
  rw [if_pos htouch']
  apply wp_bind
  apply load_wp hnext
  exact store_wp hbp hQ

theorem joinNext_gap (hbp : bp < h.brk) (hp : p < h.brk)
    (hgap : bp + 16 * (h.mem bp).size ≠ h.next p)
    (hQ : Q () (h.set bp ⟨h.next p, (h.mem bp).size⟩)) : wp (joinNext bp p) h Q E := by
  have hgap' : bp + 16 * (h.mem bp).size ≠ (h.mem p).ptr := hgap
  unfold joinNext
  apply wp_bind
  apply load_wp hbp
  apply wp_bind
  apply load_wp hp
  rw [if_neg hgap']
  exact store_wp hbp hQ

theorem joinPrev_touch (hbp : bp < h.brk) (hp : p < h.brk) (htouch : p + 16 * (h.mem p).size = bp)
    (hQ : Q () (h.set p ⟨h.next bp, ((h.mem p).size + (h.mem bp).size) % 2 ^ 32⟩)) :
    wp (joinPrev bp p) h Q E := by
  unfold joinPrev
  apply wp_bind
  apply load_wp hp
  apply wp_bind
  apply load_wp hbp
  rw [if_pos htouch]
  exact store_wp hp hQ

theorem joinPrev_gap (hbp : bp < h.brk) (hp : p < h.brk) (hgap : p + 16 * (h.mem p).size ≠ bp)
    (hQ : Q () (h.set p ⟨bp, (h.mem p).size⟩)) : wp (joinPrev bp p) h Q E := by
  unfold joinPrev
  apply wp_bind
  apply load_wp hp
  apply wp_bind
  apply load_wp hbp
  rw [if_neg hgap]
  exact store_wp hp hQ

end Join

section Rounds

variable {h : Heap} {W R A B : List Block} {b c p : Block} {E : Stop → Prop}

theorem last_addr {a : Block} {M : List Block} (hM : A ++ [p] = a :: M) :
    (addrs M).getLastD a.addr = p.addr := by
  have hlast : (addrs (a :: M)).getLastD 0 = p.addr := by
    rw [← hM, addrs_append, getLastD_append]
    rfl
  rw [addrs, List.map_cons, List.getLastD_cons] at hlast
  exact hlast

theorem not_mem_around (hnodup : (addrs (A ++ p :: B)).Nodup) : p.addr ∉ addrs (B ++ A) := by
  rw [addrs_append] at hnodup
  have hfront := List.perm_middle.nodup_iff.mp hnodup
  rw [addrs_append]
  intro hin
  apply (List.nodup_cons.mp hfront).1
  rcases List.mem_append.mp hin with hin | hin
  · exact List.mem_append_right _ hin
  · exact List.mem_append_left _ hin

theorem joinDown_cons (p c : Block) :
    ∃ q, q.addr = p.addr ∧ joinDown p c = q :: (joinDown p c).tail := by
  rw [joinDown]
  by_cases h : p.stop = c.addr
  · rw [if_pos h]
    exact ⟨⟨p.addr, p.size + c.size⟩, rfl, rfl⟩
  · rw [if_neg h]
    exact ⟨p, rfl, rfl⟩

structure Rim (h : Heap) (p : Block) (W : List Block) (b : Block) : Prop where
  loop : Loop h.next p.addr (addrs W)
  fresh : b.addr ∉ addrs (p :: W)
  sizes : ∀ x ∈ b :: p :: W, (h.mem x.addr).size = x.size
  inside : ∀ x ∈ b :: p :: W, x.ends ≤ h.brk
  memory : h.brk ≤ (PHYSTOP - KERNBASE).toNat

variable {x : Block} {h₁ : Heap}

theorem Rim.lt (hrim : Rim h p W b) (hx : x ∈ b :: p :: W) : x.addr < h.brk := by
  have hinside := hrim.inside x hx
  have hends := addr_lt_ends x
  omega

theorem Rim.size_lt (hrim : Rim h p W b) (hx : x ∈ b :: p :: W) : x.size < 2 ^ 24 := by
  have hinside := hrim.inside x hx
  have hmemory := hrim.memory
  rw [show (PHYSTOP - KERNBASE).toNat = 2 ^ 27 by rfl] at hmemory
  unfold Block.ends at hinside
  omega

-- What `free` has after its first test: `c` is the freed block with what it took in, and
-- leads on to the rest `R` of the ring.
structure Started (h : Heap) (p : Block) (W : List Block) (b c : Block) (R : List Block)
    (h₁ : Heap) : Prop where
  heap : ∃ n, h₁ = h.set b.addr ⟨n, c.size⟩
  addr : c.addr = b.addr
  walk : Walk h₁.next b.addr (addrs R ++ [p.addr])
  cases : (c = b ∧ R = W ∧ b.stop ≠ h.next p.addr) ∨
    ∃ x, W = x :: R ∧ b.stop = x.addr ∧ c = ⟨b.addr, b.size + x.size⟩

theorem Rim.joinNext (hrim : Rim h p W b) (hmore : ¬(W = [] ∧ b.stop = p.addr)) :
    wp (joinNext b.addr p.addr) h (fun _ h₁ => ∃ c R, Started h p W b c R h₁) E := by
  have hsize := hrim.sizes b List.mem_cons_self
  have hb := hrim.lt List.mem_cons_self
  have hp := hrim.lt (List.mem_cons_of_mem b List.mem_cons_self)
  have hfresh : ∀ x ∈ W, x.addr ≠ b.addr := fun x hx heq =>
    hrim.fresh (heq ▸ List.mem_cons_of_mem _ (List.mem_map_of_mem hx))
  by_cases htouch : b.addr + 16 * (h.mem b.addr).size = h.next p.addr
  · cases W with
    | nil =>
      have hlink : h.next p.addr = p.addr := hrim.loop.1
      rw [hlink, hsize] at htouch
      exact absurd ⟨rfl, htouch⟩ hmore
    | cons x W =>
      have hlink : h.next p.addr = x.addr := hrim.loop.1
      have hxmem : x ∈ b :: p :: x :: W :=
        List.mem_cons_of_mem _ (List.mem_cons_of_mem _ List.mem_cons_self)
      have hless : b.size + x.size < 2 ^ 32 := by
        have hbs := hrim.size_lt (List.mem_cons_self (a := b))
        have hxs := hrim.size_lt hxmem
        omega
      apply joinNext_touch hb hp (by rw [hlink]; exact hrim.lt hxmem) htouch
      rw [hlink, hsize, hrim.sizes x hxmem, Nat.mod_eq_of_lt hless]
      rw [hsize, hlink] at htouch
      refine ⟨⟨b.addr, b.size + x.size⟩, W, ⟨_, rfl⟩, rfl, ?_, .inr ⟨x, rfl, htouch, rfl⟩⟩
      have hrest : Walk h.next x.addr (addrs W ++ [p.addr]) := hrim.loop.2
      refine hrest.move (set_next_self h _ ⟨_, _⟩) fun a ha => ?_
      obtain ⟨y, hy, rfl⟩ := List.mem_map.mp ha
      exact set_next_of_ne h _ (hfresh y (List.mem_cons_of_mem x hy))
  · apply joinNext_gap hb hp htouch
    rw [hsize] at htouch ⊢
    refine ⟨b, W, ⟨_, rfl⟩, rfl, ?_, .inl ⟨rfl, rfl, htouch⟩⟩
    refine Walk.move hrim.loop (set_next_self h _ ⟨_, _⟩) fun a ha => ?_
    obtain ⟨y, hy, rfl⟩ := List.mem_map.mp ha
    exact set_next_of_ne h _ (hfresh y hy)

theorem Started.sub (hs : Started h p W b c R h₁) : ∀ x ∈ R, x ∈ W := by
  intro x hx
  rcases hs.cases with ⟨_, rfl, _⟩ | ⟨y, rfl, _⟩
  · exact hx
  · exact List.mem_cons_of_mem y hx

theorem Started.joinPrev (hrim : Rim h p W b) (hnodup : p.addr ∉ addrs W) (hs : Started h p W b c R h₁)
    (hc : c.ends ≤ h.brk) :
    wp (joinPrev b.addr p.addr) h₁ (fun _ h₂ => h₂.brk = h.brk ∧
      Loop h₂.next p.addr (addrs ((joinDown p c).tail ++ R)) ∧
      (∀ x ∈ joinDown p c, (h₂.mem x.addr).size = x.size) ∧
      ∀ a, a ≠ b.addr → a ≠ p.addr → h₂.mem a = h.mem a) E := by
  obtain ⟨n, hheap⟩ := hs.heap
  have hne : p.addr ≠ b.addr := fun heq => hrim.fresh (heq ▸ List.mem_cons_self)
  have hbrk : h₁.brk = h.brk := by rw [hheap]; rfl
  have hmem : ∀ a, a ≠ b.addr → h₁.mem a = h.mem a := fun a ha => by
    rw [hheap]
    exact set_mem_of_ne h _ ha
  have hsize : (h₁.mem b.addr).size = c.size := by rw [hheap, set_mem_self]
  have hpsize : (h₁.mem p.addr).size = p.size := by
    rw [hmem _ hne]
    exact hrim.sizes p (List.mem_cons_of_mem b List.mem_cons_self)
  have hb : b.addr < h₁.brk := by rw [hbrk]; exact hrim.lt List.mem_cons_self
  have hp : p.addr < h₁.brk := by
    rw [hbrk]
    exact hrim.lt (List.mem_cons_of_mem b List.mem_cons_self)
  have hR : ∀ a ∈ addrs R, a ≠ p.addr := by
    intro a ha heq
    obtain ⟨x, hx, rfl⟩ := List.mem_map.mp ha
    exact hnodup (heq ▸ List.mem_map_of_mem (hs.sub x hx))
  by_cases htouch : p.stop = c.addr
  · have hless : p.size + c.size < 2 ^ 32 := by
      have hps := hrim.size_lt (List.mem_cons_of_mem b List.mem_cons_self)
      have hmemory := hrim.memory
      rw [show (PHYSTOP - KERNBASE).toNat = 2 ^ 27 by rfl] at hmemory
      unfold Block.ends at hc
      omega
    have htouch' : p.addr + 16 * (h₁.mem p.addr).size = b.addr := by
      rw [hpsize, ← hs.addr]
      exact htouch
    apply joinPrev_touch hb hp htouch'
    rw [hpsize, hsize, Nat.mod_eq_of_lt hless, joinDown, if_pos htouch]
    refine ⟨hbrk, ?_, ?_, ?_⟩
    · exact hs.walk.move (set_next_self h₁ _ ⟨_, _⟩) fun a ha => set_next_of_ne h₁ _ (hR a ha)
    · intro x hx
      rw [List.mem_singleton.mp hx, set_mem_self]
    · intro a hab hap
      rw [set_mem_of_ne h₁ _ hap, hmem a hab]
  · have hgap : p.addr + 16 * (h₁.mem p.addr).size ≠ b.addr := by
      rw [hpsize, ← hs.addr]
      exact htouch
    apply joinPrev_gap hb hp hgap
    rw [hpsize, joinDown, if_neg htouch]
    refine ⟨hbrk, ?_, ?_, ?_⟩
    · show Walk _ p.addr (c.addr :: (addrs R ++ [p.addr]))
      rw [hs.addr]
      refine ⟨set_next_self h₁ _ _, ?_⟩
      apply hs.walk.move (set_next_of_ne h₁ _ hne.symm)
      exact fun a ha => set_next_of_ne h₁ _ (hR a ha)
    · intro x hx
      rcases List.mem_cons.mp hx with rfl | hx
      · rw [set_mem_self]
      · rw [List.mem_singleton.mp hx, hs.addr, set_mem_of_ne h₁ _ hne.symm, hsize]
    · intro a hab hap
      rw [set_mem_of_ne h₁ _ hap, hmem a hab]

theorem Started.inside (hrim : Rim h p W b) (hpos : 0 < b.size) (hs : Started h p W b c R h₁) :
    c.ends ≤ h.brk := by
  rcases hs.cases with ⟨rfl, _⟩ | ⟨x, rfl, htouch, rfl⟩
  · exact hrim.inside c List.mem_cons_self
  · have hx := hrim.inside x (List.mem_cons_of_mem _ (List.mem_cons_of_mem _ List.mem_cons_self))
    unfold Block.stop at htouch
    unfold Block.ends at hx ⊢
    simp only
    omega

structure Freed (h : Heap) (p : Block) (W : List Block) (b c : Block) (R : List Block)
    (h' : Heap) : Prop where
  brk : h'.brk = h.brk
  freep : h'.freep = p.addr
  loop : Loop h'.next p.addr (addrs ((joinDown p c).tail ++ R))
  sizes : ∀ x ∈ joinDown p c, (h'.mem x.addr).size = x.size
  others : ∀ a, a ≠ b.addr → a ≠ p.addr → h'.mem a = h.mem a
  addr : c.addr = b.addr
  inside : c.ends ≤ h.brk
  cases : (c = b ∧ R = W ∧ b.stop ≠ h.next p.addr) ∨
    ∃ x, W = x :: R ∧ b.stop = x.addr ∧ c = ⟨b.addr, b.size + x.size⟩

theorem Rim.free {fuel : Nat} (hrim : Rim h p W b) (hpos : 0 < b.size) (hnodup : p.addr ∉ addrs W)
    (hmore : ¬(W = [] ∧ b.stop = p.addr))
    (hsearch : wp (freeLoop fuel b.addr h.freep) h (fun a h' => a = p.addr ∧ h' = h) E) :
    wp (free fuel (b.addr + 16)) h (fun _ h' => ∃ c R, Freed h p W b c R h') E := by
  unfold Umalloc.free
  rw [Nat.add_sub_cancel]
  apply wp_get_bind
  refine wp_call hsearch ?_
  rintro _ _ ⟨rfl, rfl⟩
  refine wp_call (hrim.joinNext hmore) ?_
  rintro _ h₁ ⟨c, R, hs⟩
  have hinside := hs.inside hrim hpos
  refine wp_call (hs.joinPrev hrim hnodup hinside) ?_
  rintro _ h₂ ⟨hbrk, hloop, hsizes, hothers⟩
  apply wp_modify
  exact ⟨c, R, hbrk, rfl, hloop, hsizes, hothers, hs.addr, hinside, hs.cases⟩

end Rounds

end Xv6Ringbuf.Umalloc
