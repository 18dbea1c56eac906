import Xv6Ringbuf.User.FreeJoin

namespace Xv6Ringbuf.Umalloc

open Machine Linked

section More

variable {base start fuel : Nat} {h : Heap} {L V : List Block} {E : Stop → Prop}

theorem Inv.congr (hinv : Inv base start h L V) {h' : Heap}
    (hsame : ∀ a, a = base ∨ (∃ b ∈ L ++ V, b.addr = a) → h'.mem a = h.mem a)
    (hbrk : h'.brk = h.brk) (hfreep : h'.freep = h.freep) : Inv base start h' L V where
  below := hinv.below
  start_le := hbrk ▸ hinv.start_le
  top := hbrk ▸ hinv.top
  layout := hbrk ▸ hinv.layout
  loop := by
    apply hinv.loop.congr
    intro x hx
    have hx' : x = base ∨ ∃ b ∈ L ++ V, b.addr = x := by
      rcases List.mem_cons.mp hx with rfl | hx
      · exact .inl rfl
      · obtain ⟨b, hb, rfl⟩ := List.mem_map.mp hx
        exact .inr ⟨b, List.mem_append_left V hb, rfl⟩
    rw [Heap.next, Heap.next, hsame x hx']
  sizes b hb := by
    rw [hsame b.addr (.inr ⟨b, hb, rfl⟩)]
    exact hinv.sizes b hb
  base_size := by
    rw [hsame base (.inl rfl)]
    exact hinv.base_size
  freep := hfreep ▸ hinv.freep

theorem Inv.extend (hinv : Inv base start h L V) {size : Nat} (hsize : 0 < size)
    (htop : h.brk + 16 * size ≤ 2 ^ 27) (x : Header) (hx : x.size = size) :
    Inv base start ((h.grow (h.brk + 16 * size)).set h.brk x) L (⟨h.brk, size⟩ :: V) := by
  have hold : ∀ a, a < h.brk → ((h.grow (h.brk + 16 * size)).set h.brk x).mem a = h.mem a := by
    intro a ha
    have hround := le_PGROUNDUP h.brk
    rw [set_mem_of_ne _ x (Nat.ne_of_lt ha)]
    exact if_neg (by omega)
  have hbase : base < h.brk := by
    have hbelow := hinv.below
    have hstart := hinv.start_le
    omega
  refine ⟨hinv.below, Nat.le_trans hinv.start_le (Nat.le_add_right _ _), htop,
    hinv.layout.extend hinv.start_le hsize, ?_, ?_, ?_, hinv.freep⟩
  · apply hinv.loop.congr
    intro a ha
    have hlt := hinv.layout.node_lt hinv.below hinv.start_le ha
    rw [Heap.next, hold a hlt, Heap.next]
  · intro b hb
    rcases List.mem_cons.mp (List.perm_middle.mem_iff.mp hb) with rfl | hb
    · simp only [set_mem_self]
      exact hx
    · rw [hold b.addr (hinv.layout.addr_bounds hinv.below hb).2]
      exact hinv.sizes b hb
  · rw [hold base hbase]
    exact hinv.base_size

theorem request_toInt {units : Nat} (h : units * 16 < 2 ^ 31) :
    (BitVec.ofNat 32 (units * 16)).toInt = (units * 16 : Nat) := by
  rw [BitVec.toInt_eq_toNat_of_lt, BitVec.toNat_ofNat, Nat.mod_eq_of_lt (by omega)]
  rw [BitVec.toNat_ofNat, Nat.mod_eq_of_lt (by omega)]
  omega

theorem request_pos (nu : Nat) : 0 < request nu ∧ nu ≤ request nu := by
  unfold request
  split
  · omega
  · omega

theorem sbrk_wp {size : Nat} (hsize : 0 < size) :
    wp (sbrk (size * 16 : Nat)) h
      (fun r h' => ∃ grants, (r = none ∧ h' = { h with grants := grants }) ∨
        (r = some h.brk ∧ h.brk + 16 * size ≤ 2 ^ 27 ∧
          h' = ({ h with grants := grants } : Heap).grow (h.brk + 16 * size))) E := by
  unfold sbrk
  apply wp_get_bind
  rw [if_pos (by omega)]
  apply wp_bind
  unfold granted
  apply wp_get_bind
  apply wp_modify_bind
  apply wp_pure
  have hbytes : ((size * 16 : Nat) : Int).toNat = 16 * size := by
    rw [Int.toNat_natCast, Nat.mul_comm]
  rw [hbytes]
  by_cases hok : h.grants.headD false = true ∧ h.brk + 16 * size ≤ (PHYSTOP - KERNBASE).toNat
  · rw [if_pos hok]
    apply wp_modify_bind
    apply wp_pure
    exact ⟨_, .inr ⟨rfl, hok.2, rfl⟩⟩
  · rw [if_neg hok]
    apply wp_pure
    exact ⟨_, .inl ⟨rfl, rfl⟩⟩

theorem morecore_wp (hpos : 0 < base) (hinv : Inv base start h L V) {nu : Nat}
    (hnu : request nu * 16 < 2 ^ 31) (hfuel : 2 * L.length + 2 ≤ fuel) :
    wp (morecore fuel nu) h
      (fun p h' => (p = 0 ∧ Inv base start h' L V) ∨
        (p ≠ 0 ∧ p = h'.freep ∧ ∃ L', Inv base start h' L' V ∧ ∃ c ∈ L', nu ≤ c.size)) E := by
  obtain ⟨hrequest, hle⟩ := request_pos nu
  unfold morecore
  rw [request_toInt hnu]
  refine wp_call (sbrk_wp hrequest) ?_
  rintro r h₁ ⟨grants, ⟨rfl, rfl⟩ | ⟨rfl, htop, rfl⟩⟩
  · exact wp_pure (.inl ⟨rfl, hinv.congr (fun _ _ => rfl) rfl rfl⟩)
  · have hgranted : Inv base start { h with grants := grants } L V :=
      hinv.congr (fun _ _ => rfl) rfl rfl
    have hnew : h.brk < h.brk + 16 * request nu := by omega
    simp only
    apply wp_bind
    apply load_wp hnew
    apply wp_bind
    apply store_wp hnew
    refine wp_call (free_wp (hgranted.extend hrequest htop _ rfl) hfuel) ?_
    rintro _ h₂ ⟨L', hinv', ⟨c, hc, hsize⟩, _⟩
    apply wp_get_bind
    apply wp_pure
    refine .inr ⟨?_, rfl, L', hinv', c, hc, Nat.le_trans hle hsize⟩
    rcases List.mem_cons.mp hinv'.freep with heq | hmem
    · omega
    · have hfirst := (List.pairwise_cons.mp (hinv'.layout.sorted hinv'.below)).1 _ hmem
      omega

end More

end Xv6Ringbuf.Umalloc
