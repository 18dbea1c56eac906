import Xv6Ringbuf.Kernel.OpenRing

namespace Xv6Ringbuf.Kernel

open Machine Function

-- The physical address at which `unmap_ringbuf` reads the user's cell.
def cell (pt : Pagetable) (addr : UInt64) : UInt64 := pt.walkaddr addr + addr % 4096

def Readable (pa : UInt64) : Prop := KERNBASE ≤ pa ∧ pa ≤ PHYSTOP - 8

def wordBytes (pa : UInt64) : List UInt64 := (List.range 8).map fun i => pa + UInt64.ofNat i

theorem loadWord_wp (pa : UInt64) (s : State) :
    wp (loadWord pa) s
      (fun r s' => Readable pa ∧ r = wordAt s.mem pa ∧
        s' = { s with reads := s.reads ++ wordBytes pa })
      (fun _ => ¬Readable pa) := by
  unfold loadWord
  by_cases h : pa < KERNBASE ∨ PHYSTOP - 8 < pa
  · rw [if_pos h]
    apply wp_throw
    rintro ⟨hlow, hhigh⟩
    rcases h with h | h
    · exact absurd hlow (UInt64.not_le.mpr h)
    · exact absurd hhigh (UInt64.not_le.mpr h)
  · rw [if_neg h]
    rw [not_or, UInt64.not_lt, UInt64.not_lt] at h
    exact ⟨h, rfl, rfl⟩

theorem validatePages_wp (va : UInt64) (s : State) :
    wp (validatePages va) s
      (fun r s' => s' = s ∧ r = if s.pagetable.walkaddr va = 0 then -1 else 0)
      (fun _ => False) := by
  unfold validatePages
  apply wp_bind
  apply walkaddr_wp
  by_cases h : s.pagetable.walkaddr va = 0
  · rw [if_pos h]
    exact ⟨rfl, (if_pos h).symm⟩
  · rw [if_neg h]
    exact ⟨rfl, (if_neg h).symm⟩

def unmapRing (leaf : Nat → Option Pte) (n : Nat) : Nat → Option Pte :=
  fun m => if m ≤ n ∧ n < m + 33 then none else leaf m

-- The user's base address is one from which `unmap_ringbuf` can unmap a ring.
structure Unmappable [Image] (leaf : Nat → Option Pte) (va : UInt64) : Prop where
  mod : va.toNat % 4096 = 0
  le : 31 ≤ vpn va
  removable : ∀ m, m ≤ vpn va → vpn va < m + 33 → Removable false (leaf m)

-- The 32 data pages are unmapped upward from the lowest one, then the book page.
def unmapPages [Image] (va : UInt64) : K Unit := do
  uvmunmap (va - UInt64.ofNat (2 * RINGBUF_SIZE - 1) * PGSIZE) (UInt64.ofNat (2 * RINGBUF_SIZE)) false
  uvmunmap (va - UInt64.ofNat (2 * RINGBUF_SIZE - 1) * PGSIZE - PGSIZE) 1 false

structure RingUnmapped (s s' : State) (n : Nat) : Prop where
  frame : Frame s s'
  leaf : s'.pagetable.leaf = unmapRing s.pagetable.leaf n
  freelist : s'.freelist = s.freelist
  mem : s'.mem = s.mem

theorem At.pred {va : UInt64} {n : Nat} (h : At va (n + 1)) : At (va - PGSIZE) n := by
  have heq := h.eq
  have hlt := h.lt
  have hle : PGSIZE ≤ va := by
    rw [UInt64.le_iff_toNat_le, toNat_PGSIZE]
    omega
  refine ⟨?_, by omega⟩
  rw [UInt64.toNat_sub_of_le _ _ hle, toNat_PGSIZE]
  omega

section Unmap

variable [Image] {va : UInt64} {n : Nat} (s : State)

theorem unmapPages_high (hva : At va n) (hn : 32 ≤ n) :
    wp (unmapPages va) s (fun _ s' => Unmappable s.pagetable.leaf va ∧ RingUnmapped s s' n)
      (fun _ => ¬Unmappable s.pagetable.leaf va) := by
  have hlow := hva.sub (show 31 ≤ n by omega)
  have hbook : At (va - UInt64.ofNat 31 * PGSIZE - PGSIZE) (n - 32) := by
    apply At.pred
    rwa [show n - 32 + 1 = n - 31 by omega]
  have hlowEq := hlow.eq
  have hbookEq := hbook.eq
  have hlt := hva.lt
  unfold unmapPages
  apply wp_bind
  apply (uvmunmap_wp false _ 32 hlow.aligned.mod (by omega) s).mono
  · rintro _ s₁ ⟨hall, hunmapped⟩
    rw [hlow.vpn] at hall hunmapped
    have hfree := hunmapped.free rfl
    have hleaf : s₁.pagetable.leaf (n - 32) = s.pagetable.leaf (n - 32) := by
      rw [hunmapped.leaf]
      simp only
      rw [if_neg (by omega)]
    apply (uvmunmap_wp false _ 1 hbook.aligned.mod (by omega) s₁).mono
    · rintro _ s' ⟨hall', hunmapped'⟩
      rw [hbook.vpn] at hall' hunmapped'
      have hfree' := hunmapped'.free rfl
      refine ⟨⟨hva.aligned.mod, by rw [hva.vpn]; omega, ?_⟩, ?_⟩
      · rw [hva.vpn]
        intro m hm hm'
        by_cases heq : m = n - 32
        · rw [heq, ← hleaf]
          exact hall' (n - 32) (Nat.le_refl _) (by omega)
        · exact hall m (by omega) (by omega)
      · refine ⟨hunmapped.frame.trans hunmapped'.frame, ?_, hfree'.1.trans hfree.1,
          hfree'.2.trans hfree.2⟩
        rw [hunmapped'.leaf, hunmapped.leaf]
        funext m
        simp only [unmapRing]
        by_cases hrange : m ≤ n ∧ n < m + 33
        · rw [if_pos hrange]
          by_cases heq : m = n - 32
          · rw [if_pos (by omega)]
          · rw [if_neg (by omega), if_pos (by omega)]
        · rw [if_neg hrange, if_neg (by omega), if_neg (by omega)]
    · rintro e ⟨⟨m, hm, hm', hbad⟩, -⟩ hok
      rw [hbook.vpn] at hm hm'
      obtain rfl : m = n - 32 := by omega
      rw [hleaf] at hbad
      exact hbad (hok.removable _ (by rw [hva.vpn]; omega) (by rw [hva.vpn]; omega))
  · rintro e ⟨⟨m, hm, hm', hbad⟩, -⟩ hok
    rw [hlow.vpn] at hm hm'
    exact hbad (hok.removable m (by rw [hva.vpn]; omega) (by rw [hva.vpn]; omega))

-- For the ring with its lowest data page at address 0 the book page would be
-- behind the end of the address space: the second loop ends before its first round.
theorem unmapPages_corner (hva : At va 31) :
    wp (unmapPages va) s (fun _ s' => Unmappable s.pagetable.leaf va ∧ RingUnmapped s s' 31)
      (fun _ => ¬Unmappable s.pagetable.leaf va) := by
  have hlow := hva.sub (Nat.le_refl 31)
  have hzero : va - UInt64.ofNat 31 * PGSIZE = 0 := UInt64.toNat_inj.mp hlow.eq
  unfold unmapPages
  apply wp_bind
  apply (uvmunmap_wp false _ 32 hlow.aligned.mod (by rw [hlow.eq]; decide) s).mono
  · rintro _ s₁ ⟨hall, hunmapped⟩
    rw [hlow.vpn] at hall hunmapped
    have hfree := hunmapped.free rfl
    have hnone : uvmunmap (0 - PGSIZE) 1 false = (pure () : K Unit) := by
      unfold uvmunmap
      rw [if_neg (by decide)]
      rfl
    change wp (uvmunmap (va - UInt64.ofNat 31 * PGSIZE - PGSIZE) 1 false) s₁ _ _
    rw [hzero, hnone]
    refine ⟨⟨hva.aligned.mod, by rw [hva.vpn], ?_⟩, hunmapped.frame, ?_, hfree.1, hfree.2⟩
    · rw [hva.vpn]
      intro m hm _
      exact hall m (by omega) (by omega)
    · rw [hunmapped.leaf]
      funext m
      simp only [unmapRing]
      by_cases hrange : m ≤ 31 ∧ 31 < m + 33
      · rw [if_pos hrange, if_pos (by omega)]
      · rw [if_neg hrange, if_neg (by omega)]
  · rintro e ⟨⟨m, hm, hm', hbad⟩, -⟩ hok
    rw [hlow.vpn] at hm hm'
    exact hbad (hok.removable m (by rw [hva.vpn]; omega) (by rw [hva.vpn]; omega))

-- From a base below page 31 the addresses wrap around: the first loop ends at
-- once and the second one calls `walk` for an address above `MAXVA`.
theorem unmapPages_low (hva : At va n) (hn : n < 31) :
    wp (unmapPages va) s (fun _ _ => False) (fun _ => ¬Unmappable s.pagetable.leaf va) := by
  have heq := hva.eq
  have hbad : ¬Unmappable s.pagetable.leaf va := by
    intro hok
    have hle := hok.le
    rw [hva.vpn] at hle
    omega
  have hoff : (UInt64.ofNat 31 * PGSIZE).toNat = 4096 * 31 := by rfl
  have hlow : (va - UInt64.ofNat 31 * PGSIZE).toNat = 2 ^ 64 + 4096 * n - 4096 * 31 := by
    rw [UInt64.toNat_sub, hoff]
    omega
  have hstop : (va - UInt64.ofNat 31 * PGSIZE + UInt64.ofNat 32 * PGSIZE).toNat =
      4096 * (n + 1) := by
    rw [UInt64.toNat_add, hlow, show (UInt64.ofNat 32 * PGSIZE).toNat = 4096 * 32 by rfl]
    omega
  have hbook : (va - UInt64.ofNat 31 * PGSIZE - PGSIZE).toNat = 2 ^ 64 + 4096 * n - 4096 * 32 := by
    rw [UInt64.toNat_sub, hlow, toNat_PGSIZE]
    omega
  have hbookStop : va - UInt64.ofNat 31 * PGSIZE - PGSIZE + 1 * PGSIZE =
      va - UInt64.ofNat 31 * PGSIZE := by
    rw [UInt64.one_mul, UInt64.sub_add_cancel]
  have hskip : unmapLoop (va - UInt64.ofNat 31 * PGSIZE + UInt64.ofNat 32 * PGSIZE) false 32
      (va - UInt64.ofNat 31 * PGSIZE) = (pure () : K Unit) := by
    rw [unmapLoop, if_neg]
    rw [UInt64.lt_iff_toNat_lt]
    omega
  unfold unmapPages
  apply wp_bind
  unfold uvmunmap
  split
  · exact wp_throw hbad
  · change wp (unmapLoop (va - UInt64.ofNat 31 * PGSIZE + UInt64.ofNat 32 * PGSIZE) false 32
      (va - UInt64.ofNat 31 * PGSIZE)) s _ _
    rw [hskip]
    apply wp_pure
    split
    · exact wp_throw hbad
    · change wp (unmapLoop (va - UInt64.ofNat 31 * PGSIZE - PGSIZE + 1 * PGSIZE) false (0 + 1)
        (va - UInt64.ofNat 31 * PGSIZE - PGSIZE)) s _ _
      rw [unmapLoop, if_pos]
      · apply wp_bind
        unfold walk
        rw [if_pos]
        · exact wp_throw hbad
        · rw [UInt64.le_iff_toNat_le, hbook, toNat_MAXVA]
          omega
      · rw [hbookStop, UInt64.lt_iff_toNat_lt, hbook, hlow]
        omega

theorem unmapPages_wp (hva : va < MAXVA) :
    wp (unmapPages va) s
      (fun _ s' => Unmappable s.pagetable.leaf va ∧ RingUnmapped s s' (vpn va))
      (fun _ => ¬Unmappable s.pagetable.leaf va) := by
  by_cases hmod : va.toNat % 4096 = 0
  · have hat : At va (vpn va) := by
      refine ⟨?_, vpn_lt hva⟩
      unfold vpn
      omega
    rcases Nat.lt_trichotomy (vpn va) 31 with hlt | heq | hgt
    · exact (unmapPages_low s hat hlt).mono (fun _ _ h => h.elim) (fun _ h => h)
    · rw [heq] at hat ⊢
      exact unmapPages_corner s hat
    · exact unmapPages_high s hat hgt
  · unfold unmapPages
    apply wp_bind
    apply uvmunmap_misaligned
    · have hlt := va.toNat_lt
      rw [UInt64.toNat_sub, show (UInt64.ofNat (2 * RINGBUF_SIZE - 1) * PGSIZE).toNat = 4096 * 31 by rfl]
      omega
    · exact fun hok => hmod hok.mod

end Unmap

theorem kfreeAll_wp [Image] (pages : List UInt64) (s : State) :
    wp (kfreeAll pages) s
      (fun _ s' => (∀ pa ∈ pages, ValidPage pa) ∧ Frame s s' ∧ s'.pagetable = s.pagetable ∧
        s'.freelist = pages.reverse ++ s.freelist)
      (fun _ => ¬∀ pa ∈ pages, ValidPage pa) := by
  induction pages generalizing s with
  | nil => exact ⟨by simp, Frame.refl s, rfl, rfl⟩
  | cons pa rest ih =>
    rw [kfreeAll]
    apply wp_bind
    apply (kfree_wp pa s).mono
    · rintro _ s₁ ⟨hvalid, hframe, hpt, hfree⟩
      apply (ih s₁).mono
      · rintro _ s' ⟨hall, hframe', hpt', hfree'⟩
        refine ⟨?_, hframe.trans hframe', hpt'.trans hpt, ?_⟩
        · rw [List.forall_mem_cons]
          exact ⟨hvalid, hall⟩
        · rw [hfree', hfree, List.reverse_cons, List.append_assoc, List.singleton_append]
      · intro e hbad hall
        exact hbad (List.forall_mem_cons.mp hall).2
    · intro e hbad hall
      exact hbad.1 (List.forall_mem_cons.mp hall).1

theorem Ringbuf.mem_pages {rb : Ringbuf} {pa : UInt64} :
    pa ∈ rb.pages ↔ pa = rb.book ∨ pa ∈ List.ofFn rb.buf := by
  rw [Ringbuf.pages, List.mem_append, List.mem_singleton, or_comm]

theorem unmapRingbufPmem_wp [Image] (k : Fin MAX_RINGBUFS) (s : State) :
    wp (unmapRingbufPmem k) s
      (fun _ s' => (∀ pa ∈ (s.ringbufs k).pages, ValidPage pa) ∧ s'.reads = s.reads ∧
        s'.given = s.given ∧ s'.pagetable = s.pagetable ∧
        (∃ freed, freed.Perm (s.ringbufs k).pages ∧ s'.freelist = freed ++ s.freelist) ∧
        s'.ringbufs = update s.ringbufs k { s.ringbufs k with name := key [] })
      (fun _ => ¬∀ pa ∈ (s.ringbufs k).pages, ValidPage pa) := by
  unfold unmapRingbufPmem
  apply wp_get_bind
  apply wp_modify_bind
  apply wp_bind
  apply (kfree_wp _ _).mono
  · rintro _ s₁ ⟨hvalid, hframe, hpt, hfree⟩
    apply wp_bind
    apply (kfreeAll_wp _ s₁).mono
    · rintro _ s₂ ⟨hall, hframe', hpt', hfree'⟩
      refine ⟨?_, ?_, ?_, ?_, ⟨(List.ofFn (s.ringbufs k).buf).reverse ++ [(s.ringbufs k).book], ?_, ?_⟩,
        ?_⟩
      · intro pa hpa
        rcases Ringbuf.mem_pages.mp hpa with rfl | hpa
        · exact hvalid
        · exact hall pa hpa
      · exact hframe'.reads.trans hframe.reads
      · exact hframe'.given.trans hframe.given
      · exact hpt'.trans hpt
      · exact (List.reverse_perm _).append_right _
      · rw [hfree', hfree, List.append_assoc, List.singleton_append]
      · exact hframe'.ringbufs.trans hframe.ringbufs
    · intro e hbad hall
      exact hbad fun pa hpa => hall pa (Ringbuf.mem_pages.mpr (.inr hpa))
  · intro e hbad hall
    exact hbad.1 (hall _ (Ringbuf.mem_pages.mpr (.inl rfl)))

def closeBase (s : State) (addr : UInt64) : UInt64 := wordAt s.mem (cell s.pagetable addr)

-- What a close of the ring in slot `k` does.
inductive Closed [Image] (s s' : State) (k : Fin MAX_RINGBUFS) (va : UInt64) : Int32 → Prop where
  -- The reference is given back although nothing is unmapped.
  | miscounted (hwalk : s.pagetable.walkaddr va = 0)
      (hpt : s'.pagetable = s.pagetable) (hfree : s'.freelist = s.freelist)
      (hrings : s'.ringbufs = update s.ringbufs k
        { s.ringbufs k with refcount := (s.ringbufs k).refcount - 1 }) : Closed s s' k va (-1)
  | unmapped (hwalk : s.pagetable.walkaddr va ≠ 0) (hok : Unmappable s.pagetable.leaf va)
      (hleaf : s'.pagetable.leaf = unmapRing s.pagetable.leaf (vpn va))
      (hfree : s'.freelist = s.freelist) (href : (s.ringbufs k).refcount ≠ 1)
      (hrings : s'.ringbufs = update s.ringbufs k
        { s.ringbufs k with refcount := (s.ringbufs k).refcount - 1 }) : Closed s s' k va 0
  | freed (freed : List UInt64) (hwalk : s.pagetable.walkaddr va ≠ 0)
      (hok : Unmappable s.pagetable.leaf va)
      (hleaf : s'.pagetable.leaf = unmapRing s.pagetable.leaf (vpn va))
      (href : (s.ringbufs k).refcount = 1) (hvalid : ∀ pa ∈ (s.ringbufs k).pages, ValidPage pa)
      (hperm : freed.Perm (s.ringbufs k).pages) (hfree : s'.freelist = freed ++ s.freelist)
      (hrings : s'.ringbufs = update s.ringbufs k
        { s.ringbufs k with refcount := 0, name := key [] }) : Closed s s' k va 0

structure CloseOk [Image] (s : State) (k : Fin MAX_RINGBUFS) (addr : UInt64) : Prop where
  readable : Readable (cell s.pagetable addr)
  unmappable : s.pagetable.walkaddr (closeBase s addr) ≠ 0 →
    Unmappable s.pagetable.leaf (closeBase s addr)
  valid : s.pagetable.walkaddr (closeBase s addr) ≠ 0 → (s.ringbufs k).refcount = 1 →
    ∀ pa ∈ (s.ringbufs k).pages, ValidPage pa

variable {s : State} {k : Fin MAX_RINGBUFS} {addr : UInt64}

theorem Closed.ok [Image] {s' : State} {r : Int32} (h : Closed s s' k (closeBase s addr) r)
    (hreadable : Readable (cell s.pagetable addr)) :
    CloseOk s k addr := by
  cases h with
  | miscounted hwalk => exact ⟨hreadable, fun h => absurd hwalk h, fun h => absurd hwalk h⟩
  | unmapped _ hok _ _ href => exact ⟨hreadable, fun _ => hok, fun _ h => absurd h href⟩
  | freed _ _ hok _ _ hvalid => exact ⟨hreadable, fun _ => hok, fun _ _ => hvalid⟩

theorem unmapFrom_wp [Image] {s₁ : State} (va : UInt64) (hpt : s₁.pagetable = s.pagetable)
    (hfree : s₁.freelist = s.freelist) (hrings : s₁.ringbufs = update s.ringbufs k
      { s.ringbufs k with refcount := (s.ringbufs k).refcount - 1 }) :
    wp (do
        if (← validatePages va) ≠ 0 then return -1
        else do
          let va := va - UInt64.ofNat (2 * RINGBUF_SIZE - 1) * PGSIZE
          uvmunmap va (UInt64.ofNat (2 * RINGBUF_SIZE)) false
          uvmunmap (va - PGSIZE) 1 false
          if (s.ringbufs k).refcount - 1 = 0 then do
            let _ ← unmapRingbufPmem k
            return 0
          else return 0) s₁
      (fun r s' => Closed s s' k va r ∧ s'.given = s₁.given ∧ s'.reads = s₁.reads)
      (fun _ => s.pagetable.walkaddr va ≠ 0 ∧ (Unmappable s.pagetable.leaf va →
        (s.ringbufs k).refcount = 1 ∧ ¬∀ pa ∈ (s.ringbufs k).pages, ValidPage pa)) := by
  apply wp_bind
  apply (validatePages_wp va s₁).mono _ (fun _ h => h.elim)
  rintro r s₂ ⟨hs₂, hr⟩
  rw [hs₂, hr, hpt]
  by_cases hwalk : s.pagetable.walkaddr va = 0
  · rw [if_pos hwalk, if_pos (by decide)]
    exact ⟨.miscounted hwalk hpt hfree hrings, rfl, rfl⟩
  · rw [if_neg hwalk, if_neg (by decide)]
    have hunmap := unmapPages_wp s₁ (leaf_of_walkaddr hwalk).1
    rw [hpt, unmapPages, wp_bind_iff] at hunmap
    have hpanics : ∀ e : Panic, ¬Unmappable s.pagetable.leaf va →
        s.pagetable.walkaddr va ≠ 0 ∧ (Unmappable s.pagetable.leaf va →
          (s.ringbufs k).refcount = 1 ∧ ¬∀ pa ∈ (s.ringbufs k).pages, ValidPage pa) :=
      fun _ hbad => ⟨hwalk, fun hok => absurd hok hbad⟩
    apply wp_bind
    apply hunmap.mono _ hpanics
    intro _ s₃ hunmap'
    apply wp_bind
    apply hunmap'.mono _ hpanics
    rintro _ s₄ ⟨hok, hunmapped⟩
    have hleaf : s₄.pagetable.leaf = unmapRing s.pagetable.leaf (vpn va) := by
      rw [hunmapped.leaf, hpt]
    have hrings₄ := hunmapped.frame.ringbufs.trans hrings
    by_cases href : (s.ringbufs k).refcount = 1
    · rw [if_pos (by omega)]
      have hentry : s₄.ringbufs k = { s.ringbufs k with refcount := 0 } := by
        rw [hrings₄, update_self, href]
        rfl
      have hpages : (s₄.ringbufs k).pages = (s.ringbufs k).pages := by
        rw [hentry]
        rfl
      apply wp_bind
      apply (unmapRingbufPmem_wp k s₄).mono
      · rintro _ s' ⟨hvalid, hreads, hgiven, hpt', ⟨freed, hperm, hfree'⟩, hrings'⟩
        rw [hpages] at hvalid hperm
        refine ⟨.freed freed hwalk hok (by rw [hpt', hleaf]) href hvalid hperm ?_ ?_,
          hgiven.trans hunmapped.frame.given, hreads.trans hunmapped.frame.reads⟩
        · rw [hfree', hunmapped.freelist, hfree]
        · rw [hrings', hentry, hrings₄, update_idem]
      · intro e hbad
        rw [hpages] at hbad
        exact ⟨hwalk, fun _ => ⟨href, hbad⟩⟩
    · rw [if_neg (by omega)]
      exact ⟨.unmapped hwalk hok hleaf (hunmapped.freelist.trans hfree) href hrings₄,
        hunmapped.frame.given, hunmapped.frame.reads⟩

theorem unmapRingbuf_wp [Image] {name : List UInt8} (hk : findName s.ringbufs name = some k) :
    wp (unmapRingbuf name addr) s
      (fun r s' => CloseOk s k addr ∧ Closed s s' k (closeBase s addr) r ∧ s'.given = s.given ∧
        s'.reads = s.reads ++ wordBytes (cell s.pagetable addr))
      (fun _ => ¬CloseOk s k addr) := by
  unfold unmapRingbuf
  apply wp_get_bind
  rw [hk]
  apply wp_get_bind
  apply wp_modify_bind
  apply wp_bind
  apply walkaddr_wp
  apply wp_bind
  apply (loadWord_wp _ _).mono _ (fun e hbad hok => hbad hok.readable)
  rintro va s₁ ⟨hreadable, hva, hs₁⟩
  have hbase : va = closeBase s addr := hva
  apply (unmapFrom_wp va (by rw [hs₁]) (by rw [hs₁]) (by rw [hs₁])).mono
  · rintro r s' ⟨hclosed, hgiven, hreads⟩
    rw [hs₁] at hgiven hreads
    rw [hbase] at hclosed
    exact ⟨hclosed.ok hreadable, hclosed, hgiven, hreads⟩
  · rintro e ⟨hwalk, hbad⟩ hok
    rw [hbase] at hwalk hbad
    obtain ⟨href, hinvalid⟩ := hbad (hok.unmappable hwalk)
    exact hinvalid (hok.valid hwalk href)

end Xv6Ringbuf.Kernel
