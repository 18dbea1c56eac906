import Xv6Ringbuf.Kernel.Heap

namespace Xv6Ringbuf.Kernel

open Machine Function

section Uvmalloc

theorem permUser_ne (xperm : Perm) : permUser xperm ≠ ⟨false, false, false, false⟩ := by
  intro h
  have hr := congrArg Perm.r h
  cases hr

theorem pagesOf_eq {a : UInt64} {n : Nat} (h : a.toNat = 4096 * n) : pagesOf a = n := by
  unfold pagesOf
  omega

variable [Image] {top : Nat} (xperm : Perm) {keep : UInt64 → Prop} {mem₀ : UInt64 → UInt8}

variable {s : State} {a oldsz newsz : UInt64} {n n₀ : Nat}

theorem uvmallocUndo_heap (htop : 2 ^ 15 < top) (htop' : top ≤ 2 ^ 26) (h : Heap top s n)
    (haside : Aside keep mem₀ s n) (ha : a.toNat = 4096 * n) (hold : oldsz.toNat = 4096 * n₀)
    (hle : n₀ ≤ n) :
    wp (do let _ ← uvmdealloc a oldsz
           return (0 : UInt64)) s
      (fun r s' => r = 0 ∧ Resized top (permUser xperm) s s' n n₀ ∧ Aside keep mem₀ s' n₀)
      fun _ => False := by
  apply wp_bind
  by_cases heq : n = n₀
  · have hstop : a ≤ oldsz := by
      rw [UInt64.le_iff_toNat_le]
      omega
    unfold uvmdealloc
    rw [if_pos hstop]
    subst heq
    exact ⟨rfl, Resized.refl h, haside⟩
  · have hlt : oldsz < a := by
      rw [UInt64.lt_iff_toNat_lt]
      omega
    rw [← pagesOf_eq ha] at h haside
    apply (uvmdealloc_heap htop htop' h haside hlt).mono
    · rintro _ s' ⟨_, hresized, haside'⟩
      rw [pagesOf_eq ha, pagesOf_eq hold] at hresized
      rw [pagesOf_eq hold] at haside'
      exact ⟨rfl, hresized, haside'⟩
    · exact fun _ h => h

theorem addPage_heap {s₁ : State} {page : UInt64} (h : Heap top s n) (haside : Aside keep mem₀ s n)
    (ha : a.toNat = 4096 * n) (hn : n < top) (hmax : n < 2 ^ 26)
    (hspares : Spares (fun pa => Held s.pagetable n pa ∨ keep pa) s.mem s₁)
    (hpt : s₁.pagetable = s.pagetable) (hvalid : ValidPage page)
    (hkeep : ¬(Held s.pagetable n page ∨ keep page)) (hfree : page ∉ s₁.freelist) :
    wp (mappages a PGSIZE page (permUser xperm)) { s₁ with mem := memset s₁.mem page 0 }
      (fun r s' => r = 0 ∧ Resized top (permUser xperm) s s' n (n + 1) ∧ Aside keep mem₀ s' (n + 1) ∨
        r ≠ 0 ∧ s'.pagetable.leaf = s.pagetable.leaf ∧ page ∉ s'.freelist ∧
          Spares (fun pa => Held s.pagetable n pa ∨ keep pa) s.mem s') fun _ => False := by
  have halign : Aligned a := by
    refine ⟨by omega, ?_⟩
    rw [UInt64.lt_iff_toNat_lt, toNat_MAXVA]
    omega
  have hvpn : vpn a = n := by
    unfold vpn
    omega
  have hset := hspares.memset hvalid hkeep 0
  apply ((mappages_wp halign _).and (mappages_spares a PGSIZE page (permUser xperm) _
    (hset.add hvalid hfree))).mono
  · rintro r s' ⟨hcases, hkept⟩
    rw [hvpn] at hcases
    have hback := hset.trans (hkept.mono fun _ => .inl)
    rcases hcases with ⟨rfl, hmapped⟩ | ⟨rfl, hshort⟩
    · have hleaf : s'.pagetable.leaf = update s.pagetable.leaf n
          (some ⟨page, permUser xperm⟩) := by
        rw [hmapped.leaf]
        show update s₁.pagetable.leaf n _ = _
        rw [hpt]
      have hnew : Spares (fun pa => Held s.pagetable n pa ∨ pa = page) s'.mem s' := by
        apply hkept.now.mono
        rintro pa (hheld | heq)
        · exact .inl (.inl hheld)
        · exact .inr heq
      left
      refine ⟨rfl, Resized.add h hvalid (fun hheld => hkeep (.inl hheld)) (permUser_ne xperm) hn
        hleaf hnew (fun pa hheld => hback.same pa (.inl hheld)) ?_, ?_⟩
      · intro a' ha'
        rw [hkept.same page (.inr rfl) a' ha']
        exact if_pos ha'
      · exact haside.add (fun h => hkeep (.inr h)) hleaf (hback.mono fun _ => .inr)
    · right
      refine ⟨by decide, ?_, fun hmem => hkept.apart page hmem (.inr rfl), hback⟩
      rw [hshort.leaf]
      show s₁.pagetable.leaf = _
      rw [hpt]
  · rintro _ ⟨hbad, _⟩
    apply hbad
    show s₁.pagetable.leaf (vpn a) = none
    rw [hpt, hvpn]
    by_contra hsome
    exact absurd ((h.mapped n hn).mp hsome) (Nat.lt_irrefl n)

theorem uvmallocLoop_heap (htop : 2 ^ 15 < top) (htop' : top ≤ 2 ^ 26) (hold : oldsz.toNat = 4096 * n₀)
    (fuel : Nat) (h : Heap top s n) (haside : Aside keep mem₀ s n) (ha : a.toNat = 4096 * n)
    (hle : n₀ ≤ n) (hnew : n ≤ pagesOf newsz) (hfuel : pagesOf newsz ≤ n + fuel) :
    wp (uvmallocLoop oldsz newsz xperm fuel a) s
      (fun r s' => r = newsz ∧ Resized top (permUser xperm) s s' n (pagesOf newsz) ∧
          Aside keep mem₀ s' (pagesOf newsz) ∨
        r = 0 ∧ Resized top (permUser xperm) s s' n n₀ ∧ Aside keep mem₀ s' n₀)
      fun _ => False := by
  induction fuel generalizing s a n with
  | zero =>
    have heq : n = pagesOf newsz := by omega
    subst heq
    exact .inl ⟨rfl, Resized.refl h, haside⟩
  | succ fuel ih =>
    have hbound := h.bound htop
    have hmore : a < newsz ↔ n < pagesOf newsz := by
      rw [UInt64.lt_iff_toNat_lt, ha]
      unfold pagesOf
      omega
    rw [uvmallocLoop]
    by_cases hlt : a < newsz
    · rw [if_pos hlt]
      apply wp_bind
      apply kalloc_rule
      · intro _
        apply (uvmallocUndo_heap xperm htop htop' h haside ha hold hle).mono _ fun _ h => h
        rintro r s' ⟨rfl, hresized⟩
        exact .inr ⟨rfl, hresized⟩
      · intro page rest hrest
        obtain ⟨hspares, hvalid, hkeep, hfree⟩ := (haside.both h).taken hrest
        apply wp_modify_bind
        apply wp_bind
        apply (addPage_heap xperm h haside ha (by omega) (by omega) hspares rfl hvalid hkeep
          hfree).mono _ fun _ h => h
        rintro r s₂ (⟨rfl, hresized, haside'⟩ | ⟨hr, hleaf, hfree₂, hspares₂⟩)
        · rw [if_neg (by decide)]
          have hnext : (a + PGSIZE).toNat = 4096 * (n + 1) := by
            rw [UInt64.toNat_add, toNat_PGSIZE]
            omega
          have hlt' := hmore.mp hlt
          apply (ih hresized.heap haside' hnext (by omega) (by omega) (by omega)).mono _ fun _ h => h
          rintro r s' (⟨rfl, hrest, haside''⟩ | ⟨rfl, hrest, haside''⟩)
          · exact .inl ⟨rfl, hresized.trans (Nat.le_succ n) hrest, haside''⟩
          · exact .inr ⟨rfl, hresized.trans (Nat.le_succ n) hrest, haside''⟩
        · rw [if_pos hr]
          apply wp_bind
          apply (kfree_spares hspares₂ hvalid hkeep hfree₂).mono _ fun _ h => h.elim
          rintro _ s₃ ⟨hspares₃, hpt₃, _⟩
          have hleaf₃ : s₃.pagetable.leaf = s.pagetable.leaf := by rw [hpt₃, hleaf]
          have hsame : Resized top (permUser xperm) s s₃ n n :=
            Resized.same h hleaf₃ (hspares₃.mono fun _ => .inl)
          have haside₃ := haside.same hleaf₃ (hspares₃.mono fun _ => .inr)
          apply (uvmallocUndo_heap xperm htop htop' hsame.heap haside₃ ha hold hle).mono _
            fun _ h => h
          rintro r s' ⟨rfl, hresized, haside'⟩
          exact .inr ⟨rfl, hsame.trans (Nat.le_refl n) hresized, haside'⟩
    · rw [if_neg hlt]
      have heq : n = pagesOf newsz := by
        have := hmore.not.mp hlt
        omega
      subst heq
      exact .inl ⟨rfl, Resized.refl h, haside⟩

theorem uvmalloc_heap (htop : 2 ^ 15 < top) (htop' : top ≤ 2 ^ 26) (h : Heap top s (pagesOf oldsz))
    (haside : Aside keep mem₀ s (pagesOf oldsz)) (hle : oldsz ≤ newsz) :
    wp (uvmalloc oldsz newsz xperm) s
      (fun r s' => r = newsz ∧
          Resized top (permUser xperm) s s' (pagesOf oldsz) (pagesOf newsz) ∧
          Aside keep mem₀ s' (pagesOf newsz) ∨
        r = 0 ∧ Resized top (permUser xperm) s s' (pagesOf oldsz) (pagesOf oldsz) ∧
          Aside keep mem₀ s' (pagesOf oldsz)) fun _ => False := by
  have hbound := h.bound htop
  have hround : (PGROUNDUP oldsz).toNat = 4096 * pagesOf oldsz := toNat_PGROUNDUP (by omega)
  have hle' := UInt64.le_iff_toNat_le.mp hle
  have hpages : pagesOf oldsz ≤ pagesOf newsz := by
    unfold pagesOf
    omega
  unfold uvmalloc
  rw [if_neg (UInt64.not_lt.mpr hle)]
  apply uvmallocLoop_heap xperm htop htop' hround _ h haside hround (Nat.le_refl _) hpages
  unfold pagesOf
  omega

end Uvmalloc

end Xv6Ringbuf.Kernel
