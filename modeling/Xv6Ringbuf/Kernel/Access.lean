import Xv6Ringbuf.Kernel.Unmap

namespace Xv6Ringbuf.Kernel

open Machine

def Pagetable.user (pt : Pagetable) (n : Nat) : Option UInt64 :=
  match pt.leaf n with
  | none => none
  | some pte => if pte.perm.u then some pte.pa else none

variable {va : UInt64} {pt : Pagetable}

theorem walkaddr_eq (pt : Pagetable) (hva : va < MAXVA) :
    pt.walkaddr va = (pt.user (vpn va)).getD 0 := by
  rw [Pagetable.walkaddr, if_neg (UInt64.not_le.mpr hva), lookup_eq_slot, Pagetable.user]
  by_cases hmissing : pt.missing (vpn va) = 0
  · rw [slot_eq_leaf (vpn_lt hva) hmissing]
    cases pt.leaf (vpn va) with
    | none => rfl
    | some pte =>
      simp only
      split <;> rfl
  · rw [slot_eq_none hmissing, leaf_of_missing hmissing]
    rfl

theorem walkaddr_of_le (pt : Pagetable) (hva : MAXVA ≤ va) : pt.walkaddr va = 0 := by
  rw [Pagetable.walkaddr, if_pos hva]

theorem leaf_of_walkaddr (h : pt.walkaddr va ≠ 0) :
    va < MAXVA ∧ ∃ pte, pt.leaf (vpn va) = some pte ∧ pte.perm.u = true ∧
      pte.pa = pt.walkaddr va := by
  have hva : va < MAXVA := by
    by_contra hle
    exact h (walkaddr_of_le pt (UInt64.not_lt.mp hle))
  refine ⟨hva, ?_⟩
  rw [walkaddr_eq pt hva, Pagetable.user] at h ⊢
  cases hleaf : pt.leaf (vpn va) with
  | none => simp [hleaf] at h
  | some pte =>
    simp only [hleaf] at h ⊢
    by_cases hu : pte.perm.u = true
    · exact ⟨pte, rfl, hu, by simp [hu]⟩
    · simp [hu] at h

def CellMapped (pt : Pagetable) (addr : UInt64) (len : Nat) : Prop :=
  ∀ i < len, pt.walkaddr (PGROUNDDOWN (addr + UInt64.ofNat i)) ≠ 0

instance (pt : Pagetable) (addr : UInt64) (len : Nat) : Decidable (CellMapped pt addr len) :=
  inferInstanceAs (Decidable (∀ i < len, _))

theorem CellMapped.mono {pt' : Pagetable} {addr : UInt64} {len : Nat} (h : CellMapped pt addr len)
    (hleaf : ∀ n pte, pt.leaf n = some pte → pt'.leaf n = some pte) : CellMapped pt' addr len := by
  intro i hi hzero
  obtain ⟨hlt, pte, hsome, hu, hpa⟩ := leaf_of_walkaddr (h i hi)
  rw [walkaddr_eq pt' hlt, Pagetable.user, hleaf _ _ hsome] at hzero
  simp only [hu, if_true, Option.getD_some] at hzero
  exact h i hi (hpa ▸ hzero)

theorem add_succ (a : UInt64) (i : Nat) : a + UInt64.ofNat (i + 1) = a + 1 + UInt64.ofNat i := by
  rw [Nat.add_comm, UInt64.ofNat_add, ← UInt64.add_assoc]
  rfl

theorem toNat_roundDown (a : UInt64) : (PGROUNDDOWN a).toNat = a.toNat / 4096 * 4096 := by
  have hlt := a.toNat_lt
  rw [PGROUNDDOWN, UInt64.toNat_mul, UInt64.toNat_div, toNat_PGSIZE]
  omega

theorem vpn_roundDown (a : UInt64) : vpn (PGROUNDDOWN a) = vpn a := by
  unfold vpn
  rw [toNat_roundDown]
  omega

theorem walkaddr_roundDown (pt : Pagetable) (a : UInt64) :
    pt.walkaddr (PGROUNDDOWN a) = pt.walkaddr a := by
  have hround := toNat_roundDown a
  have hmax : MAXVA.toNat = 274877906944 := by rfl
  by_cases ha : a < MAXVA
  · have ha' : PGROUNDDOWN a < MAXVA := by
      rw [UInt64.lt_iff_toNat_lt] at ha ⊢
      omega
    rw [walkaddr_eq pt ha, walkaddr_eq pt ha', vpn_roundDown]
  · rw [UInt64.not_lt] at ha
    have ha' : MAXVA ≤ PGROUNDDOWN a := by
      rw [UInt64.le_iff_toNat_le] at ha ⊢
      omega
    rw [walkaddr_of_le pt ha, walkaddr_of_le pt ha']

theorem toNat_sub_roundDown (a : UInt64) : (a - PGROUNDDOWN a).toNat = a.toNat % 4096 := by
  have hle : PGROUNDDOWN a ≤ a := by
    rw [UInt64.le_iff_toNat_le, toNat_roundDown]
    omega
  rw [UInt64.toNat_sub_of_le _ _ hle, toNat_roundDown]
  omega

theorem toNat_room (a : UInt64) : (PGSIZE - (a - PGROUNDDOWN a)).toNat = 4096 - a.toNat % 4096 := by
  have hoff := toNat_sub_roundDown a
  have hmod : a.toNat % 4096 < 4096 := Nat.mod_lt _ (by decide)
  rw [UInt64.toNat_sub_of_le, hoff]
  · rfl
  · rw [UInt64.le_iff_toNat_le, hoff]
    exact Nat.le_of_lt hmod

theorem roundDown_add {a : UInt64} {i : Nat} (h : a.toNat % 4096 + i < 4096) :
    PGROUNDDOWN (a + UInt64.ofNat i) = PGROUNDDOWN a := by
  have hlt := a.toNat_lt
  apply UInt64.toNat_inj.mp
  rw [toNat_roundDown, toNat_roundDown, UInt64.toNat_add, UInt64.toNat_ofNat']
  omega

theorem cellMapped_split (pt : Pagetable) (addr : UInt64) (len : Nat) {n : Nat}
    (hn : n = min (4096 - addr.toNat % 4096) len) (hlen : 0 < len) :
    CellMapped pt addr len ↔ pt.walkaddr (PGROUNDDOWN addr) ≠ 0 ∧
      CellMapped pt (PGROUNDDOWN addr + PGSIZE) (len - n) := by
  have hmod : addr.toNat % 4096 < 4096 := Nat.mod_lt _ (by decide)
  have hnext : n < len → addr + UInt64.ofNat n = PGROUNDDOWN addr + PGSIZE := by
    intro hlt
    apply UInt64.toNat_inj.mp
    rw [UInt64.toNat_add, UInt64.toNat_add, toNat_roundDown, UInt64.toNat_ofNat',
      toNat_PGSIZE]
    omega
  constructor
  · intro h
    constructor
    · have hzero := h 0 hlen
      rwa [roundDown_add (by omega)] at hzero
    · intro i hi
      have hi' := h (n + i) (by omega)
      rwa [UInt64.ofNat_add, ← UInt64.add_assoc, hnext (by omega)] at hi'
  · rintro ⟨hfirst, hrest⟩ i hi
    by_cases hin : i < n
    · rw [roundDown_add (by omega)]
      exact hfirst
    · have hi' := hrest (i - n) (by omega)
      rw [← hnext (by omega), UInt64.add_assoc, ← UInt64.ofNat_add] at hi'
      rwa [Nat.add_sub_cancel' (by omega)] at hi'

theorem walkaddr_wp {s : State} {Q : UInt64 → State → Prop} {E : Panic → Prop}
    (h : Q (s.pagetable.walkaddr va) s) : wp (walkaddr va) s Q E := h

theorem copyoutLoop_wp (fuel : Nat) (dstva : UInt64) (src : List UInt8) (hfuel : src.length < fuel)
    (s : State) :
    wp (copyoutLoop fuel dstva src) s
      (fun r s' => Frame s s' ∧ s'.pagetable = s.pagetable ∧ s'.freelist = s.freelist ∧
        r = if CellMapped s.pagetable dstva src.length then 0 else -1) (fun _ => False) := by
  induction fuel generalizing dstva src s with
  | zero => omega
  | succ fuel ih =>
    rw [copyoutLoop]
    cases src with
    | nil =>
      have hempty : CellMapped s.pagetable dstva 0 := fun i hi => by omega
      exact ⟨Frame.refl s, rfl, rfl, (if_pos hempty).symm⟩
    | cons byte rest =>
      have hmod : dstva.toNat % 4096 < 4096 := Nat.mod_lt _ (by decide)
      have hsplit := cellMapped_split s.pagetable dstva (byte :: rest).length rfl (by simp)
      rw [List.isEmpty_cons, if_neg (by decide)]
      apply wp_bind
      apply walkaddr_wp
      by_cases hpa : s.pagetable.walkaddr (PGROUNDDOWN dstva) = 0
      · rw [if_pos hpa]
        refine ⟨Frame.refl s, rfl, rfl, ?_⟩
        rw [if_neg fun h => (hsplit.mp h).1 hpa]
      · rw [if_neg hpa]
        apply wp_modify_bind
        rw [toNat_room]
        have hlen : ((byte :: rest).drop
            (min (4096 - dstva.toNat % 4096) (byte :: rest).length)).length < fuel := by
          rw [List.length_drop]
          simp only [List.length_cons] at hfuel ⊢
          omega
        apply (ih _ _ hlen _).mono _ (fun _ h => h)
        rintro r s' ⟨hframe, hpt, hfree, hr⟩
        refine ⟨⟨hframe.ringbufs, hframe.reads, hframe.given⟩, hpt, hfree, ?_⟩
        rw [hr, List.length_drop]
        by_cases hmapped : CellMapped s.pagetable dstva (byte :: rest).length
        · rw [if_pos hmapped, if_pos (hsplit.mp hmapped).2]
        · rw [if_neg hmapped, if_neg fun h => hmapped (hsplit.mpr ⟨hpa, h⟩)]

theorem copyout_wp (dstva : UInt64) (src : List UInt8) (s : State) :
    wp (copyout dstva src) s
      (fun r s' => Frame s s' ∧ s'.pagetable = s.pagetable ∧ s'.freelist = s.freelist ∧
        r = if CellMapped s.pagetable dstva src.length then 0 else -1) (fun _ => False) :=
  copyoutLoop_wp _ dstva src (Nat.lt_succ_self _) s

end Xv6Ringbuf.Kernel
