import Xv6Ringbuf.Kernel.Vm

namespace Xv6Ringbuf.Kernel

open Machine Function

def vpn (va : UInt64) : Nat := va.toNat / 4096

def index (level n : Nat) : Fin 512 := ⟨n / 512 ^ level % 512, Nat.mod_lt _ (by decide)⟩

theorem px_eq (level : Nat) (va : UInt64) : px level va = index level (vpn va) := by
  apply Fin.ext
  simp only [px, index, vpn, Nat.div_div_eq_div_mul]
  rw [show 2 ^ (12 + 9 * level) = 4096 * 512 ^ level by
    rw [Nat.pow_add, Nat.pow_mul]]

variable {va : UInt64} {n : Nat} {pt : Pagetable}

theorem vpn_lt (h : va < MAXVA) : vpn va < 2 ^ 26 := by
  rw [UInt64.lt_iff_toNat_lt, toNat_MAXVA] at h
  unfold vpn
  omega

theorem index_inj {m : Nat} (hn : n < 2 ^ 26) (hm : m < 2 ^ 26) (h0 : index 0 n = index 0 m)
    (h1 : index 1 n = index 1 m) (h2 : index 2 n = index 2 m) : n = m := by
  simp only [index, Fin.mk.injEq] at h0 h1 h2
  omega

-- A page table as a finite map from page numbers to entries. The outer `none`
-- says that there is no table for the page.
def Pagetable.slot (pt : Pagetable) (n : Nat) : Option (Option Pte) :=
  match pt.entry (index 2 n) with
  | none => none
  | some l1 =>
    match l1.entry (index 1 n) with
    | none => none
    | some l0 => some (l0.entry (index 0 n))

def Pagetable.leaf (pt : Pagetable) (n : Nat) : Option Pte :=
  if n < 2 ^ 26 then (pt.slot n).join else none

theorem lookup_eq_slot (pt : Pagetable) (va : UInt64) : pt.lookup va = pt.slot (vpn va) := by
  simp only [Pagetable.lookup, px_eq]
  rfl

def Pagetable.missing (pt : Pagetable) (n : Nat) : Nat :=
  match pt.entry (index 2 n) with
  | none => 2
  | some l1 =>
    match l1.entry (index 1 n) with
    | none => 1
    | some _ => 0

theorem slot_isSome_iff (pt : Pagetable) (n : Nat) : (pt.slot n).isSome ↔ pt.missing n = 0 := by
  unfold Pagetable.slot Pagetable.missing
  cases pt.entry (index 2 n) with
  | none => simp
  | some l1 =>
    simp only
    cases l1.entry (index 1 n) with
    | none => simp
    | some l0 => simp

theorem slot_eq_leaf (hn : n < 2 ^ 26) (h : pt.missing n = 0) :
    pt.slot n = some (pt.leaf n) := by
  obtain ⟨x, hx⟩ := Option.isSome_iff_exists.mp ((slot_isSome_iff pt n).mpr h)
  rw [Pagetable.leaf, if_pos hn, hx]
  rfl

theorem slot_eq_none (h : pt.missing n ≠ 0) : pt.slot n = none := by
  rw [← Option.not_isSome_iff_eq_none, slot_isSome_iff]
  exact h

theorem leaf_of_missing (h : pt.missing n ≠ 0) : pt.leaf n = none := by
  rw [Pagetable.leaf, slot_eq_none h]
  split <;> rfl

theorem missing_of_leaf (h : pt.leaf n ≠ none) : pt.missing n = 0 := by
  by_contra hmissing
  exact h (leaf_of_missing hmissing)

theorem lt_of_leaf (h : pt.leaf n ≠ none) : n < 2 ^ 26 := by
  by_contra hn
  exact h (if_neg hn)

theorem lt_of_leaf_eq {pte : Pte} (h : pt.leaf n = some pte) :
    n < 2 ^ 26 :=
  lt_of_leaf (ne_of_eq_of_ne h (Option.some_ne_none pte))

theorem Table.set_entry {α : Type} (t : Table α) (i j : Fin 512) (x : Option α) :
    (t.set i x).entry j = if j = i then x else t.entry j := by
  simp only [Table.set, update_apply]

theorem slot_add_level1 (page : UInt64) (h : pt.entry (index 2 n) = none) :
    Pagetable.leaf (Table.set pt (index 2 n) (some ⟨page, fun _ => none⟩)) = pt.leaf := by
  funext m
  simp only [Pagetable.leaf, Pagetable.slot, Table.set_entry]
  by_cases hm : index 2 m = index 2 n
  · rw [if_pos hm, hm, h]
  · rw [if_neg hm]

theorem slot_add_level0 {l1 : Level1} (page : UInt64) (h : pt.entry (index 2 n) = some l1)
    (h' : l1.entry (index 1 n) = none) :
    Pagetable.leaf (Table.set pt (index 2 n)
      (some (l1.set (index 1 n) (some ⟨page, fun _ => none⟩)))) = pt.leaf := by
  funext m
  simp only [Pagetable.leaf, Pagetable.slot, Table.set_entry]
  by_cases hm : index 2 m = index 2 n
  · rw [if_pos hm, hm, h]
    simp only [Table.set_entry]
    by_cases hm' : index 1 m = index 1 n
    · rw [if_pos hm', hm', h']
      rfl
    · rw [if_neg hm']
  · rw [if_neg hm]

theorem setPte_eq (pt : Pagetable) {x : Option Pte} (h : pt.missing (vpn va) = 0) :
    ∃ l1 l0, pt.entry (index 2 (vpn va)) = some l1 ∧ l1.entry (index 1 (vpn va)) = some l0 ∧
      pt.setPte va x = Table.set pt (index 2 (vpn va))
        (some (l1.set (index 1 (vpn va)) (some (l0.set (index 0 (vpn va)) x)))) := by
  simp only [Pagetable.missing] at h
  cases h1 : pt.entry (index 2 (vpn va)) with
  | none => simp [h1] at h
  | some l1 =>
    cases h0 : l1.entry (index 1 (vpn va)) with
    | none => simp [h1, h0] at h
    | some l0 =>
      refine ⟨l1, l0, rfl, h0, ?_⟩
      simp only [Pagetable.setPte, px_eq, h1, h0]

theorem leaf_setPte (x : Option Pte) (h : pt.missing (vpn va) = 0) (hva : vpn va < 2 ^ 26) :
    (pt.setPte va x).leaf = update pt.leaf (vpn va) x := by
  funext m
  obtain ⟨l1, l0, h1, h0, hset⟩ := setPte_eq pt (x := x) h
  rw [hset, update_apply]
  simp only [Pagetable.leaf, Pagetable.slot, Table.set_entry]
  by_cases hm : m < 2 ^ 26
  · rw [if_pos hm, if_pos hm]
    by_cases h2 : index 2 m = index 2 (vpn va)
    · rw [if_pos h2, h2, h1]
      simp only [Table.set_entry]
      by_cases h3 : index 1 m = index 1 (vpn va)
      · rw [if_pos h3, h3, h0]
        simp only [Table.set_entry, Option.join_some]
        by_cases h4 : index 0 m = index 0 (vpn va)
        · rw [if_pos h4, if_pos (index_inj hm hva h4 h3 h2)]
        · rw [if_neg h4, if_neg fun heq => h4 (by rw [heq])]
      · rw [if_neg h3, if_neg fun heq => h3 (by rw [heq])]
    · rw [if_neg h2, if_neg fun heq => h2 (by rw [heq])]
  · have hne : m ≠ vpn va := by
      rintro rfl
      exact hm hva
    rw [if_neg hm, if_neg hm, if_neg hne]

theorem missing_setPte (x : Option Pte) (h : pt.missing (vpn va) = 0) (m : Nat) :
    (pt.setPte va x).missing m = pt.missing m := by
  obtain ⟨l1, l0, h1, h0, hset⟩ := setPte_eq pt (x := x) h
  rw [hset]
  simp only [Pagetable.missing, Table.set_entry]
  by_cases h2 : index 2 m = index 2 (vpn va)
  · rw [if_pos h2, h2, h1]
    simp only [Table.set_entry]
    by_cases h3 : index 1 m = index 1 (vpn va)
    · rw [if_pos h3, h3, h0]
    · rw [if_neg h3]
  · rw [if_neg h2]

end Xv6Ringbuf.Kernel
