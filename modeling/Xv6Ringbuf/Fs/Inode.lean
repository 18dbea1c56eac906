import Mathlib

namespace Xv6Ringbuf.Fs

open Function

def NDIRECT : Nat := 12

def NINODE : Nat := 50

-- `struct dinode`, and the copy of it in `struct inode`. The last address is
-- that of the indirect block.
structure Dinode where
  type : Int16
  major : Int16
  minor : Int16
  nlink : Int16
  size : UInt32
  addrs : Fin (NDIRECT + 1) → UInt32

def Dinode.zero : Dinode := ⟨0, 0, 0, 0, 0, fun _ => 0⟩

-- An entry of the inode table, without its sleep lock.
structure Inode where
  dev : UInt32
  inum : UInt32
  ref : Nat
  valid : Bool
  din : Dinode

abbrev Ip := Fin NINODE

instance : NeZero NINODE := ⟨by decide⟩

abbrev Table := Ip → Inode

def Table.empty : Table := fun _ => ⟨0, 0, 0, false, .zero⟩

def Inode.Is (entry : Inode) (dev inum : UInt32) : Prop :=
  0 < entry.ref ∧ entry.dev = dev ∧ entry.inum = inum

instance (entry : Inode) (dev inum : UInt32) : Decidable (entry.Is dev inum) :=
  inferInstanceAs (Decidable (_ ∧ _ ∧ _))

-- `iget`. Without an entry for the inode the first free one is recycled, and
-- without a free one the kernel panics.
def Table.iget (table : Table) (dev inum : UInt32) : Option (Ip × Table) :=
  match (List.finRange NINODE).find? fun i => decide ((table i).Is dev inum) with
  | some i => some (i, update table i { table i with ref := (table i).ref + 1 })
  | none =>
    match (List.finRange NINODE).find? fun i => (table i).ref = 0 with
    | some i => some (i, update table i { table i with
        dev := dev, inum := inum, ref := 1, valid := false })
    | none => none

def Table.idup (table : Table) (i : Ip) : Table :=
  update table i { table i with ref := (table i).ref + 1 }

def Table.drop (table : Table) (i : Ip) : Table :=
  update table i { table i with ref := (table i).ref - 1 }

def Inode.Unlinked (entry : Inode) : Prop :=
  entry.ref = 1 ∧ entry.valid = true ∧ entry.din.nlink = 0

instance (entry : Inode) : Decidable entry.Unlinked :=
  inferInstanceAs (Decidable (_ ∧ _ ∧ _))

def Table.Unique (table : Table) : Prop :=
  ∀ i j, 0 < (table i).ref → 0 < (table j).ref → (table i).dev = (table j).dev →
    (table i).inum = (table j).inum → i = j

variable {table : Table} {dev inum : UInt32} {i : Ip}

theorem Table.iget_cases {table' : Table} (h : table.iget dev inum = some (i, table')) :
    (table i).Is dev inum ∧ table' = table.idup i ∨
      (table i).ref = 0 ∧ (∀ j, ¬(table j).Is dev inum) ∧
        table' = update table i { table i with
          dev := dev, inum := inum, ref := 1, valid := false } := by
  unfold Table.iget at h
  split at h
  · rename_i j hfind
    obtain ⟨rfl, rfl⟩ := Prod.mk.inj (Option.some.inj h)
    exact .inl ⟨of_decide_eq_true (List.find?_some (p := fun i => decide ((table i).Is dev inum)) hfind),
      rfl⟩
  · rename_i hnone
    split at h
    · rename_i j hfind
      obtain ⟨rfl, rfl⟩ := Prod.mk.inj (Option.some.inj h)
      refine .inr ⟨of_decide_eq_true (List.find?_some (p := fun i => decide ((table i).ref = 0)) hfind),
        ?_, rfl⟩
      intro k hk
      exact List.find?_eq_none.mp hnone k (List.mem_finRange k) (decide_eq_true hk)
    · cases h

theorem Table.iget_eq_none (h : table.iget dev inum = none) :
    ∀ i, 0 < (table i).ref := by
  unfold Table.iget at h
  split at h
  · cases h
  · split at h
    · cases h
    · rename_i hnone
      intro i
      have hi := List.find?_eq_none.mp hnone i (List.mem_finRange i)
      exact Nat.pos_of_ne_zero (by simpa using hi)

theorem Table.Unique.idup (h : table.Unique) (hi : 0 < (table i).ref) :
    (table.idup i).Unique := by
  have hsame : ∀ j, (0 < ((table.idup i) j).ref ↔ 0 < (table j).ref) ∧
      ((table.idup i) j).dev = (table j).dev ∧ ((table.idup i) j).inum = (table j).inum := by
    intro j
    by_cases hji : j = i
    · subst hji
      simp [Table.idup, hi]
    · simp [Table.idup, update_of_ne hji]
  intro j k hj hk hdev hinum
  rw [(hsame j).2.1, (hsame k).2.1] at hdev
  rw [(hsame j).2.2, (hsame k).2.2] at hinum
  exact h j k ((hsame j).1.mp hj) ((hsame k).1.mp hk) hdev hinum

theorem Table.Unique.drop (h : table.Unique) (i : Ip) : (table.drop i).Unique := by
  have hsame : ∀ j, (0 < ((table.drop i) j).ref → 0 < (table j).ref) ∧
      ((table.drop i) j).dev = (table j).dev ∧ ((table.drop i) j).inum = (table j).inum := by
    intro j
    by_cases hji : j = i
    · subst hji
      simp only [Table.drop, update_self, and_self, and_true]
      omega
    · simp [Table.drop, update_of_ne hji]
  intro j k hj hk hdev hinum
  rw [(hsame j).2.1, (hsame k).2.1] at hdev
  rw [(hsame j).2.2, (hsame k).2.2] at hinum
  exact h j k ((hsame j).1 hj) ((hsame k).1 hk) hdev hinum

theorem Table.Unique.recycle (h : table.Unique) (i : Ip) (hnone : ∀ j, ¬(table j).Is dev inum)
    (valid : Bool) :
    Table.Unique (update table i { table i with
      dev := dev, inum := inum, ref := 1, valid := valid }) := by
  intro j k hj hk hdev hinum
  by_cases hji : j = i
  · by_cases hki : k = i
    · rw [hji, hki]
    · rw [hji, update_self, update_of_ne hki] at hdev hinum
      rw [update_of_ne hki] at hk
      exact absurd ⟨hk, hdev.symm, hinum.symm⟩ (hnone k)
  · rw [update_of_ne hji] at hj hdev hinum
    by_cases hki : k = i
    · rw [hki, update_self] at hdev hinum
      exact absurd ⟨hj, hdev, hinum⟩ (hnone j)
    · rw [update_of_ne hki] at hk hdev hinum
      exact h j k hj hk hdev hinum

end Xv6Ringbuf.Fs
