import Xv6Ringbuf.User.Ringbuf

namespace Xv6Ringbuf.User

open Interleave

@[simp] theorem toNat_USR_RINGBUF_SIZE : USR_RINGBUF_SIZE.toNat = 16 := by decide

@[simp] theorem toNat_MAX_RINGBUF_BYTES : MAX_RINGBUF_BYTES.toNat = 65536 := by decide

theorem toNat_uint64OfInt (value : Int32) :
    ((uint64OfInt value).toNat : Int) = value.toInt % 2 ^ 64 := by
  have hbits : (uint64OfInt value).toNat = value.toInt64.toBitVec.toNat := rfl
  have hlt := value.toInt64.toBitVec.isLt
  have hint := value.toInt64.toInt_toBitVec
  rw [Int32.toInt_toInt64] at hint
  rw [hbits, ← hint, BitVec.toInt_eq_toNat_bmod, show (2 : Int) ^ 64 = ((2 ^ 64 : Nat) : Int) by rfl,
    Int.bmod_emod]
  omega

-- A negative count becomes a huge unsigned number, so a comparison with a
-- small bound also tests the sign.
theorem uint64OfInt_le_iff (value : Int32) (bound : UInt64) (hbound : bound.toNat < 2 ^ 63) :
    uint64OfInt value ≤ bound ↔ 0 ≤ value.toInt ∧ value.toInt ≤ bound.toNat := by
  have h := toNat_uint64OfInt value
  have hlo := value.le_toInt
  have hhi := value.toInt_lt
  rw [UInt64.le_iff_toNat_le]
  omega

theorem toNat_uint64OfInt_of_nonneg (value : Int32) (h : 0 ≤ value.toInt) :
    (uint64OfInt value).toNat = value.toInt.toNat := by
  have h' := toNat_uint64OfInt value
  have hhi := value.toInt_lt
  omega

theorem toInt_intOfUint64 (value : UInt64) (h : value.toNat < 2 ^ 31) :
    (intOfUint64 value).toInt = value.toNat := by
  have hbits : value.toInt64.toInt = value.toBitVec.toInt := rfl
  have hint : value.toInt64.toInt = value.toNat := by
    rw [hbits, BitVec.toInt_eq_toNat_of_lt]
    · rfl
    · change 2 * value.toNat < 2 ^ 64
      omega
  unfold intOfUint64
  rw [Int64.toInt_toInt32, hint]
  apply Int.bmod_eq_of_le <;> omega

def entryOf (addr : UInt64) : UserRingBuf :=
  ⟨addr - (2 * USR_RINGBUF_SIZE - 1) * PGSIZE,
    addr - (2 * USR_RINGBUF_SIZE - 1) * PGSIZE - PGSIZE, 1⟩

variable {rbs rbs' : UserRingBufs} {rd : Int32} {result : Option UInt64}

theorem claimEntry_entry {addr : UInt64} (fuel i : Nat) (hbound : i + fuel ≤ 10)
    (h : claimEntry rbs addr fuel i = (rbs', rd)) (hrd : ¬rd < 0) :
    rd.toInt < 10 ∧ rbs' rd.toNatClampNeg = entryOf addr := by
  induction fuel generalizing i with
  | zero =>
    obtain ⟨-, rfl⟩ := Prod.mk.inj h
    exact absurd (by decide) hrd
  | succ fuel ih =>
    rw [claimEntry] at h
    split at h
    · obtain ⟨rfl, rfl⟩ := Prod.mk.inj h
      have hi : (Int32.ofNat i).toInt = i := Int32.toInt_ofNat_of_lt (by omega)
      have hclamp : (Int32.ofNat i).toNatClampNeg = i := by
        rw [← Int32.toNat_toInt, hi]
        rfl
      rw [hclamp, hi]
      exact ⟨by omega, by rw [Function.update_self]; rfl⟩
    · exact ih (i + 1) (by omega) h

theorem ringbufOpen_entry (h : ringbufOpen rbs result = (rbs', rd)) (hrd : ¬rd < 0) :
    rd.toInt < 10 ∧ ∃ addr, result = some addr ∧ rbs' rd.toNatClampNeg = entryOf addr := by
  cases result with
  | none =>
    obtain ⟨-, rfl⟩ := Prod.mk.inj h
    exact absurd (by decide) hrd
  | some addr =>
    obtain ⟨hlt, hentry⟩ := claimEntry_entry _ 0 (by decide) h hrd
    exact ⟨hlt, addr, rfl, hentry⟩

theorem isRdValid_ringbufOpen (h : ringbufOpen rbs result = (rbs', rd)) (hrd : ¬rd < 0) :
    isRdValid rbs' rd = 0 := by
  obtain ⟨hlt, addr, _, hentry⟩ := ringbufOpen_entry h hrd
  have hmax : ¬MAX_USR_RINGBUF < rd := by
    rw [Int32.lt_iff_toInt_lt, show MAX_USR_RINGBUF.toInt = 10 by decide]
    omega
  rw [isRdValid, if_neg]
  simp only [hentry, hrd, hmax, entryOf, false_or]
  decide

-- The number of bytes between the two counters, as the code computes it.
def occupancy (s : Ring) : Nat := (s.book.writeDone - s.book.readDone).toNat

def Ring.setRead (s : Ring) (value : UInt64) : Ring :=
  { s with book := { s.book with readDone := value } }

def Ring.setWrite (s : Ring) (value : UInt64) : Ring :=
  { s with book := { s.book with writeDone := value } }

structure WriterSide {γ : Type} (c : Contract Ring γ) : Prop where
  bound : ∀ x, c.inv x → occupancy x.1 ≤ 65536
  rely_write : ∀ x y, c.rely x y → y.1.book.writeDone = x.1.book.writeDone
  rely_drain : ∀ x y, c.rely x y → c.inv x → c.inv y → occupancy y.1 ≤ occupancy x.1

structure ReaderSide {γ : Type} (c : Contract Ring γ) : Prop where
  bound : ∀ x, c.inv x → occupancy x.1 ≤ 65536
  rely_read : ∀ x y, c.rely x y → y.1.book.readDone = x.1.book.readDone
  rely_fill : ∀ x y, c.rely x y → c.inv x → c.inv y → occupancy x.1 ≤ occupancy y.1

section Calls

variable {γ : Type} {c : Contract Ring γ} {ok : Act → Ring → Prop} {stop : Ring × γ → Prop}
  {rbs : UserRingBufs} {rd : Int32} {x : Ring × γ}

variable {α : Type} {post : α → Ring × γ → Prop} {next : UInt64 → UInt64 → Code α}

theorem load_sat (cell : Cell) {next : UInt64 → Code α}
    (h : ∀ y value, c.rely x y → c.inv y → ok (.load cell) y.1 → y.1.book.get cell = value →
      Sat exec c ok stop post (next value) y) :
    Sat exec c ok stop post (load cell >>= next) x := by
  apply Sat.bind
  intro s g hrely hinv hok
  exact ⟨s.book.get cell, s, g, rfl, c.guar_refl _, hinv, h (s, g) _ hrely hinv hok rfl⟩

-- The consumer loads its own counter first, so both values belong to the state
-- of the second load.
theorem readerLoads_sat (hside : ReaderSide c)
    (h : ∀ y, c.rely x y → c.inv y → ok (.load .writeDone) y.1 →
      Sat exec c ok stop post (next y.1.book.readDone y.1.book.writeDone) y) :
    Sat exec c ok stop post
      (load .readDone >>= fun read => load .writeDone >>= fun write => next read write) x := by
  apply load_sat
  intro y read hxy _ _ hread
  apply load_sat
  intro z write hyz hz hok hwrite
  obtain rfl : z.1.book.readDone = read := (hside.rely_read y z hyz).trans hread
  obtain rfl : z.1.book.writeDone = write := hwrite
  exact h z (c.rely_trans _ _ _ hxy hyz) hz hok

-- The producer's value of the consumer's counter may be out of date when it
-- loads its own.
theorem writerLoads_sat (h : ∀ y z, c.rely x y → c.inv y → c.rely y z → c.inv z →
      Sat exec c ok stop post (next y.1.book.readDone z.1.book.writeDone) z) :
    Sat exec c ok stop post
      (load .readDone >>= fun read => load .writeDone >>= fun write => next read write) x := by
  apply load_sat
  intro y read hxy hy _ hread
  apply load_sat
  intro z write hyz hz _ hwrite
  obtain rfl : y.1.book.readDone = read := hread
  obtain rfl : z.1.book.writeDone = write := hwrite
  exact h y z hxy hy hyz hz

theorem startRead_sat (hside : ReaderSide c) {post : UInt64 × Int32 → Ring × γ → Prop}
    (hstop : isRdValid rbs rd ≠ 0 → stop x)
    (hpost : ∀ y, c.rely x y → c.inv y → ∀ bytes : Int32, bytes.toInt = occupancy y.1 →
      post ((rbs rd.toNatClampNeg).buf +
        y.1.book.readDone % USR_RINGBUF_SIZE * PGSIZE, bytes) y) :
    Sat exec c ok stop post (ringbufStartRead rbs rd) x := by
  unfold ringbufStartRead
  split
  · rename_i hrd
    exact hstop hrd
  · apply readerLoads_sat hside
    intro y hxy hy _
    have hocc := hside.bound y hy
    apply hpost y hxy hy
    apply toInt_intOfUint64
    unfold occupancy at hocc
    omega

theorem toNat_free (hside : WriterSide c) {y z : Ring × γ} (hyz : c.rely y z) (hy : c.inv y) :
    (MAX_RINGBUF_BYTES - (z.1.book.writeDone - y.1.book.readDone)).toNat =
      65536 - occupancy y.1 := by
  have hocc := hside.bound y hy
  rw [hside.rely_write y z hyz]
  unfold occupancy at hocc ⊢
  rw [UInt64.toNat_sub, toNat_MAX_RINGBUF_BYTES]
  omega

theorem startWrite_sat (hside : WriterSide c) {post : UInt64 × Int32 → Ring × γ → Prop}
    (hstop : isRdValid rbs rd ≠ 0 → stop x)
    (hpost : ∀ y z, c.rely x y → c.inv y → c.rely y z → c.inv z →
      ∀ bytes : Int32, bytes.toInt = 65536 - occupancy y.1 →
      post ((rbs rd.toNatClampNeg).buf + z.1.book.writeDone % MAX_RINGBUF_BYTES, bytes) z) :
    Sat exec c ok stop post (ringbufStartWrite rbs rd) x := by
  unfold ringbufStartWrite
  split
  · rename_i hrd
    exact hstop hrd
  · apply writerLoads_sat
    intro y z hxy hy hyz hz
    have hocc := hside.bound y hy
    have hfree := toNat_free hside hyz hy
    apply hpost y z hxy hy hyz hz
    have hint := toInt_intOfUint64 (MAX_RINGBUF_BYTES - (z.1.book.writeDone - y.1.book.readDone))
      (by omega)
    omega

-- The store of a finish call is left to the caller, who knows what the
-- contract says about the counter that moves.
theorem finishRead_sat (hside : ReaderSide c) (n : Int32) {post : Unit → Ring × γ → Prop}
    (hstop : isRdValid rbs rd ≠ 0 → stop x)
    (hskip : ∀ y, c.rely x y → c.inv y → ok (.load .writeDone) y.1 →
      ¬(0 ≤ n.toInt ∧ n.toInt ≤ occupancy y.1 ∧ uint64OfInt n ≤ y.1.book.writeDone) → post () y)
    (hstore : ∀ y z, c.rely x y → c.inv y → c.rely y z → c.inv z → ok (.load .writeDone) y.1 →
      0 ≤ n.toInt → n.toInt ≤ occupancy y.1 → uint64OfInt n ≤ y.1.book.writeDone →
      ∃ g', c.guar z (z.1.setRead (z.1.book.readDone + uint64OfInt n), g') ∧
        c.inv (z.1.setRead (z.1.book.readDone + uint64OfInt n), g') ∧
        post () (z.1.setRead (z.1.book.readDone + uint64OfInt n), g')) :
    Sat exec c ok stop post (ringbufFinishRead rbs rd n) x := by
  unfold ringbufFinishRead
  split
  · rename_i hrd
    exact hstop hrd
  · apply readerLoads_sat hside
    intro y hxy hy hok
    have hocc := hside.bound y hy
    have hle := uint64OfInt_le_iff n (y.1.book.writeDone - y.1.book.readDone) (by
      unfold occupancy at hocc
      omega)
    split
    · rename_i hlt
      apply hskip y hxy hy hok
      rintro ⟨hn, hnocc, _⟩
      exact absurd (hle.mpr ⟨hn, hnocc⟩) (UInt64.not_le.mpr hlt)
    · rename_i hlt
      obtain ⟨hn, hnocc⟩ := hle.mp (UInt64.not_lt.mp hlt)
      split
      · rename_i hnw
        intro s g hyz hz _
        obtain ⟨g', hguar, hinv, hpost⟩ := hstore y (s, g) hxy hy hyz hz hok hn hnocc hnw
        have hr : s.book.readDone = y.1.book.readDone := hside.rely_read y (s, g) hyz
        rw [hr] at hguar hinv hpost
        exact ⟨(), _, g', rfl, hguar, hinv, hpost⟩
      · rename_i hnw
        exact hskip y hxy hy hok fun h => hnw h.2.2

theorem finishWrite_sat (hside : WriterSide c) (n : Int32) {post : Unit → Ring × γ → Prop}
    (hstop : isRdValid rbs rd ≠ 0 → stop x)
    (hexit : ∀ y z, c.rely x y → c.inv y → c.rely y z → c.inv z →
      ¬(0 ≤ n.toInt ∧ n.toInt + occupancy y.1 ≤ 65536) → stop z)
    (hstore : ∀ y, c.rely x y → c.inv y → 0 ≤ n.toInt → n.toInt + occupancy y.1 ≤ 65536 →
      ∃ g', c.guar y (y.1.setWrite (y.1.book.writeDone + uint64OfInt n), g') ∧
        c.inv (y.1.setWrite (y.1.book.writeDone + uint64OfInt n), g') ∧
        post () (y.1.setWrite (y.1.book.writeDone + uint64OfInt n), g')) :
    Sat exec c ok stop post (ringbufFinishWrite rbs rd n) x := by
  unfold ringbufFinishWrite
  split
  · rename_i hrd
    exact hstop hrd
  · apply writerLoads_sat
    intro y z hxy hy hyz hz
    have hfree := toNat_free hside hyz hy
    have hle := uint64OfInt_le_iff n
      (MAX_RINGBUF_BYTES - (z.1.book.writeDone - y.1.book.readDone)) (by omega)
    have hocc := hside.bound y hy
    split
    · rename_i hlt
      apply hexit y z hxy hy hyz hz
      rintro ⟨hn, hnocc⟩
      exact absurd (hle.mpr ⟨hn, by omega⟩) (UInt64.not_le.mpr hlt)
    · rename_i hlt
      obtain ⟨hn, hnocc⟩ := hle.mp (UInt64.not_lt.mp hlt)
      intro s g hzs hs _
      have hys := c.rely_trans _ _ _ hyz hzs
      have hdrain := hside.rely_drain y (s, g) hys hy hs
      have hw : s.book.writeDone = z.1.book.writeDone := hside.rely_write z (s, g) hzs
      obtain ⟨g', hguar, hinv, hpost⟩ := hstore (s, g) (c.rely_trans _ _ _ hxy hys) hs hn
        (by simp only at hdrain ⊢; omega)
      rw [hw] at hguar hinv hpost
      exact ⟨(), _, g', rfl, hguar, hinv, hpost⟩

end Calls

end Xv6Ringbuf.User
