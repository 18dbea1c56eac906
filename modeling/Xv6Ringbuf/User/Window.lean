import Xv6Ringbuf.User.Calls

namespace Xv6Ringbuf.User.Window

open Interleave

-- What a start call returned, with the loads it was computed from.
abbrev Returned := (UInt64 × Int32) × List (Σ action, Answer action)

-- A process that calls its two functions in any order and with any counts. Its
-- local state is the result of its last start call.
inductive Writes (rbs : UserRingBufs) (rd : Int32) :
    Option Returned → Code (Option Returned) → Prop where
  | start {last} : Writes rbs rd last
      ((ringbufStartWrite rbs rd).traced >>= fun returned => return some returned)
  | finish {last} (n : Int32) : Writes rbs rd last
      (ringbufFinishWrite rbs rd n >>= fun _ => return last)

inductive Reads (rbs : UserRingBufs) (rd : Int32) :
    Option Returned → Code (Option Returned) → Prop where
  | start {last} : Reads rbs rd last
      ((ringbufStartRead rbs rd).traced >>= fun returned => return some returned)
  | finish {last} (n : Int32) : Reads rbs rd last
      (ringbufFinishRead rbs rd n >>= fun _ => return last)

def producer (rbs : UserRingBufs) (rd : Int32) : Party Act Answer Ring (Option Returned) where
  body := Writes rbs rd
  ok := fun _ _ _ => True

def consumer (rbs : UserRingBufs) (rd : Int32) : Party Act Answer Ring (Option Returned) where
  body := Reads rbs rd
  ok := fun _ _ _ => True

-- The window lies in the 32 pages from `buf` on, and its length is that of the
-- 64-bit value the call computed from the two counters it loaded.
def Sound (buf : UInt64) (length : UInt64 → UInt64 → UInt64) (returned : Returned) : Prop :=
  0 ≤ returned.1.2.toInt ∧ returned.1.2.toInt ≤ 65536 ∧
    ((returned.1.1 - buf).toNat : Int) + returned.1.2.toInt ≤ 131072 ∧
    ∃ read write : UInt64,
      returned.2 = [⟨.load .readDone, read⟩, ⟨.load .writeDone, write⟩] ∧
      returned.1.2.toInt = (length read write).toNat

def readLength (read write : UInt64) : UInt64 := write - read

def writeLength (read write : UInt64) : UInt64 := MAX_RINGBUF_BYTES - (write - read)

def contract : Contract Ring Unit where
  inv x := occupancy x.1 ≤ 65536
  rely x y := y.1.book.writeDone = x.1.book.writeDone ∧ occupancy y.1 ≤ occupancy x.1
  guar x y := y.1.book.readDone = x.1.book.readDone ∧ occupancy x.1 ≤ occupancy y.1
  rely_refl _ := ⟨rfl, Nat.le_refl _⟩
  rely_trans _ _ _ h h' := ⟨h'.1.trans h.1, h'.2.trans h.2⟩
  guar_refl _ := ⟨rfl, Nat.le_refl _⟩
  guar_trans _ _ _ h h' := ⟨h'.1.trans h.1, h.2.trans h'.2⟩

theorem writerSide : WriterSide contract where
  bound _ h := h
  rely_write _ _ h := h.1
  rely_drain _ _ h _ _ := h.2

theorem readerSide : ReaderSide contract.flip where
  bound _ h := h
  rely_read _ _ h := h.1
  rely_fill _ _ h _ _ := h.2

theorem occupancy_setWrite (s : Ring) (n : Int32) (hn : 0 ≤ n.toInt)
    (hfit : n.toInt + occupancy s ≤ 65536) :
    occupancy (s.setWrite (s.book.writeDone + uint64OfInt n)) = occupancy s + n.toInt.toNat := by
  have hvalue := toNat_uint64OfInt_of_nonneg n hn
  have hw := s.book.writeDone.toNat_lt
  have hr := s.book.readDone.toNat_lt
  simp only [occupancy, Ring.setWrite, UInt64.toNat_sub, UInt64.toNat_add] at hfit ⊢
  omega

theorem occupancy_setRead (s : Ring) (n : Int32) (hn : 0 ≤ n.toInt)
    (hfit : n.toInt ≤ occupancy s) :
    occupancy (s.setRead (s.book.readDone + uint64OfInt n)) = occupancy s - n.toInt.toNat := by
  have hvalue := toNat_uint64OfInt_of_nonneg n hn
  have hw := s.book.writeDone.toNat_lt
  have hr := s.book.readDone.toNat_lt
  simp only [occupancy, Ring.setRead, UInt64.toNat_sub, UInt64.toNat_add] at hfit ⊢
  omega

-- The two loads of a start call, in its order.
def loads (read write : UInt64) : List (Σ action, Answer action) :=
  [⟨.load .readDone, read⟩, ⟨.load .writeDone, write⟩]

theorem sound_of_le {buf addr read write : UInt64} {length : UInt64 → UInt64 → UInt64}
    (haddr : (addr - buf).toNat ≤ 65536) (hlength : (length read write).toNat ≤ 65536) :
    Sound buf length ((addr, intOfUint64 (length read write)), loads read write) := by
  have hint := toInt_intOfUint64 (length read write) (by omega)
  refine ⟨?_, ?_, ?_, read, write, rfl, hint⟩ <;> simp only [hint] <;> omega

theorem startWrite_sound (rbs : UserRingBufs) (rd : Int32) (x : Ring × Unit) :
    Sat exec contract (fun _ _ => True) (fun _ => True)
      (fun returned _ => Sound (rbs rd.toNatClampNeg).buf writeLength returned)
      (ringbufStartWrite rbs rd).traced x := by
  unfold ringbufStartWrite
  split
  · trivial
  · change Sat exec contract _ _ _ (load .readDone >>= fun read => load .writeDone >>= fun write =>
      Prog.ret (((rbs rd.toNatClampNeg).buf + write % MAX_RINGBUF_BYTES,
        intOfUint64 (writeLength read write)), loads read write)) x
    apply writerLoads_sat
    intro y z _ hy hyz _
    apply sound_of_le
    · rw [UInt64.add_comm, UInt64.add_sub_cancel, UInt64.toNat_mod, toNat_MAX_RINGBUF_BYTES]
      omega
    · have hfree := toNat_free writerSide hyz hy
      unfold writeLength
      omega

theorem startRead_sound (rbs : UserRingBufs) (rd : Int32) (x : Ring × Unit) :
    Sat exec contract.flip (fun _ _ => True) (fun _ => True)
      (fun returned _ => Sound (rbs rd.toNatClampNeg).buf readLength returned)
      (ringbufStartRead rbs rd).traced x := by
  unfold ringbufStartRead
  split
  · trivial
  · change Sat exec contract.flip _ _ _ (load .readDone >>= fun read => load .writeDone >>=
      fun write => Prog.ret (((rbs rd.toNatClampNeg).buf + read % USR_RINGBUF_SIZE * PGSIZE,
        intOfUint64 (readLength read write)), loads read write)) x
    apply readerLoads_sat readerSide
    intro y _ hy _
    apply sound_of_le
    · -- The page index of the window is at most 15, whatever the counter is.
      rw [UInt64.add_comm, UInt64.add_sub_cancel, UInt64.toNat_mul, UInt64.toNat_mod,
        toNat_USR_RINGBUF_SIZE, toNat_PGSIZE]
      omega
    · exact hy

-- The loop assertion of both processes: the last window, if any, is sound.
def Last (buf : UInt64) (length : UInt64 → UInt64 → UInt64) (last : Option Returned) : Prop :=
  ∀ returned, last = some returned → Sound buf length returned

theorem producer_keeps (rbs : UserRingBufs) (rd : Int32) :
    Keeps exec contract (producer rbs rd)
      (fun last _ => Last (rbs rd.toNatClampNeg).buf writeLength last) (fun _ => True) where
  loop_stable _ _ _ h _ _ := h
  stop_stable _ _ _ _ _ := trivial
  body last p x hlast hx hbody := by
    cases hbody with
    | start =>
      apply Sat.bind
      apply (startWrite_sound rbs rd x).mono
      rintro returned _ h _ ⟨⟩
      exact h
    | finish n =>
      apply Sat.bind
      apply finishWrite_sat writerSide n (fun _ => trivial)
      · intros
        trivial
      · intro y _ _ hn hfit
        have hocc := occupancy_setWrite y.1 n hn hfit
        refine ⟨(), ⟨rfl, ?_⟩, ?_, hlast⟩
        · simp only [hocc]
          omega
        · simp only [contract, hocc]
          omega

theorem consumer_keeps (rbs : UserRingBufs) (rd : Int32) :
    Keeps exec contract.flip (consumer rbs rd)
      (fun last _ => Last (rbs rd.toNatClampNeg).buf readLength last) (fun _ => True) where
  loop_stable _ _ _ h _ _ := h
  stop_stable _ _ _ _ _ := trivial
  body last p x hlast hx hbody := by
    cases hbody with
    | start =>
      apply Sat.bind
      apply (startRead_sound rbs rd x).mono
      rintro returned _ h _ ⟨⟩
      exact h
    | finish n =>
      apply Sat.bind
      apply finishRead_sat readerSide n (fun _ => trivial)
      · intros
        exact hlast
      · intro y z _ hy hyz hz _ hn hfit _
        -- The ring can only have filled up since the counters were loaded.
        have hfill := readerSide.rely_fill y z hyz hy hz
        have hocc := occupancy_setRead z.1 n hn (by omega)
        have hz' : occupancy z.1 ≤ 65536 := hz
        refine ⟨(), ⟨rfl, ?_⟩, ?_, hlast⟩
        · simp only [hocc]
          omega
        · simp only [contract, Contract.flip, hocc]
          omega

-- In every interleaving of the atomic loads and stores, called in any order
-- and with any counts, the ring is never overfull, and every window that a
-- start call returns has an exact length and lies inside the mapped pages.
theorem occupancy_and_windows (rbsW rbsR : UserRingBufs) (rdW rdR : Int32) (data : Nat → UInt8)
    (st : Pair Act Answer Ring (Option Returned) (Option Returned))
    (hreach : Reach exec (producer rbsW rdW) (consumer rbsR rdR)
      ⟨fresh data, .head none, .head none⟩ st) :
    (st.shared.book.writeDone - st.shared.book.readDone).toNat ≤ 65536 ∧
    (∀ returned, st.left = .head (some returned) →
      Sound (rbsW rdW.toNatClampNeg).buf writeLength returned) ∧
    (∀ returned, st.right = .head (some returned) →
      Sound (rbsR rdR.toNatClampNeg).buf readLength returned) := by
  have hnone : ∀ buf length, Last buf length none := by
    intro buf length returned h
    cases h
  obtain ⟨_, hinv, hleft, hright⟩ := reach_sat (producer_keeps rbsW rdW) (consumer_keeps rbsR rdR)
    () (show occupancy (fresh data) ≤ 65536 by simp [occupancy, fresh]) (hnone _ _) (hnone _ _) hreach
  refine ⟨hinv, ?_, ?_⟩
  · intro returned h
    rw [h] at hleft
    exact hleft returned rfl
  · intro returned h
    rw [h] at hright
    exact hright returned rfl

theorem occupancy_and_windows_first_write :
    Sound 0x3ffffdd000 writeLength ((0x3ffffdd000, 65536), loads 0 0) := by
  let rbs : UserRingBufs := fun _ => ⟨0x3ffffdd000, 0x3ffffdc000, 1⟩
  have hreach : Reach exec (producer rbs 0) (consumer rbs 0)
      ⟨fresh fun _ => 0, .head none, .head none⟩
      ⟨fresh fun _ => 0, .head (some ((0x3ffffdd000, 65536), loads 0 0)), .head none⟩ :=
    reach_left .start (Prog.permits_of_forall (fun _ _ => trivial) _ _) rfl
  exact (occupancy_and_windows rbs rbs 0 0 (fun _ => 0) _ hreach).2.1 _ rfl

end Xv6Ringbuf.User.Window
