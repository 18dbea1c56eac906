import Xv6Ringbuf.User.Calls

namespace Xv6Ringbuf.User.Bench

open Interleave Function

def SIZE : Int32 := 10 * 1024 * 1024

def fill : UInt8 := 'm'.toUInt8

def fillBuffers : Nat → (Nat → UInt8) × (Nat → UInt8)
  | 0 => (fun _ => 0, fun _ => 0)
  | i + 1 =>
    let (writeBuf, readBuf) := fillBuffers i
    (update writeBuf i fill, update readBuf i 'g'.toUInt8)

-- `memcpy` out of a private array of `SIZE` bytes. An index outside the array
-- ends the process.
def memcpyToRing (buf dst : UInt64) (array : Nat → UInt8) : List Nat → Code Unit
  | [] => return ()
  | i :: rest =>
    if i < SIZE.toInt.toNat then do
      storeByte buf (dst + UInt64.ofNat i) (array i)
      memcpyToRing buf dst array rest
    else .halt

-- `memcpy` into the private array from index `off` on.
def memcpyFromRing (buf src : UInt64) (off : Nat) :
    List Nat → (Nat → UInt8) → Code (Nat → UInt8)
  | [], array => return array
  | i :: rest, array =>
    if off + i < SIZE.toInt.toNat then do
      let byte ← loadByte buf (src + UInt64.ofNat i)
      memcpyFromRing buf src off rest (update array (off + i) byte)
    else .halt

-- One round of the child's loop. `writeBuf` is the address of its array, on
-- which the direction of the copy depends.
def childRound (rbs : UserRingBufs) (rd : Int32) (writeBuf : UInt64) (array : Nat → UInt8)
    (totalWrite : Int32) : Code Int32 := do
  let (writeAddr, bytes) ← ringbufStartWrite rbs rd
  if bytes ≤ 0 then return totalWrite
  else do
    memcpyToRing (rbs rd.toNatClampNeg).buf writeAddr array
      (copyOrder writeAddr writeBuf bytes.toInt.toNat)
    let totalWrite := totalWrite + bytes
    ringbufFinishWrite rbs rd bytes
    return totalWrite

def parentRound (rbs : UserRingBufs) (rd : Int32) (readBuf : UInt64)
    (totalRead : Int32) (array : Nat → UInt8) : Code (Int32 × (Nat → UInt8)) := do
  let (readAddr, bytes) ← ringbufStartRead rbs rd
  if bytes ≤ 0 then return (totalRead, array)
  else do
    let array ← memcpyFromRing (rbs rd.toNatClampNeg).buf readAddr totalRead.toInt.toNat
      (copyOrder (readBuf + uint64OfInt totalRead) readAddr bytes.toInt.toNat) array
    let totalRead := totalRead + bytes
    ringbufFinishRead rbs rd bytes
    return (totalRead, array)

-- `while (total_write < SIZE)`: the child's local state is its total.
def child (rbs : UserRingBufs) (rd : Int32) (writeBuf : UInt64) (array : Nat → UInt8) :
    Party Act Answer Ring Int32 where
  body total p := total < SIZE ∧ p = childRound rbs rd writeBuf array total
  ok := fun _ _ _ => True

-- The parent's local state is its total and its array.
def parent (rbs : UserRingBufs) (rd : Int32) (readBuf : UInt64) :
    Party Act Answer Ring (Int32 × (Nat → UInt8)) where
  body l p := l.1 < SIZE ∧ p = parentRound rbs rd readBuf l.1 l.2
  ok := fun _ _ _ => True

structure Inv (s : Ring) : Prop where
  write : 65536 ∣ s.book.writeDone.toNat
  read : 65536 ∣ s.book.readDone.toNat
  order : s.book.readDone.toNat ≤ s.book.writeDone.toNat
  room : s.book.writeDone.toNat ≤ s.book.readDone.toNat + 65536
  size : s.book.writeDone.toNat ≤ 10485760
  full : s.book.readDone.toNat < s.book.writeDone.toNat → ∀ o < 65536, s.data o = fill

variable {s : Ring} {buf addr : UInt64} {total : Nat} {done : List Nat} {x y : Ring × Unit}
  {array : Nat → UInt8} {stop : Ring × Unit → Prop} {n : Int32}

theorem Inv.occupancy_eq (h : Inv s) :
    occupancy s = s.book.writeDone.toNat - s.book.readDone.toNat := by
  have horder := h.order
  have hw := s.book.writeDone.toNat_lt
  unfold occupancy
  rw [UInt64.toNat_sub]
  omega

theorem Inv.occupancy_cases (h : Inv s) : occupancy s = 0 ∨ occupancy s = 65536 := by
  rw [h.occupancy_eq]
  obtain ⟨hw, hr, horder, hroom, _, _⟩ := h
  omega

def contract : Contract Ring Unit where
  inv x := Inv x.1
  rely x y := y.1.book.writeDone = x.1.book.writeDone ∧
    x.1.book.readDone.toNat ≤ y.1.book.readDone.toNat ∧ y.1.data = x.1.data
  guar x y := y.1.book.readDone = x.1.book.readDone ∧
    x.1.book.writeDone.toNat ≤ y.1.book.writeDone.toNat
  rely_refl _ := ⟨rfl, Nat.le_refl _, rfl⟩
  rely_trans _ _ _ h h' := ⟨h'.1.trans h.1, h.2.1.trans h'.2.1, h'.2.2.trans h.2.2⟩
  guar_refl _ := ⟨rfl, Nat.le_refl _⟩
  guar_trans _ _ _ h h' := ⟨h'.1.trans h.1, h.2.trans h'.2⟩

theorem writerSide : WriterSide contract where
  bound _ h := by
    rcases Inv.occupancy_cases h with h | h <;> omega
  rely_write _ _ h := h.1
  rely_drain _ _ h hx hy := by
    have hw := congrArg UInt64.toNat h.1
    have hr := h.2.1
    rw [Inv.occupancy_eq hx, Inv.occupancy_eq hy]
    omega

theorem readerSide : ReaderSide contract.flip where
  bound := writerSide.bound
  rely_read _ _ h := h.1
  rely_fill _ _ h hx hy := by
    have hr := congrArg UInt64.toNat h.1
    have hw := h.2
    rw [Inv.occupancy_eq hx, Inv.occupancy_eq hy]
    omega

theorem translate_first_page {i : Nat} (haddr : addr = buf) (hi : i < 65536) :
    translate buf (addr + UInt64.ofNat i) = some i := by
  have hoff : (addr + UInt64.ofNat i - buf).toNat = i := by
    rw [haddr, UInt64.add_comm, UInt64.add_sub_cancel, UInt64.toNat_ofNat']
    omega
  unfold translate
  rw [hoff, toNat_MAX_RINGBUF_BYTES, if_pos (by omega)]
  congr 1
  omega

theorem writeAddr_eq (buf : UInt64) (h : Inv s) :
    buf + s.book.writeDone % MAX_RINGBUF_BYTES = buf := by
  have hw := h.write
  have hzero : s.book.writeDone % MAX_RINGBUF_BYTES = 0 := by
    apply UInt64.toNat_inj.mp
    rw [UInt64.toNat_mod, toNat_MAX_RINGBUF_BYTES]
    simpa using Nat.mod_eq_zero_of_dvd hw
  rw [hzero, UInt64.add_zero]

theorem readAddr_eq (buf : UInt64) (h : Inv s) :
    buf + s.book.readDone % USR_RINGBUF_SIZE * PGSIZE = buf := by
  have hr := h.read
  have hzero : s.book.readDone % USR_RINGBUF_SIZE = 0 := by
    apply UInt64.toNat_inj.mp
    rw [UInt64.toNat_mod, toNat_USR_RINGBUF_SIZE]
    simp only [UInt64.toNat_zero]
    omega
  rw [hzero, UInt64.zero_mul, UInt64.add_zero]

theorem mem_copyOrder (dst src : UInt64) (n i : Nat) : i ∈ copyOrder dst src n ↔ i < n := by
  unfold copyOrder
  split <;> simp

-- While the child copies, the ring is empty and the offsets in `done` hold
-- the fill byte.
structure Filling (total : Nat) (done : List Nat) (x : Ring × Unit) : Prop where
  write : x.1.book.writeDone.toNat = total
  empty : x.1.book.readDone.toNat = total
  bytes : ∀ i ∈ done, x.1.data i = fill

theorem Filling.stable (h : Filling total done x) (hxy : contract.rely x y) (hy : contract.inv y) :
    Filling total done y := by
  obtain ⟨hw, hr, hdata⟩ := hxy
  have hwrite := h.write
  have hempty := h.empty
  have horder := Inv.order hy
  rw [hw] at horder
  exact ⟨by rw [hw]; exact hwrite, by omega, by rw [hdata]; exact h.bytes⟩

theorem memcpyToRing_sat {post : Unit → Ring × Unit → Prop} (haddr : addr = buf)
    (harray : ∀ i < 10485760, array i = fill) (order done : List Nat) (horder : ∀ i ∈ order, i < 65536)
    (x : Ring × Unit) (hx : Filling total done x)
    (hpost : ∀ y, Filling total (order ++ done) y → post () y) :
    Sat exec contract (fun _ _ => True) stop post (memcpyToRing buf addr array order) x := by
  induction order generalizing done x with
  | nil => exact hpost x hx
  | cons i rest ih =>
    have hi : i < 65536 := horder i (by simp)
    have hsize : i < SIZE.toInt.toNat := Nat.lt_trans hi (by decide)
    have hbyte : array i = fill := harray i (by omega)
    simp only [memcpyToRing, if_pos hsize]
    apply Sat.bind
    intro s g hrely hinv _
    have hfill := hx.stable hrely hinv
    refine ⟨(), { s with data := update s.data i (array i) }, g, ?_,
      ⟨rfl, Nat.le_refl _⟩, ?_, ?_⟩
    · change Option.map _ (translate buf (addr + UInt64.ofNat i)) = _
      rw [translate_first_page haddr hi]
      rfl
    · have hs : Inv s := hinv
      refine ⟨hs.write, hs.read, hs.order, hs.room, hs.size, ?_⟩
      intro hlt
      exact absurd (hfill.empty.trans hfill.write.symm) (Nat.ne_of_lt hlt)
    · apply ih (i :: done) (fun j hj => horder j (List.mem_cons_of_mem i hj))
      · refine ⟨hfill.write, hfill.empty, ?_⟩
        intro j hj
        by_cases hji : j = i
        · subst hji
          simpa using hbyte
        · simp only [update_of_ne hji]
          exact hfill.bytes j ((List.mem_cons.mp hj).resolve_left hji)
      · intro y hy
        apply hpost y
        refine ⟨hy.write, hy.empty, fun j hj => hy.bytes j ?_⟩
        simp only [List.mem_append, List.mem_cons] at hj ⊢
        tauto

-- While the parent copies, the ring is full and its array holds the fill byte
-- below its total and at the offsets in `done` above it.
structure Copying (total : Nat) (array : Nat → UInt8) (done : List Nat) (x : Ring × Unit) :
    Prop where
  read : x.1.book.readDone.toNat = total
  full : x.1.book.writeDone.toNat = total + 65536
  below : ∀ i < total, array i = fill
  bytes : ∀ i ∈ done, array (total + i) = fill

theorem Copying.stable (h : Copying total array done x) (hxy : contract.flip.rely x y)
    (hy : contract.flip.inv y) :
    Copying total array done y := by
  obtain ⟨hr, hw⟩ := hxy
  have hread := h.read
  have hfull := h.full
  have hroom := Inv.room hy
  rw [hr] at hroom
  exact ⟨by rw [hr]; exact hread, by omega, h.below, h.bytes⟩

theorem memcpyFromRing_sat {post : (Nat → UInt8) → Ring × Unit → Prop} (haddr : addr = buf)
    (htotal : total + 65536 ≤ 10485760) (order done : List Nat) (array : Nat → UInt8)
    (horder : ∀ i ∈ order, i < 65536) (x : Ring × Unit) (hx : Copying total array done x)
    (hpost : ∀ array y, Copying total array (order ++ done) y → post array y) :
    Sat exec contract.flip (fun _ _ => True) stop post
      (memcpyFromRing buf addr total order array) x := by
  induction order generalizing done array x with
  | nil => exact hpost array x hx
  | cons i rest ih =>
    have hi : i < 65536 := horder i (by simp)
    have hSIZE : SIZE.toInt.toNat = 10485760 := by decide
    simp only [memcpyFromRing, if_pos (show total + i < SIZE.toInt.toNat by omega)]
    apply Sat.bind
    intro s g hrely hinv _
    have hcopy := hx.stable hrely hinv
    refine ⟨s.data i, s, g, ?_, contract.flip.guar_refl _, hinv, ?_⟩
    · change Option.map _ (translate buf (addr + UInt64.ofNat i)) = _
      rw [translate_first_page haddr hi]
      rfl
    · have hbyte : s.data i = fill := by
        apply Inv.full hinv _ i hi
        have hread := hcopy.read
        have hfull := hcopy.full
        omega
      apply ih (i :: done) _ (fun j hj => horder j (List.mem_cons_of_mem i hj))
      · refine ⟨hcopy.read, hcopy.full, ?_, ?_⟩
        · intro j hj
          rw [update_of_ne (by omega)]
          exact hcopy.below j hj
        · intro j hj
          by_cases hji : j = i
          · subst hji
            simpa using hbyte
          · rw [update_of_ne (by omega)]
            exact hcopy.bytes j ((List.mem_cons.mp hj).resolve_left hji)
      · intro array y hy
        apply hpost array y
        refine ⟨hy.read, hy.full, hy.below, fun j hj => hy.bytes j ?_⟩
        simp only [List.mem_append, List.mem_cons] at hj ⊢
        tauto

theorem inv_setWrite (h : Inv s) (hfill : Filling total done (s, ())) (hn : n.toInt = 65536)
    (htotal : total < 10485760) (hdone : ∀ i < 65536, i ∈ done) :
    Inv (s.setWrite (s.book.writeDone + uint64OfInt n)) ∧
      (s.setWrite (s.book.writeDone + uint64OfInt n)).book.writeDone.toNat = total + 65536 := by
  have hw : s.book.writeDone.toNat = total := hfill.write
  have hr : s.book.readDone.toNat = total := hfill.empty
  have hdvd := h.write
  have hwrite : (s.book.writeDone + uint64OfInt n).toNat = total + 65536 := by
    rw [UInt64.toNat_add, toNat_uint64OfInt_of_nonneg n (by omega)]
    omega
  refine ⟨?_, hwrite⟩
  constructor <;> simp only [Ring.setWrite, hwrite, hr]
  · omega
  · omega
  · omega
  · omega
  · omega
  · exact fun _ o ho => hfill.bytes o (hdone o ho)

theorem inv_setRead (h : Inv s) (hcopy : Copying total array done (s, ())) (hn : n.toInt = 65536) :
    Inv (s.setRead (s.book.readDone + uint64OfInt n)) ∧
      (s.setRead (s.book.readDone + uint64OfInt n)).book.readDone.toNat = total + 65536 := by
  have hr : s.book.readDone.toNat = total := hcopy.read
  have hw : s.book.writeDone.toNat = total + 65536 := hcopy.full
  have hdvd := h.read
  have hsize := h.size
  have hread : (s.book.readDone + uint64OfInt n).toNat = total + 65536 := by
    rw [UInt64.toNat_add, toNat_uint64OfInt_of_nonneg n (by omega)]
    omega
  refine ⟨?_, hread⟩
  constructor <;> simp only [Ring.setRead, hread, hw] <;> omega

def ChildLoop (total : Int32) (x : Ring × Unit) : Prop :=
  total.toInt = x.1.book.writeDone.toNat

def ParentLoop (l : Int32 × (Nat → UInt8)) (x : Ring × Unit) : Prop :=
  l.1.toInt = x.1.book.readDone.toNat ∧ ∀ i < x.1.book.readDone.toNat, l.2 i = fill

theorem SIZE_toInt : SIZE.toInt = 10485760 := by decide

theorem toInt_add_ring (total bytes : Int32) (hnonneg : 0 ≤ total.toInt)
    (hle : total.toInt ≤ 10485760) (hbytes : bytes.toInt = 65536) :
    (total + bytes).toInt = total.toInt + 65536 := by
  rw [Int32.toInt_add, hbytes]
  apply Int.bmod_eq_of_le <;> omega

theorem child_keeps (rbs : UserRingBufs) (rd : Int32) (writeBuf : UInt64) (array : Nat → UInt8)
    (hrd : isRdValid rbs rd = 0) (harray : ∀ i < 10485760, array i = fill) :
    Keeps exec contract (child rbs rd writeBuf array) ChildLoop (fun _ => False) where
  loop_stable _ _ _ h hxy _ := by
    simpa only [ChildLoop, hxy.1] using h
  stop_stable _ _ h _ _ := h
  body total p x hloop hx hbody := by
    obtain ⟨hlt, rfl⟩ := hbody
    rw [Int32.lt_iff_toInt_lt, SIZE_toInt] at hlt
    unfold childRound
    apply Sat.bind
    apply startWrite_sat writerSide (fun h => h hrd)
    intro y z hxy hy hyz hz bytes hbytes
    have hloop' : total.toInt = z.1.book.writeDone.toNat := by
      rw [hyz.1, hxy.1]
      exact hloop
    have hocc := Inv.occupancy_cases hy
    have hdrain := writerSide.rely_drain y z hyz hy hz
    simp only
    split
    · exact hloop'
    · rename_i hpos
      rw [Int32.le_iff_toInt_le, Int32.toInt_zero] at hpos
      -- Some space means an empty ring, so the window is the whole ring.
      have hring : bytes.toInt = 65536 := by omega
      have hempty : Filling z.1.book.writeDone.toNat [] z := by
        have h := Inv.occupancy_eq hz
        have horder := Inv.order hz
        exact ⟨rfl, by omega, by simp⟩
      have hwindow : ∀ dst src i, i ∈ copyOrder dst src bytes.toInt.toNat ↔ i < 65536 := by
        intro dst src i
        rw [mem_copyOrder, hring]
        rfl
      apply Sat.bind
      apply memcpyToRing_sat (writeAddr_eq _ hz) harray _ [] (fun i => (hwindow _ _ i).mp) z hempty
      intro u hu
      apply Sat.bind
      apply finishWrite_sat writerSide bytes (fun h => h hrd)
      · intro v _ huv hv _ _ hfits
        have hv' := hu.stable huv hv
        have hvocc := Inv.occupancy_eq hv
        rw [hv'.write, hv'.empty] at hvocc
        omega
      · intro v huv hv _ _
        have hv' := hu.stable huv hv
        obtain ⟨hinv, hwrite⟩ := inv_setWrite hv hv' hring (by omega)
          (fun i hi => List.mem_append_left _ ((hwindow _ _ i).mpr hi))
        have hw := hv'.write
        refine ⟨(), ⟨rfl, ?_⟩, hinv, ?_⟩
        · simp only [hwrite]
          omega
        · show (total + bytes).toInt = _
          rw [hwrite, toInt_add_ring total bytes (by omega) (by omega) hring]
          omega

theorem parent_keeps (rbs : UserRingBufs) (rd : Int32) (readBuf : UInt64)
    (hrd : isRdValid rbs rd = 0) :
    Keeps exec contract.flip (parent rbs rd readBuf) ParentLoop (fun _ => False) where
  loop_stable _ _ _ h hxy _ := by
    obtain ⟨hr, _⟩ := hxy
    simpa only [ParentLoop, hr] using h
  stop_stable _ _ h _ _ := h
  body l p x hloop hx hbody := by
    obtain ⟨hlt, rfl⟩ := hbody
    rw [Int32.lt_iff_toInt_lt, SIZE_toInt] at hlt
    unfold parentRound
    apply Sat.bind
    apply startRead_sat readerSide (fun h => h hrd)
    intro y hxy hy bytes hbytes
    have hloop' : ParentLoop l y := by
      obtain ⟨hr, _⟩ := hxy
      simpa only [ParentLoop, hr] using hloop
    obtain ⟨htotal, hbelow⟩ := hloop'
    have hocc := Inv.occupancy_cases hy
    simp only
    split
    · exact ⟨htotal, hbelow⟩
    · rename_i hpos
      rw [Int32.le_iff_toInt_le, Int32.toInt_zero] at hpos
      -- Some bytes mean a full ring.
      have hring : bytes.toInt = 65536 := by omega
      have hnat : l.1.toInt.toNat = y.1.book.readDone.toNat := by omega
      have hsize := Inv.size hy
      have hfull : Copying y.1.book.readDone.toNat l.2 [] y := by
        have h := Inv.occupancy_eq hy
        exact ⟨rfl, by omega, hbelow, by simp⟩
      have hwindow : ∀ dst src i, i ∈ copyOrder dst src bytes.toInt.toNat ↔ i < 65536 := by
        intro dst src i
        rw [mem_copyOrder, hring]
        rfl
      have hw := hfull.full
      rw [hnat]
      apply Sat.bind
      apply memcpyFromRing_sat (readAddr_eq _ hy) (by omega) _ [] l.2
        (fun i => (hwindow _ _ i).mp) y hfull
      intro array u hu
      apply Sat.bind
      apply finishRead_sat readerSide bytes (fun h => h hrd)
      · intro v huv hv _ hskip
        have hv' := hu.stable huv hv
        have hvocc := Inv.occupancy_eq hv
        rw [hv'.read, hv'.full] at hvocc
        refine absurd ⟨by omega, by omega, ?_⟩ hskip
        rw [UInt64.le_iff_toNat_le, toNat_uint64OfInt_of_nonneg bytes (by omega), hv'.full]
        omega
      · intro v v' huv hv hvv' hv'inv _ _ _ _
        have hv' := (hu.stable huv hv).stable hvv' hv'inv
        obtain ⟨hinv, hread⟩ := inv_setRead hv'inv hv' hring
        have hr := hv'.read
        refine ⟨(), ⟨rfl, ?_, rfl⟩, hinv, ?_, ?_⟩
        · simp only [hread]
          omega
        · show (l.1 + bytes).toInt = _
          rw [hread, toInt_add_ring l.1 bytes (by omega) (by omega) hring]
          omega
        · rw [hread]
          intro i hi
          by_cases hlow : i < y.1.book.readDone.toNat
          · exact hv'.below i hlow
          · have hbyte := hv'.bytes (i - y.1.book.readDone.toNat)
              (List.mem_append_left _ ((hwindow _ _ _).mpr (by omega)))
            rwa [Nat.add_sub_cancel' (by omega)] at hbyte

theorem fillBuffers_write (n i : Nat) (hi : i < n) : (fillBuffers n).1 i = fill := by
  induction n with
  | zero => omega
  | succ n ih =>
    simp only [fillBuffers]
    by_cases hin : i = n
    · rw [hin, update_self]
    · rw [update_of_ne hin]
      exact ih (by omega)

theorem total_le_SIZE {total : Int32} {counter : UInt64} (h : total.toInt = counter.toNat)
    (hle : counter.toNat ≤ 10485760) : total ≤ SIZE := by
  rw [Int32.le_iff_toInt_le, SIZE_toInt]
  omega

def start (array : Nat → UInt8) : Pair Act Answer Ring Int32 (Int32 × (Nat → UInt8)) :=
  ⟨fresh fun _ => 0, .head 0, .head (0, array)⟩

theorem reach_keeps {rbsW rbsR : UserRingBufs} {rdW rdR : Int32} {writeBuf readBuf : UInt64}
    {arrayW arrayR : Nat → UInt8} (hrdW : isRdValid rbsW rdW = 0) (hrdR : isRdValid rbsR rdR = 0)
    (hfill : ∀ i < 10485760, arrayW i = fill)
    {st : Pair Act Answer Ring Int32 (Int32 × (Nat → UInt8))}
    (hreach : Reach exec (child rbsW rdW writeBuf arrayW) (parent rbsR rdR readBuf)
      (start arrayR) st) :
    contract.inv (st.shared, ()) ∧
      Thread.Sat exec contract (child rbsW rdW writeBuf arrayW) ChildLoop (fun _ => False)
        st.left (st.shared, ()) ∧
      Thread.Sat exec contract.flip (parent rbsR rdR readBuf) ParentLoop (fun _ => False)
        st.right (st.shared, ()) := by
  have hinit : Inv (fresh fun _ => 0) := by
    constructor <;> simp [fresh]
  obtain ⟨⟨⟩, hsat⟩ := reach_sat (child_keeps rbsW rdW writeBuf arrayW hrdW hfill)
    (parent_keeps rbsR rdR readBuf hrdR) () hinit
    (show ChildLoop 0 _ from rfl) (show ParentLoop (0, arrayR) _ from ⟨rfl, by simp⟩) hreach
  exact hsat

-- In every interleaving of the two loops the ring is empty or full, no total
-- passes `SIZE`, and no process exits early or touches a byte outside its
-- array or the mapped pages. When both loops are over, everything has arrived.
theorem transfer_exact (rbsW rbsW' rbsR rbsR' : UserRingBufs) (addrW addrR : Option UInt64)
    (rdW rdR : Int32) (writeBuf readBuf : UInt64)
    (hopenW : ringbufOpen rbsW addrW = (rbsW', rdW)) (hrdW : ¬rdW < 0)
    (hopenR : ringbufOpen rbsR addrR = (rbsR', rdR)) (hrdR : ¬rdR < 0)
    (st : Pair Act Answer Ring Int32 (Int32 × (Nat → UInt8)))
    (hreach : Reach exec
      (child rbsW' rdW writeBuf (fillBuffers SIZE.toInt.toNat).1) (parent rbsR' rdR readBuf)
      (start (fillBuffers SIZE.toInt.toNat).2) st) :
    (65536 ∣ st.shared.book.writeDone.toNat ∧ 65536 ∣ st.shared.book.readDone.toNat ∧
      (st.shared.book.writeDone.toNat = st.shared.book.readDone.toNat ∨
        st.shared.book.writeDone.toNat = st.shared.book.readDone.toNat + 65536)) ∧
    ((∀ total, st.left = .head total → total ≤ SIZE) ∧
      (∀ total array, st.right = .head (total, array) → total ≤ SIZE)) ∧
    ((∀ l p, st.left = .run l p →
        p ≠ .halt ∧ ∀ a next, p = .act a next → (exec a st.shared).isSome) ∧
      (∀ l p, st.right = .run l p →
        p ≠ .halt ∧ ∀ a next, p = .act a next → (exec a st.shared).isSome)) ∧
    (∀ totalWrite totalRead array,
      st.left = .head totalWrite → st.right = .head (totalRead, array) →
      ¬totalWrite < SIZE → ¬totalRead < SIZE →
      totalWrite = SIZE ∧ totalRead = SIZE ∧ ∀ i < SIZE.toInt.toNat, array i = fill) := by
  have hSIZE : SIZE.toInt.toNat = 10485760 := by decide
  obtain ⟨hinv, hleft, hright⟩ := reach_keeps (isRdValid_ringbufOpen hopenW hrdW)
    (isRdValid_ringbufOpen hopenR hrdR)
    (fun i hi => fillBuffers_write (SIZE.toInt.toNat) i (by rw [hSIZE]; exact hi)) hreach
  have hs : Inv st.shared := hinv
  obtain ⟨hw, hr, horder, hroom, hsize, -⟩ := hs
  refine ⟨⟨hw, hr, by omega⟩, ⟨?_, ?_⟩, ⟨?_, ?_⟩, ?_⟩
  · intro total htotal
    rw [htotal] at hleft
    exact total_le_SIZE hleft hsize
  · intro total array htotal
    rw [htotal] at hright
    exact total_le_SIZE hright.1 (horder.trans hsize)
  · intro l p hl
    obtain ⟨hhalt, hfault⟩ := hleft.not_stuck hinv hl
    exact ⟨hhalt, fun a next hp => hfault a next hp trivial⟩
  · intro l p hl
    obtain ⟨hhalt, hfault⟩ := hright.not_stuck hinv hl
    exact ⟨hhalt, fun a next hp => hfault a next hp trivial⟩
  · intro totalWrite totalRead array hl hr' hendW hendR
    rw [hl] at hleft
    rw [hr'] at hright
    obtain ⟨htotal, harray⟩ := hright
    have hwrite : totalWrite.toInt = st.shared.book.writeDone.toNat := hleft
    have hread : totalRead.toInt = st.shared.book.readDone.toNat := htotal
    rw [Int32.lt_iff_toInt_lt, SIZE_toInt] at hendW hendR
    refine ⟨?_, ?_, fun i hi => harray i ?_⟩
    · rw [← Int32.toInt_inj, SIZE_toInt]
      omega
    · rw [← Int32.toInt_inj, SIZE_toInt]
      omega
    · simp only
      omega

def unopened : UserRingBufs := fun _ => ⟨0, 0, 0⟩

def opened : UserRingBufs := (ringbufOpen unopened (some 0x3ffffdd000)).1

theorem eval_memcpyToRing (buf : UInt64) (array : Nat → UInt8) (order : List Nat)
    (horder : ∀ i ∈ order, i < 65536) (s : Ring) :
    (memcpyToRing buf buf array order).eval exec s =
      some ((), { s with data := fun o => if o ∈ order then array o else s.data o }) := by
  induction order generalizing s with
  | nil => simp [memcpyToRing, Prog.eval, pure]
  | cons i rest ih =>
    have hi : i < 65536 := horder i List.mem_cons_self
    rw [memcpyToRing, if_pos (Nat.lt_trans hi (by decide)), Prog.eval_bind]
    have hstore : (storeByte buf (buf + UInt64.ofNat i) (array i)).eval exec s =
        some ((), { s with data := update s.data i (array i) }) := by
      refine (Prog.eval_perform ..).trans ?_
      change Option.map _ (translate buf (buf + UInt64.ofNat i)) = _
      rw [translate_first_page rfl hi]
      rfl
    rw [hstore, Option.bind_some, ih fun j hj => horder j (List.mem_cons_of_mem i hj)]
    congr 3
    funext o
    grind [update_apply]

theorem eval_memcpyFromRing (buf : UInt64) (order : List Nat) (horder : ∀ i ∈ order, i < 65536)
    (array : Nat → UInt8) (s : Ring) :
    (memcpyFromRing buf buf 0 order array).eval exec s =
      some (fun o => if o ∈ order then s.data o else array o, s) := by
  induction order generalizing array with
  | nil => simp [memcpyFromRing, Prog.eval, pure]
  | cons i rest ih =>
    have hi : i < 65536 := horder i List.mem_cons_self
    have hsize : 0 + i < SIZE.toInt.toNat := by
      rw [Nat.zero_add]
      exact Nat.lt_trans hi (by decide)
    have hload : (loadByte buf (buf + UInt64.ofNat i)).eval exec s = some (s.data i, s) := by
      refine (Prog.eval_perform ..).trans ?_
      change Option.map _ (translate buf (buf + UInt64.ofNat i)) = _
      rw [translate_first_page rfl hi]
      rfl
    rw [memcpyFromRing, if_pos hsize, Prog.eval_bind, hload, Option.bind_some,
      ih fun j hj => horder j (List.mem_cons_of_mem i hj)]
    congr 3
    funext o
    grind [update_apply]

-- The ring after the first round of the child.
def fullRing : Ring := ⟨⟨0, 65536⟩, fun o => if o < 65536 then fill else 0, [], []⟩

theorem eval_childRound {array : Nat → UInt8} (harray : ∀ i < 65536, array i = fill) :
    (childRound opened 0 0x1000 array 0).eval exec (fresh fun _ => 0) = some (65536, fullRing) := by
  have hstart : (ringbufStartWrite opened 0).eval exec (fresh fun _ => 0) =
      some (((opened 0).buf, 65536), fresh fun _ => 0) := rfl
  have hwindow : ∀ i, i ∈ copyOrder (opened 0).buf 0x1000 (65536 : Int32).toInt.toNat ↔ i < 65536 :=
    fun i => mem_copyOrder ..
  rw [childRound, Prog.eval_bind, hstart, Option.bind_some]
  dsimp only
  rw [if_neg (by decide), Prog.eval_bind, show (0 : Int32).toNatClampNeg = 0 by rfl,
    eval_memcpyToRing _ _ _ fun i => (hwindow i).mp, Option.bind_some]
  have hdata : (fun o => if o ∈ copyOrder (opened 0).buf 0x1000 (65536 : Int32).toInt.toNat then
      array o else (fresh fun _ => 0).data o) = fullRing.data := by
    funext o
    rw [fullRing, fresh]
    grind
  rw [hdata]
  rfl

theorem eval_finishRead {rbs : UserRingBufs} {rd n : Int32} {s : Ring} (hrd : isRdValid rbs rd = 0)
    (hfits : ¬s.book.writeDone - s.book.readDone < uint64OfInt n)
    (hle : uint64OfInt n ≤ s.book.writeDone) :
    (ringbufFinishRead rbs rd n).eval exec s =
      some ((), s.setRead (s.book.readDone + uint64OfInt n)) := by
  rw [ringbufFinishRead, if_neg (not_not.mpr hrd)]
  change Prog.eval exec (if s.book.writeDone - s.book.readDone < uint64OfInt n then _
    else if uint64OfInt n ≤ s.book.writeDone then _ else _) s = _
  rw [if_neg hfits, if_pos hle]
  rfl

theorem eval_parentRound (array : Nat → UInt8) :
    (parentRound opened 0 0x1000 0 array).eval exec fullRing =
      some ((65536, fun o => if o < 65536 then fill else array o),
        { fullRing with book := ⟨65536, 65536⟩ }) := by
  have hstart : (ringbufStartRead opened 0).eval exec fullRing =
      some (((opened 0).buf, 65536), fullRing) := rfl
  have hwindow : ∀ dst i, i ∈ copyOrder dst (opened 0).buf (65536 : Int32).toInt.toNat ↔ i < 65536 :=
    fun dst i => mem_copyOrder ..
  rw [parentRound, Prog.eval_bind, hstart, Option.bind_some]
  dsimp only
  rw [if_neg (by decide), Prog.eval_bind, show (0 : Int32).toNatClampNeg = 0 by rfl,
    show (0 : Int32).toInt.toNat = 0 by rfl, eval_memcpyFromRing _ _ fun i => (hwindow _ i).mp,
    Option.bind_some]
  have hcopy : ∀ dst, (fun o => if o ∈ copyOrder dst (opened 0).buf (65536 : Int32).toInt.toNat then
      fullRing.data o else array o) = fun o => if o < 65536 then fill else array o := by
    intro dst
    funext o
    rw [fullRing]
    grind
  have hfinish : (ringbufFinishRead opened 0 65536).eval exec fullRing =
      some ((), fullRing.setRead (0 + uint64OfInt 65536)) :=
    eval_finishRead (by decide) (by decide) (by decide)
  rw [hcopy, Prog.eval_bind, hfinish, Option.bind_some]
  rfl

theorem reach_first_round (arrayW arrayR : Nat → UInt8) (hfill : ∀ i < 65536, arrayW i = fill) :
    Reach exec (child opened 0 0x1000 arrayW) (parent opened 0 0x1000) (start arrayR)
      ⟨{ fullRing with book := ⟨65536, 65536⟩ }, .head 65536,
        .head (65536, fun o => if o < 65536 then fill else arrayR o)⟩ := by
  have hsize : (0 : Int32) < SIZE := by decide
  have hchild : (child opened 0 0x1000 arrayW).body 0 (childRound opened 0 0x1000 arrayW 0) :=
    ⟨hsize, rfl⟩
  have hparent : (parent opened 0 0x1000).body (0, arrayR) (parentRound opened 0 0x1000 0 arrayR) :=
    ⟨hsize, rfl⟩
  exact (reach_left hchild (Prog.permits_of_forall (fun _ _ => trivial) _ _)
    (eval_childRound hfill)).trans
    (reach_right hparent (Prog.permits_of_forall (fun _ _ => trivial) _ _) (eval_parentRound arrayR))

-- The child hands over the whole ring, and the parent reads it.
theorem transfer_exact_first_round : ∃ st : Pair Act Answer Ring Int32 (Int32 × (Nat → UInt8)),
    Reach exec (child opened 0 0x1000 (fillBuffers SIZE.toInt.toNat).1) (parent opened 0 0x1000)
      (start (fillBuffers SIZE.toInt.toNat).2) st ∧
    (∃ array, st.right = .head (65536, array) ∧ ∀ i < 65536, array i = fill) ∧
    65536 ∣ st.shared.book.readDone.toNat ∧ (65536 : Int32) ≤ SIZE := by
  have hfill : ∀ i < 65536, (fillBuffers SIZE.toInt.toNat).1 i = fill :=
    fun i hi => fillBuffers_write _ i (Nat.lt_trans hi (by decide))
  have hreach := reach_first_round _ (fillBuffers SIZE.toInt.toNat).2 hfill
  obtain ⟨⟨-, hread, -⟩, ⟨-, hparent⟩, -⟩ := transfer_exact unopened opened unopened opened
    (some 0x3ffffdd000) (some 0x3ffffdd000) 0 0 0x1000 0x1000 rfl (by decide) rfl (by decide) _ hreach
  exact ⟨_, hreach, ⟨_, rfl, fun i hi => if_pos hi⟩, hread, hparent _ _ rfl⟩

end Xv6Ringbuf.User.Bench
