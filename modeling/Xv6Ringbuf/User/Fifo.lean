import Xv6Ringbuf.User.Calls

namespace Xv6Ringbuf.User.Fifo

open Interleave Function

-- Where the producer stands between two of its programs: before a start call,
-- with a window, or with a window filled up to a count it has not handed over.
inductive ProducerState where
  | idle
  | window (addr : UInt64) (bytes : Int32)
  | stored (n : Int32)

inductive ConsumerState where
  | idle
  | window (addr : UInt64) (bytes : Int32)
  | copied (n : Int32)

def chunk (buffer : Nat → UInt8) (n : Int32) : List UInt8 :=
  (List.range n.toInt.toNat).map buffer

-- The producer stores any count up to the length of its window, byte by byte
-- and in any order, and hands over the same count.
inductive Produces (rbs : UserRingBufs) (rd : Int32) : ProducerState → Code ProducerState → Prop where
  | start : Produces rbs rd .idle
      (ringbufStartWrite rbs rd >>= fun window => return .window window.1 window.2)
  | store {addr bytes} (n : Int32) (buffer : Nat → UInt8) (order : List Nat)
      (hn : 0 ≤ n.toInt) (hle : n.toInt ≤ bytes.toInt)
      (horder : order.Perm (List.range n.toInt.toNat)) :
      Produces rbs rd (.window addr bytes) (do
        storeBytes (rbs rd.toNatClampNeg).buf addr buffer order
        Prog.perform (Act.produce (chunk buffer n))
        return .stored n)
  | finish {n} : Produces rbs rd (.stored n) (ringbufFinishWrite rbs rd n >>= fun _ => return .idle)

inductive Consumes (rbs : UserRingBufs) (rd : Int32) : ConsumerState → Code ConsumerState → Prop where
  | start : Consumes rbs rd .idle
      (ringbufStartRead rbs rd >>= fun window => return .window window.1 window.2)
  | copy {addr bytes} (n : Int32) (order : List Nat) (hn : 0 ≤ n.toInt)
      (hle : n.toInt ≤ bytes.toInt) (horder : order.Perm (List.range n.toInt.toNat)) :
      Consumes rbs rd (.window addr bytes) (do
        let buffer ← loadBytes (rbs rd.toNatClampNeg).buf addr order fun _ => 0
        Prog.perform (Act.consume (chunk buffer n))
        return .copied n)
  | finish {n} : Consumes rbs rd (.copied n) (ringbufFinishRead rbs rd n >>= fun _ => return .idle)

def producer (rbs : UserRingBufs) (rd : Int32) : Party Act Answer Ring ProducerState where
  body := Produces rbs rd
  ok := fun _ _ _ => True

def consumer (rbs : UserRingBufs) (rd : Int32) (ok : ConsumerState → Act → Ring → Prop) :
    Party Act Answer Ring ConsumerState where
  body := Consumes rbs rd
  ok := ok

-- The consumer's two expressions that do not follow the counter: the start of
-- its window, and the comparison of a finished count with `write_done` itself.
def Aligned : ConsumerState → Act → Ring → Prop
  | _, .loadByte _ _, s => 65536 ∣ s.book.readDone.toNat
  | .copied n, .load .writeDone, s => uint64OfInt n ≤ s.book.writeDone
  | _, _, _ => True

-- `W` and `R` count the bytes handed over and given back since the ring was
-- created, so they do not wrap as the two counters do.
structure Inv (s : Ring) (W R : Nat) : Prop where
  write : s.book.writeDone.toNat = W % 2 ^ 64
  read : s.book.readDone.toNat = R % 2 ^ 64
  read_le : R ≤ s.consumed.length
  consumed_le : s.consumed.length ≤ W
  write_le : W ≤ s.produced.length
  room : W ≤ R + 65536
  order : s.consumed <+: s.produced
  bytes : ∀ i, R ≤ i → i < W → s.produced[i]? = some (s.data (i % 65536))

variable {s : Ring} {W R n i : Nat} {buffer : Nat → UInt8} {done : List Nat}
  {x y : Ring × (Nat × Nat)} {buf addr : UInt64} {stop : Ring × (Nat × Nat) → Prop}
  {l l' : List UInt8}

theorem Inv.occupancy_eq (h : Inv s W R) : occupancy s = W - R := by
  have hw := h.write
  have hr := h.read
  have hle : R ≤ W := h.read_le.trans h.consumed_le
  have hroom := h.room
  unfold occupancy
  rw [UInt64.toNat_sub]
  omega

def contract : Contract Ring (Nat × Nat) where
  inv x := Inv x.1 x.2.1 x.2.2
  rely x y := y.1.book.writeDone = x.1.book.writeDone ∧ y.2.1 = x.2.1 ∧ x.2.2 ≤ y.2.2 ∧
    y.1.produced = x.1.produced ∧ y.1.data = x.1.data
  guar x y := y.1.book.readDone = x.1.book.readDone ∧ y.2.2 = x.2.2 ∧ x.2.1 ≤ y.2.1 ∧
    y.1.consumed = x.1.consumed ∧ x.1.produced <+: y.1.produced
  rely_refl _ := ⟨rfl, rfl, Nat.le_refl _, rfl, rfl⟩
  rely_trans _ _ _ h h' := ⟨h'.1.trans h.1, h'.2.1.trans h.2.1, h.2.2.1.trans h'.2.2.1,
    h'.2.2.2.1.trans h.2.2.2.1, h'.2.2.2.2.trans h.2.2.2.2⟩
  guar_refl _ := ⟨rfl, rfl, Nat.le_refl _, rfl, List.prefix_rfl⟩
  guar_trans _ _ _ h h' := ⟨h'.1.trans h.1, h'.2.1.trans h.2.1, h.2.2.1.trans h'.2.2.1,
    h'.2.2.2.1.trans h.2.2.2.1, h.2.2.2.2.trans h'.2.2.2.2⟩

theorem writerSide : WriterSide contract where
  bound _ h := by
    have hroom := Inv.room h
    rw [Inv.occupancy_eq h]
    omega
  rely_write _ _ h := h.1
  rely_drain _ _ h hx hy := by
    have hW := h.2.1
    have hR := h.2.2.1
    rw [Inv.occupancy_eq hx, Inv.occupancy_eq hy]
    omega

theorem readerSide : ReaderSide contract.flip where
  bound := writerSide.bound
  rely_read _ _ h := h.1
  rely_fill _ _ h hx hy := by
    have hR := h.2.1
    have hW := h.2.2.1
    rw [Inv.occupancy_eq hx, Inv.occupancy_eq hy]
    omega

-- The producer's window starts at the position of the next byte.
def AtWrite (buf addr : UInt64) (W : Nat) : Prop :=
  ∀ i < 65536, translate buf (addr + UInt64.ofNat i) = some ((W + i) % 65536)

theorem atWrite_of_inv (buf : UInt64) (h : Inv s W R) :
    AtWrite buf (buf + s.book.writeDone % MAX_RINGBUF_BYTES) W := by
  intro i hi
  have hw := h.write
  have hoff : (buf + s.book.writeDone % MAX_RINGBUF_BYTES + UInt64.ofNat i - buf).toNat =
      W % 65536 + i := by
    rw [UInt64.add_assoc, UInt64.add_comm, UInt64.add_sub_cancel, UInt64.toNat_add,
      UInt64.toNat_mod, toNat_MAX_RINGBUF_BYTES, UInt64.toNat_ofNat']
    omega
  unfold translate
  rw [hoff, toNat_MAX_RINGBUF_BYTES, if_pos (by omega)]
  congr 1
  omega

-- While the producer fills its window, the offsets in `done` hold their bytes.
structure Filling (buffer : Nat → UInt8) (n W : Nat) (done : List Nat) (x : Ring × (Nat × Nat)) :
    Prop where
  write : x.2.1 = W
  all : x.1.produced.length = W
  room : W + n ≤ x.2.2 + 65536
  bytes : ∀ i ∈ done, x.1.data ((W + i) % 65536) = buffer i

theorem Filling.stable (h : Filling buffer n W done x) (hxy : contract.rely x y) :
    Filling buffer n W done y := by
  obtain ⟨_, hW, hR, hproduced, hdata⟩ := hxy
  have hroom := h.room
  exact ⟨hW.trans h.write, by rw [hproduced, h.all], by omega, by rw [hdata]; exact h.bytes⟩

theorem inv_storeByte (byte : UInt8) (h : Inv s W R) (hroom : W + n ≤ R + 65536) (hi : i < n) :
    Inv { s with data := update s.data ((W + i) % 65536) byte } W R := by
  refine ⟨h.write, h.read, h.read_le, h.consumed_le, h.write_le, h.room, h.order, ?_⟩
  intro j hRj hjW
  have hne : j % 65536 ≠ (W + i) % 65536 := by omega
  simp only [update_of_ne hne]
  exact h.bytes j hRj hjW

theorem storeBytes_sat {ok : Act → Ring → Prop} {post : Unit → Ring × (Nat × Nat) → Prop}
    (hat : AtWrite buf addr W) (hn : n ≤ 65536) (order done : List Nat) (horder : ∀ i ∈ order, i < n)
    (hdone : ∀ i ∈ done, i < n) (x : Ring × (Nat × Nat)) (hx : Filling buffer n W done x)
    (hpost : ∀ y, Filling buffer n W (order ++ done) y → post () y) :
    Sat exec contract ok stop post (storeBytes buf addr buffer order) x := by
  induction order generalizing done x with
  | nil => exact hpost x hx
  | cons i rest ih =>
    apply Sat.bind
    intro s g hrely hinv _
    have hfill := hx.stable hrely
    have hi : i < n := horder i (by simp)
    obtain rfl : g.1 = W := hfill.write
    refine ⟨(), { s with data := update s.data ((g.1 + i) % 65536) (buffer i) }, g,
      ?_, ?_, inv_storeByte _ hinv hfill.room hi, ?_⟩
    · change Option.map _ (translate buf (addr + UInt64.ofNat i)) = _
      rw [hat i (by omega)]
      rfl
    · exact ⟨rfl, rfl, Nat.le_refl _, rfl, List.prefix_rfl⟩
    · apply ih (i :: done) (fun j hj => horder j (List.mem_cons_of_mem i hj))
      · intro j hj
        rcases List.mem_cons.mp hj with rfl | hj
        · exact hi
        · exact hdone j hj
      · refine ⟨rfl, hfill.all, hfill.room, ?_⟩
        intro j hj
        by_cases hji : j = i
        · subst hji
          simp
        · have hj' : j ∈ done := (List.mem_cons.mp hj).resolve_left hji
          have hjn := hdone j hj'
          have hne : (g.1 + j) % 65536 ≠ (g.1 + i) % 65536 := by omega
          simp only [update_of_ne hne]
          exact hfill.bytes j hj'
      · intro y hy
        apply hpost y
        refine ⟨hy.write, hy.all, hy.room, fun j hj => hy.bytes j ?_⟩
        simp only [List.mem_append, List.mem_cons] at hj ⊢
        tauto

def ProducerLoop (buf : UInt64) : ProducerState → Ring × (Nat × Nat) → Prop
  | .idle, x => x.1.produced.length = x.2.1
  | .window addr bytes, x => x.1.produced.length = x.2.1 ∧ AtWrite buf addr x.2.1 ∧
      bytes.toInt + x.2.1 ≤ x.2.2 + 65536
  | .stored n, x => 0 ≤ n.toInt ∧ x.1.produced.length = x.2.1 + n.toInt.toNat ∧
      x.2.1 + n.toInt.toNat ≤ x.2.2 + 65536 ∧
      ∀ i, x.2.1 ≤ i → i < x.2.1 + n.toInt.toNat →
        x.1.produced[i]? = some (x.1.data (i % 65536))

theorem producerLoop_stable (buf : UInt64) (l : ProducerState) (x y : Ring × (Nat × Nat))
    (h : ProducerLoop buf l x) (hxy : contract.rely x y) : ProducerLoop buf l y := by
  obtain ⟨_, hW, hR, hproduced, hdata⟩ := hxy
  cases l with
  | idle => simpa only [ProducerLoop, hproduced, hW] using h
  | window addr bytes =>
    obtain ⟨hall, hat, hroom⟩ := h
    refine ⟨by rw [hproduced, hW, hall], by rw [hW]; exact hat, ?_⟩
    omega
  | stored n =>
    obtain ⟨hn, hall, hroom, hbytes⟩ := h
    refine ⟨hn, by rw [hproduced, hW, hall], by omega, ?_⟩
    simpa only [hW, hproduced, hdata] using hbytes

theorem length_chunk (buffer : Nat → UInt8) (n : Int32) :
    (chunk buffer n).length = n.toInt.toNat := by
  simp [chunk]

theorem getElem?_chunk (buffer : Nat → UInt8) (n : Int32) (i : Nat) (hi : i < n.toInt.toNat) :
    (chunk buffer n)[i]? = some (buffer i) := by
  rw [chunk, List.getElem?_map, List.getElem?_range hi]
  rfl

theorem inv_produce (bytes : List UInt8) (h : Inv s W R) :
    Inv { s with produced := s.produced ++ bytes } W R := by
  have hle := h.write_le
  refine ⟨h.write, h.read, h.read_le, h.consumed_le, ?_, h.room,
    h.order.trans (List.prefix_append _ _), ?_⟩
  · simp only [List.length_append]
    omega
  · intro i hRi hiW
    rw [List.getElem?_append_left (by omega)]
    exact h.bytes i hRi hiW

theorem inv_setWrite {n : Int32} (h : Inv s W R) (hn : 0 ≤ n.toInt)
    (hall : s.produced.length = W + n.toInt.toNat) (hroom : W + n.toInt.toNat ≤ R + 65536)
    (hbytes : ∀ i, W ≤ i → i < W + n.toInt.toNat → s.produced[i]? = some (s.data (i % 65536))) :
    Inv (s.setWrite (s.book.writeDone + uint64OfInt n)) (W + n.toInt.toNat) R := by
  have hw := h.write
  have hvalue := toNat_uint64OfInt_of_nonneg n hn
  have hle := h.consumed_le
  refine ⟨?_, h.read, h.read_le, ?_, Nat.le_of_eq hall.symm, hroom, h.order, ?_⟩
  · simp only [Ring.setWrite, UInt64.toNat_add]
    omega
  · simp only [Ring.setWrite]
    omega
  · intro i hRi hi
    by_cases hiW : i < W
    · exact h.bytes i hRi hiW
    · exact hbytes i (by omega) hi

theorem producer_keeps (rbs : UserRingBufs) (rd : Int32) :
    Keeps exec contract (producer rbs rd) (ProducerLoop (rbs rd.toNatClampNeg).buf)
      (fun _ => True) where
  loop_stable l x y h hxy _ := producerLoop_stable _ l x y h hxy
  stop_stable _ _ _ _ _ := trivial
  body l p x hloop hx hbody := by
    cases hbody with
    | start =>
      apply Sat.bind
      apply startWrite_sat writerSide (fun _ => trivial)
      intro y z hxy hy hyz hz bytes hbytes
      have hloop' := producerLoop_stable _ .idle x z hloop (contract.rely_trans _ _ _ hxy hyz)
      refine ⟨hloop', atWrite_of_inv _ hz, ?_⟩
      have hocc := Inv.occupancy_eq hy
      have hroom := Inv.room hy
      obtain ⟨_, hW, hR, _⟩ := hyz
      have hle : y.2.2 ≤ y.2.1 := (Inv.read_le hy).trans (Inv.consumed_le hy)
      simp only
      omega
    | @store addr bytes n buffer order hn hle horder =>
      obtain ⟨hall, hat, hroom⟩ := hloop
      have hlt : ∀ i ∈ order, i < n.toInt.toNat := fun i hi =>
        List.mem_range.mp (horder.subset hi)
      have hsize : x.2.1 + n.toInt.toNat ≤ x.2.2 + 65536 := by omega
      have hle' : x.2.2 ≤ x.2.1 := (Inv.read_le hx).trans (Inv.consumed_le hx)
      apply Sat.bind
      apply storeBytes_sat hat (by omega) order [] hlt (by simp) x ⟨rfl, hall, hsize, by simp⟩
      intro y hy s g hys hinv _
      have hfill := hy.stable hys
      refine ⟨(), _, g, rfl, ⟨rfl, rfl, Nat.le_refl _, rfl, List.prefix_append _ _⟩,
        inv_produce (chunk buffer n) hinv, hn, ?_, ?_, ?_⟩
      · have hW : g.1 = x.2.1 := hfill.write
        simp only [List.length_append, length_chunk, hfill.all, hW]
      · have hW : g.1 = x.2.1 := hfill.write
        simpa only [hW] using hfill.room
      · intro i hWi hi
        have hW : g.1 = x.2.1 := hfill.write
        have hlen : s.produced.length = x.2.1 := hfill.all
        have hmem : i - x.2.1 ∈ order ++ [] := by
          simp only [List.append_nil]
          apply horder.symm.subset
          simp only at hWi hi
          exact List.mem_range.mpr (by omega)
        have hbyte := hfill.bytes (i - x.2.1) hmem
        simp only at hWi hi ⊢
        rw [List.getElem?_append_right (by omega), getElem?_chunk _ _ _ (by omega), hlen, ← hbyte]
        congr 3
        omega
    | @finish n =>
      obtain ⟨hn, hall, hroom, hbytes⟩ := hloop
      apply Sat.bind
      apply finishWrite_sat writerSide n (fun _ => trivial)
      · intros
        trivial
      · intro y hxy hy _ _
        obtain ⟨_, hall, hroom, hbytes⟩ :=
          producerLoop_stable (rbs rd.toNatClampNeg).buf (.stored n) x y
            ⟨hn, hall, hroom, hbytes⟩ hxy
        refine ⟨(y.2.1 + n.toInt.toNat, y.2.2), ⟨rfl, rfl, ?_, rfl, List.prefix_rfl⟩,
          inv_setWrite hy hn hall hroom hbytes, hall⟩
        simp

-- While the consumer copies, the offsets in `done` of its buffer hold the bytes
-- that were produced at their positions.
structure Copying (buffer : Nat → UInt8) (n R : Nat) (addr buf : UInt64) (done : List Nat)
    (x : Ring × (Nat × Nat)) : Prop where
  read : x.2.2 = R
  all : x.1.consumed.length = R
  room : R + n ≤ x.2.1
  addr : addr = buf + x.1.book.readDone % USR_RINGBUF_SIZE * PGSIZE
  bytes : ∀ i ∈ done, x.1.produced[R + i]? = some (buffer i)

theorem getElem?_of_prefix {byte : UInt8} (h : l <+: l') (hi : l[i]? = some byte) :
    l'[i]? = some byte := by
  obtain ⟨rest, rfl⟩ := h
  rw [List.getElem?_append_left (List.getElem?_eq_some_iff.mp hi).1]
  exact hi

theorem Copying.stable (h : Copying buffer n R addr buf done x) (hxy : contract.flip.rely x y) :
    Copying buffer n R addr buf done y := by
  obtain ⟨hread, hR, hW, hconsumed, hproduced⟩ := hxy
  have hroom := h.room
  exact ⟨hR.trans h.read, by rw [hconsumed, h.all], by omega, by rw [hread]; exact h.addr,
    fun i hi => getElem?_of_prefix hproduced (h.bytes i hi)⟩

-- At a multiple of the ring size the start of the window is the first page,
-- which is where the next byte was stored.
theorem translate_read (buf : UInt64) (h : Inv s W R) (haligned : 65536 ∣ s.book.readDone.toNat)
    (hi : i < 65536) :
    translate buf (buf + s.book.readDone % USR_RINGBUF_SIZE * PGSIZE + UInt64.ofNat i) =
      some ((R + i) % 65536) := by
  have hr := h.read
  have hoff : (buf + s.book.readDone % USR_RINGBUF_SIZE * PGSIZE + UInt64.ofNat i - buf).toNat =
      i := by
    rw [UInt64.add_assoc, UInt64.add_comm, UInt64.add_sub_cancel, UInt64.toNat_add,
      UInt64.toNat_mul, UInt64.toNat_mod, toNat_USR_RINGBUF_SIZE, toNat_PGSIZE,
      UInt64.toNat_ofNat']
    omega
  unfold translate
  rw [hoff, toNat_MAX_RINGBUF_BYTES, if_pos (by omega)]
  congr 1
  omega

theorem loadBytes_sat {l : ConsumerState} {post : (Nat → UInt8) → Ring × (Nat × Nat) → Prop}
    (hn : n ≤ 65536) (order done : List Nat) (buffer : Nat → UInt8) (horder : ∀ i ∈ order, i < n)
    (x : Ring × (Nat × Nat)) (hx : Copying buffer n R addr buf done x)
    (hpost : ∀ buffer y, Copying buffer n R addr buf (order ++ done) y → post buffer y) :
    Sat exec contract.flip (Aligned l) stop post (loadBytes buf addr order buffer) x := by
  induction order generalizing done buffer x with
  | nil => exact hpost buffer x hx
  | cons i rest ih =>
    apply Sat.bind
    intro s g hrely hinv haligned
    have hcopy := hx.stable hrely
    have hi : i < n := horder i (by simp)
    obtain rfl : g.2 = R := hcopy.read
    have hroom : g.2 + n ≤ g.1 := hcopy.room
    have hat := translate_read buf hinv (by simpa only [Aligned] using haligned)
      (show i < 65536 by omega)
    rw [← hcopy.addr] at hat
    refine ⟨s.data ((g.2 + i) % 65536), s, g, ?_, contract.flip.guar_refl _, hinv, ?_⟩
    · change Option.map _ (translate buf (addr + UInt64.ofNat i)) = _
      rw [hat]
      rfl
    · have hbyte := Inv.bytes hinv (g.2 + i) (by simp) (by simp only; omega)
      apply ih (i :: done) _ (fun j hj => horder j (List.mem_cons_of_mem i hj))
      · refine ⟨rfl, hcopy.all, hroom, hcopy.addr, ?_⟩
        intro j hj
        by_cases hji : j = i
        · subst hji
          simpa using hbyte
        · rw [update_of_ne hji]
          exact hcopy.bytes j ((List.mem_cons.mp hj).resolve_left hji)
      · intro buffer y hy
        apply hpost buffer y
        refine ⟨hy.read, hy.all, hy.room, hy.addr, fun j hj => hy.bytes j ?_⟩
        simp only [List.mem_append, List.mem_cons] at hj ⊢
        tauto

def ConsumerLoop (buf : UInt64) : ConsumerState → Ring × (Nat × Nat) → Prop
  | .idle, x => x.1.consumed.length = x.2.2
  | .window addr bytes, x => x.1.consumed.length = x.2.2 ∧
      addr = buf + x.1.book.readDone % USR_RINGBUF_SIZE * PGSIZE ∧ x.2.2 + bytes.toInt ≤ x.2.1
  | .copied n, x => 0 ≤ n.toInt ∧ x.1.consumed.length = x.2.2 + n.toInt.toNat

theorem consumerLoop_stable (buf : UInt64) (l : ConsumerState) (x y : Ring × (Nat × Nat))
    (h : ConsumerLoop buf l x) (hxy : contract.flip.rely x y) : ConsumerLoop buf l y := by
  obtain ⟨hread, hR, hW, hconsumed, _⟩ := hxy
  cases l with
  | idle => simpa only [ConsumerLoop, hconsumed, hR] using h
  | window addr bytes =>
    obtain ⟨hall, haddr, hroom⟩ := h
    refine ⟨by rw [hconsumed, hR, hall], by rw [hread]; exact haddr, ?_⟩
    omega
  | copied n => simpa only [ConsumerLoop, hconsumed, hR] using h

theorem append_chunk_prefix {n : Int32} (h : l <+: l')
    (hbytes : ∀ i < n.toInt.toNat, l'[l.length + i]? = some (buffer i)) :
    l ++ chunk buffer n <+: l' := by
  obtain ⟨rest, rfl⟩ := h
  apply (List.prefix_append_right_inj l).mpr
  rw [List.prefix_iff_getElem?]
  intro i hi
  rw [length_chunk] at hi
  have hbyte := hbytes i hi
  rw [List.getElem?_append_right (by omega), Nat.add_sub_cancel_left] at hbyte
  simp [hbyte, chunk]

theorem inv_consume {bytes : List UInt8} (h : Inv s W R) (horder : s.consumed ++ bytes <+: s.produced)
    (hle : s.consumed.length + bytes.length ≤ W) :
    Inv { s with consumed := s.consumed ++ bytes } W R := by
  have hread := h.read_le
  refine ⟨h.write, h.read, ?_, ?_, h.write_le, h.room, horder, h.bytes⟩
  all_goals
    simp only [List.length_append]
    omega

theorem inv_setRead {n : Int32} (h : Inv s W R) (hn : 0 ≤ n.toInt)
    (hall : s.consumed.length = R + n.toInt.toNat) :
    Inv (s.setRead (s.book.readDone + uint64OfInt n)) W (R + n.toInt.toNat) := by
  have hr := h.read
  have hvalue := toNat_uint64OfInt_of_nonneg n hn
  have hroom := h.room
  refine ⟨h.write, ?_, Nat.le_of_eq hall.symm, h.consumed_le, h.write_le, by omega, h.order,
    fun i hi hiW => h.bytes i (by omega) hiW⟩
  simp only [Ring.setRead, UInt64.toNat_add]
  omega

theorem consumer_keeps (rbs : UserRingBufs) (rd : Int32) :
    Keeps exec contract.flip (consumer rbs rd Aligned) (ConsumerLoop (rbs rd.toNatClampNeg).buf)
      (fun _ => True) where
  loop_stable l x y h hxy _ := consumerLoop_stable _ l x y h hxy
  stop_stable _ _ _ _ _ := trivial
  body l p x hloop hx hbody := by
    cases hbody with
    | start =>
      apply Sat.bind
      apply startRead_sat readerSide (fun _ => trivial)
      intro y hxy hy bytes hbytes
      refine ⟨consumerLoop_stable _ .idle x y hloop hxy, rfl, ?_⟩
      have hocc := Inv.occupancy_eq hy
      have hle : y.2.2 ≤ y.2.1 := (Inv.read_le hy).trans (Inv.consumed_le hy)
      simp only
      omega
    | @copy addr bytes n order hn hle horder =>
      obtain ⟨hall, haddr, hroom⟩ := hloop
      have hlt : ∀ i ∈ order, i < n.toInt.toNat := fun i hi =>
        List.mem_range.mp (horder.subset hi)
      have hsize := Inv.room hx
      apply Sat.bind
      apply loadBytes_sat (by omega) order [] _ hlt x
        ⟨rfl, hall, by omega, haddr, by simp⟩
      intro buffer y hy s g hys hinv _
      have hcopy := hy.stable hys
      have hlen : s.consumed.length = x.2.2 := hcopy.all
      have hR : g.2 = x.2.2 := hcopy.read
      have hW : x.2.2 + n.toInt.toNat ≤ g.1 := hcopy.room
      have horder' : s.consumed ++ chunk buffer n <+: s.produced := by
        apply append_chunk_prefix (Inv.order hinv)
        intro i hi
        rw [hlen]
        apply hcopy.bytes
        simp only [List.append_nil]
        exact horder.symm.subset (List.mem_range.mpr hi)
      refine ⟨(), _, g, rfl, ⟨rfl, rfl, Nat.le_refl _, rfl, rfl⟩,
        inv_consume hinv horder' ?_, hn, ?_⟩
      · simp only [length_chunk]
        omega
      · simp only [List.length_append, length_chunk]
        omega
    | @finish n =>
      obtain ⟨hn, hall⟩ := hloop
      apply Sat.bind
      apply finishRead_sat readerSide n (fun _ => trivial)
      · intro y hxy hy hok hnot
        -- With the comparison against `write_done` granted, no branch skips the store.
        exfalso
        apply hnot
        obtain ⟨_, hall⟩ :=
          consumerLoop_stable (rbs rd.toNatClampNeg).buf (.copied n) x y ⟨hn, hall⟩ hxy
        have hocc := Inv.occupancy_eq hy
        have hle := Inv.consumed_le hy
        exact ⟨hn, by omega, hok⟩
      · intro y z hxy _ hyz hz _ _ _ _
        obtain ⟨_, hall⟩ := consumerLoop_stable (rbs rd.toNatClampNeg).buf (.copied n) x z
          ⟨hn, hall⟩ (contract.flip.rely_trans _ _ _ hxy hyz)
        refine ⟨(z.2.1, z.2.2 + n.toInt.toNat), ⟨rfl, rfl, ?_, rfl, rfl⟩,
          inv_setRead hz hn hall, hall⟩
        simp

-- In every interleaving in which the consumer copies only at multiples of the
-- ring size and never finishes a count above `write_done`, what has been
-- consumed is a prefix of what has been produced.
theorem consumed_prefix_produced (rbsW rbsR : UserRingBufs) (rdW rdR : Int32)
    (data : Nat → UInt8) (st : Pair Act Answer Ring ProducerState ConsumerState)
    (hreach : Reach exec (producer rbsW rdW) (consumer rbsR rdR Aligned)
      ⟨fresh data, .head .idle, .head .idle⟩ st) :
    st.shared.consumed <+: st.shared.produced := by
  have hinit : Inv (fresh data) 0 0 := by
    refine ⟨rfl, rfl, Nat.le_refl _, Nat.le_refl _, Nat.le_refl _, by omega, List.prefix_rfl, ?_⟩
    intro i _ hi
    omega
  obtain ⟨g, hinv, _, _⟩ := reach_sat (producer_keeps rbsW rdW) (consumer_keeps rbsR rdR)
    (0, 0) hinit (show ProducerLoop _ .idle _ from rfl) (show ConsumerLoop _ .idle _ from rfl)
    hreach
  exact Inv.order hinv

def sample : UserRingBufs := fun _ => ⟨0x3ffffdd000, 0x3ffffdc000, 1⟩

def sampleRing : Ring :=
  ⟨⟨0, 2⟩, update (update (fun _ => 0) 0 1) 1 2, [1, 2], []⟩

theorem reach_sampleRing (ok : ConsumerState → Act → Ring → Prop) :
    Reach exec (producer sample 0) (consumer sample 0 ok)
      ⟨fresh fun _ => 0, .head .idle, .head .idle⟩ ⟨sampleRing, .head .idle, .head .idle⟩ := by
  have hstart : Reach exec (producer sample 0) (consumer sample 0 ok)
      ⟨fresh fun _ => 0, .head .idle, .head .idle⟩
      ⟨fresh fun _ => 0, .head (.window 0x3ffffdd000 65536), .head .idle⟩ :=
    reach_left .start (Prog.permits_of_forall (fun _ _ => trivial) _ _) rfl
  have hstore : Reach exec (producer sample 0) (consumer sample 0 ok)
      ⟨fresh fun _ => 0, .head (.window 0x3ffffdd000 65536), .head .idle⟩
      ⟨{ sampleRing with book := ⟨0, 0⟩ }, .head (.stored 2), .head .idle⟩ :=
    reach_left (.store 2 (fun i => UInt8.ofNat (i + 1)) [0, 1] (by decide) (by decide) (by decide))
      (Prog.permits_of_forall (fun _ _ => trivial) _ _) rfl
  have hfinish : Reach exec (producer sample 0) (consumer sample 0 ok)
      ⟨{ sampleRing with book := ⟨0, 0⟩ }, .head (.stored 2), .head .idle⟩
      ⟨sampleRing, .head .idle, .head .idle⟩ :=
    reach_left .finish (Prog.permits_of_forall (fun _ _ => trivial) _ _) rfl
  exact (hstart.trans hstore).trans hfinish

theorem consumed_prefix_produced_two_bytes :
    ∃ st, Reach exec (producer sample 0) (consumer sample 0 Aligned)
      ⟨fresh fun _ => 0, .head .idle, .head .idle⟩ st ∧
      st.shared.consumed = [1, 2] ∧ st.shared.consumed <+: st.shared.produced := by
  have hstart : Reach exec (producer sample 0) (consumer sample 0 Aligned)
      ⟨sampleRing, .head .idle, .head .idle⟩
      ⟨sampleRing, .head .idle, .head (.window 0x3ffffdd000 2)⟩ :=
    reach_right .start ⟨trivial, trivial, trivial⟩ rfl
  have hcopy : Reach exec (producer sample 0) (consumer sample 0 Aligned)
      ⟨sampleRing, .head .idle, .head (.window 0x3ffffdd000 2)⟩
      ⟨{ sampleRing with consumed := [1, 2] }, .head .idle, .head (.copied 2)⟩ :=
    reach_right (.copy 2 [0, 1] (by decide) (by decide) (by decide))
      ⟨(by decide : 65536 ∣ 0), (by decide : 65536 ∣ 0), trivial, trivial⟩ rfl
  have hreach := ((reach_sampleRing Aligned).trans hstart).trans hcopy
  exact ⟨_, hreach, rfl, consumed_prefix_produced sample sample 0 0 (fun _ => 0) _ hreach⟩

-- A consumer that takes them one at a time finds its second window a page too
-- far up: the counter is 1, so the window starts at page 1 instead of byte 1.
theorem consumed_not_prefix_one_by_one :
    ∃ st, Reach exec (producer sample 0) (consumer sample 0 fun _ _ _ => True)
      ⟨fresh fun _ => 0, .head .idle, .head .idle⟩ st ∧
      ¬st.shared.consumed <+: st.shared.produced := by
  have hok : ∀ l a s, (consumer sample 0 fun _ _ _ => True).ok l a s := fun _ _ _ => trivial
  have hstart : Reach exec (producer sample 0) (consumer sample 0 fun _ _ _ => True)
      ⟨sampleRing, .head .idle, .head .idle⟩
      ⟨sampleRing, .head .idle, .head (.window 0x3ffffdd000 2)⟩ :=
    reach_right .start (Prog.permits_of_forall (hok _) _ _) rfl
  have hcopy : Reach exec (producer sample 0) (consumer sample 0 fun _ _ _ => True)
      ⟨sampleRing, .head .idle, .head (.window 0x3ffffdd000 2)⟩
      ⟨{ sampleRing with consumed := [1] }, .head .idle, .head (.copied 1)⟩ :=
    reach_right (.copy 1 [0] (by decide) (by decide) (by decide))
      (Prog.permits_of_forall (hok _) _ _) rfl
  have hfinish : Reach exec (producer sample 0) (consumer sample 0 fun _ _ _ => True)
      ⟨{ sampleRing with consumed := [1] }, .head .idle, .head (.copied 1)⟩
      ⟨{ sampleRing with book := ⟨1, 2⟩, consumed := [1] }, .head .idle, .head .idle⟩ :=
    reach_right .finish (Prog.permits_of_forall (hok _) _ _) rfl
  have hstart' : Reach exec (producer sample 0) (consumer sample 0 fun _ _ _ => True)
      ⟨{ sampleRing with book := ⟨1, 2⟩, consumed := [1] }, .head .idle, .head .idle⟩
      ⟨{ sampleRing with book := ⟨1, 2⟩, consumed := [1] }, .head .idle,
        .head (.window 0x3ffffde000 1)⟩ :=
    reach_right .start (Prog.permits_of_forall (hok _) _ _) rfl
  have hcopy' : Reach exec (producer sample 0) (consumer sample 0 fun _ _ _ => True)
      ⟨{ sampleRing with book := ⟨1, 2⟩, consumed := [1] }, .head .idle,
        .head (.window 0x3ffffde000 1)⟩
      ⟨{ sampleRing with book := ⟨1, 2⟩, consumed := [1, 0] }, .head .idle, .head (.copied 1)⟩ :=
    reach_right (.copy 1 [0] (by decide) (by decide) (by decide))
      (Prog.permits_of_forall (hok _) _ _) rfl
  refine ⟨_, (((((reach_sampleRing fun _ _ _ => True).trans hstart).trans hcopy).trans
    hfinish).trans hstart').trans hcopy', ?_⟩
  change ¬[1, 0] <+: [1, 2]
  decide

end Xv6Ringbuf.User.Fifo
