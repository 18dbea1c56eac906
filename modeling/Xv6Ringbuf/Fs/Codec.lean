import Xv6Ringbuf.Fs.Layout
import Xv6Ringbuf.Fs.LogLemmas

namespace Xv6Ringbuf.Fs

theorem byteAt_eq (data : Block) (off : Nat) : byteAt data off = (dataAt data off).toNat := by
  unfold byteAt dataAt
  split
  · rfl
  · rfl

theorem toNat_wordByte (word : UInt32) (k : Nat) :
    (wordByte word k).toNat = word.toNat / 256 ^ k % 256 := by
  simp [wordByte]

variable {data : Block} {i off k w k' : Nat}

theorem getWord_of_bytes {word : UInt32} (h : ∀ j, j < 4 → dataAt data (4 * i + j) = wordByte word j) :
    getWord data i = word := by
  have hword := word.toNat_lt
  unfold getWord
  rw [byteAt_eq, byteAt_eq, byteAt_eq, byteAt_eq, h 1 (by omega), h 2 (by omega), h 3 (by omega),
    show dataAt data (4 * i) = wordByte word 0 from h 0 (by omega), toNat_wordByte, toNat_wordByte,
    toNat_wordByte, toNat_wordByte]
  apply UInt32.toNat_inj.mp
  rw [UInt32.toNat_ofNat']
  omega

theorem getWord_congr {data' : Block}
    (h : ∀ j, j < 4 → dataAt data (4 * i + j) = dataAt data' (4 * i + j)) :
    getWord data i = getWord data' i := by
  unfold getWord
  rw [byteAt_eq, byteAt_eq, byteAt_eq, byteAt_eq, byteAt_eq, byteAt_eq, byteAt_eq, byteAt_eq,
    h 1 (by omega), h 2 (by omega), h 3 (by omega),
    show dataAt data (4 * i) = dataAt data' (4 * i) from h 0 (by omega)]

theorem dataAt_of_lt (data : Block) (h : off < BSIZE) : dataAt data off = data ⟨off, h⟩ :=
  dif_pos h

theorem toNat_halves (low high : Int16) :
    (halves low high).toNat = low.toUInt16.toNat + 65536 * high.toUInt16.toNat := by
  have hlow := low.toUInt16.toNat_lt
  have hhigh := high.toUInt16.toNat_lt
  rw [halves, UInt32.toNat_ofNat']
  omega

theorem lowHalf_halves (low high : Int16) : lowHalf (halves low high) = low := by
  have hlow := low.toUInt16.toNat_lt
  rw [lowHalf, toNat_halves]
  have heq : UInt16.ofNat (low.toUInt16.toNat + 65536 * high.toUInt16.toNat) = low.toUInt16 := by
    apply UInt16.toNat_inj.mp
    rw [UInt16.toNat_ofNat']
    omega
  rw [heq]
  simp

theorem highHalf_halves (low high : Int16) : highHalf (halves low high) = high := by
  have hlow := low.toUInt16.toNat_lt
  have hhigh := high.toUInt16.toNat_lt
  rw [highHalf, toNat_halves]
  have heq : UInt16.ofNat ((low.toUInt16.toNat + 65536 * high.toUInt16.toNat) / 65536) =
      high.toUInt16 := by
    apply UInt16.toNat_inj.mp
    rw [UInt16.toNat_ofNat']
    omega
  rw [heq]
  simp

theorem getWord_setDinode_self (data : Block) (din : Dinode) (hk : k < IPB) (hw : w < 16) :
    getWord (setDinode data k din) (16 * k + w) = din.word w := by
  have hipb : IPB = 16 := rfl
  have hbsize : BSIZE = 1024 := rfl
  apply getWord_of_bytes
  intro j hj
  rw [dataAt_of_lt _ (by omega)]
  simp only [setDinode]
  rw [if_pos (by omega), show (4 * (16 * k + w) + j) / 4 % 16 = w by omega,
    show (4 * (16 * k + w) + j) % 4 = j by omega]

theorem getWord_setDinode_of_ne (data : Block) (din : Dinode) (hk' : k' < IPB) (hne : k' ≠ k)
    (hw : w < 16) :
    getWord (setDinode data k din) (16 * k' + w) = getWord data (16 * k' + w) := by
  have hipb : IPB = 16 := rfl
  have hbsize : BSIZE = 1024 := rfl
  apply getWord_congr
  intro j hj
  rw [dataAt_of_lt _ (by omega), dataAt_of_lt _ (by omega)]
  simp only [setDinode]
  rw [if_neg (by omega)]

theorem getDinode_setDinode_self (data : Block) (din : Dinode) (hk : k < IPB) :
    getDinode (setDinode data k din) k = din := by
  have hword : ∀ w, w < 16 → getWord (setDinode data k din) (16 * k + w) = din.word w :=
    fun w hw => getWord_setDinode_self data din hk hw
  have haddrs : ∀ i : Fin (NDIRECT + 1), getWord (setDinode data k din) (16 * k + 3 + i) = din.addrs i := by
    intro i
    have hi := i.isLt
    have hndirect : NDIRECT = 12 := rfl
    rw [Nat.add_assoc, hword _ (by omega)]
    unfold Dinode.word
    rw [if_neg (by omega), if_neg (by omega), if_neg (by omega), dif_pos (by omega)]
    congr 1
    apply Fin.ext
    simp
  rw [getDinode, hword 1 (by omega), hword 2 (by omega),
    show getWord (setDinode data k din) (16 * k) = din.word 0 from hword 0 (by omega), funext haddrs]
  simp [Dinode.word, lowHalf_halves, highHalf_halves]

theorem getDinode_setDinode_of_ne (data : Block) (din : Dinode) (hk' : k' < IPB) (hne : k' ≠ k) :
    getDinode (setDinode data k din) k' = getDinode data k' := by
  have hword : ∀ w, w < 16 →
      getWord (setDinode data k din) (16 * k' + w) = getWord data (16 * k' + w) :=
    fun w hw => getWord_setDinode_of_ne data din hk' hne hw
  have haddrs : ∀ i : Fin (NDIRECT + 1),
      getWord (setDinode data k din) (16 * k' + 3 + i) = getWord data (16 * k' + 3 + i) := by
    intro i
    have hi := i.isLt
    have hndirect : NDIRECT = 12 := rfl
    rw [Nat.add_assoc]
    exact hword _ (by omega)
  rw [getDinode, getDinode, hword 1 (by omega), hword 2 (by omega),
    show getWord (setDinode data k din) (16 * k') = getWord data (16 * k') from hword 0 (by omega),
    funext haddrs]

theorem toBitVec_bitMask (bi : Nat) : (bitMask bi).toBitVec = BitVec.twoPow 8 (bi % 8) := by
  have h : ∀ k, k < 8 → (1 <<< UInt8.ofNat k : UInt8).toBitVec = BitVec.twoPow 8 k := by
    decide
  exact h _ (Nat.mod_lt _ (by omega))

theorem and_bitMask (x : UInt8) (bi : Nat) :
    (x &&& bitMask bi != 0) = x.toBitVec.getLsbD (bi % 8) := by
  have hlt : bi % 8 < 8 := Nat.mod_lt _ (by omega)
  have hand : (x &&& bitMask bi).toBitVec =
      if x.toBitVec.getLsbD (bi % 8) then BitVec.twoPow 8 (bi % 8) else 0#8 := by
    rw [UInt8.toBitVec_and, toBitVec_bitMask, BitVec.and_twoPow]
  cases hbit : x.toBitVec.getLsbD (bi % 8) with
  | false =>
    rw [hbit] at hand
    have hzero : x &&& bitMask bi = 0 := UInt8.toBitVec_inj.mp hand
    simp [hzero]
  | true =>
    rw [hbit] at hand
    have hne : x &&& bitMask bi ≠ 0 := by
      intro hzero
      rw [hzero] at hand
      have hlsb := congrArg (fun v => v.getLsbD (bi % 8)) hand
      simp [hlt] at hlsb
    simpa using hne

theorem getBit_eq (data : Block) (bi : Nat) :
    getBit data bi = (dataAt data (bi / 8)).toBitVec.getLsbD (bi % 8) :=
  and_bitMask _ _

theorem dataAt_setBit (data : Block) (bi : Nat) (h : off < BSIZE) :
    dataAt (setBit data bi) off =
      if off = bi / 8 then dataAt data off ||| bitMask bi else dataAt data off := by
  rw [dataAt_of_lt _ h, dataAt_of_lt _ h]
  rfl

theorem getBit_setBit (data : Block) (bi : Nat) {bj : Nat} (h : bj < BPB) :
    getBit (setBit data bi) bj = (decide (bj = bi) || getBit data bj) := by
  have hbpb : BPB = 8 * BSIZE := rfl
  have hlt : bi % 8 < 8 := Nat.mod_lt _ (by omega)
  rw [getBit_eq, getBit_eq, dataAt_setBit data bi (show bj / 8 < BSIZE by omega)]
  by_cases hbyte : bj / 8 = bi / 8
  · rw [if_pos hbyte, UInt8.toBitVec_or, BitVec.getLsbD_or, toBitVec_bitMask, BitVec.getLsbD_twoPow]
    have hiff : (bi % 8 = bj % 8) ↔ bj = bi := by omega
    simp only [hlt, decide_true, Bool.true_and, hiff, Bool.or_comm]
  · rw [if_neg hbyte, decide_eq_false (by rintro rfl; exact hbyte rfl), Bool.false_or]

theorem dataAt_zeroBlock (off : Nat) : dataAt zeroBlock off = 0 := by
  unfold dataAt zeroBlock
  split
  · rfl
  · rfl

theorem getWord_zeroBlock (i : Nat) : getWord zeroBlock i = 0 := by
  apply getWord_of_bytes
  intro j _
  rw [dataAt_zeroBlock]
  simp [wordByte]

theorem dataAt_splice (data : Block) (off : Nat) (bytes : List UInt8) {x : Nat} (h : x < BSIZE) :
    dataAt (splice data off bytes) x =
      if off ≤ x then bytes.getD (x - off) (dataAt data x) else dataAt data x := by
  rw [dataAt_of_lt _ h, dataAt_of_lt _ h]
  rfl

end Xv6Ringbuf.Fs
