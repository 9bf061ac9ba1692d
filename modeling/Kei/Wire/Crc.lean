import Kei.Library.Lfsr
import Kei.Wire.Frame

/-! What the checksum of the node link detects. The byte loop of `crc16_modbus` is a
shift register fed bit by bit, so damage is seen exactly when the damage alone, fed to
an empty register, leaves a trace. -/

namespace Kei.Wire

open Library Lfsr List

def crcPoly : BitVec 16 := 0xA001#16

def byteBits (byte : UInt8) : List Bool := (List.range 8).map byte.toBitVec.getLsbD

def streamBits (bytes : List UInt8) : List Bool := bytes.flatMap byteBits

def flipBits (bytes error : List UInt8) : List UInt8 := List.zipWith (· ^^^ ·) bytes error

theorem crcShift_toBitVec (crc : UInt16) : (crcShift crc).toBitVec = shift crcPoly crc.toBitVec := by
  have bottom : crc &&& 1 ≠ 0 ↔ crc.toBitVec.getLsbD 0 = true := by
    have masked : (crc &&& 1).toBitVec = BitVec.setWidth 16 (BitVec.ofBool (crc.toBitVec.getLsbD 0)) := by
      rw [UInt16.toBitVec_and]
      exact BitVec.and_one_eq_setWidth_ofBool_getLsbD
    rw [Ne, ← UInt16.toBitVec_inj, masked]
    cases crc.toBitVec.getLsbD 0 <;> decide
  simp only [crcShift, shift, bottom]
  split <;> simp [crcPoly]

@[simp] theorem byteBits_length (byte : UInt8) : (byteBits byte).length = 8 := by simp [byteBits]

theorem byteBits_getD (byte : UInt8) (position : Nat) :
    (byteBits byte).getD position false = byte.toBitVec.getLsbD position := by
  rw [getD_eq_getElem?_getD, byteBits, List.getElem?_map]
  by_cases inside : position < 8
  · rw [List.getElem?_range inside]
    rfl
  · have outside : byte.toBitVec.getLsbD position = false := BitVec.getLsbD_of_ge _ _ (by omega)
    rw [outside, List.getElem?_eq_none (by simpa using inside)]
    rfl

theorem ofBits_byteBits (byte : UInt8) : ofBits (byteBits byte) = byte.toUInt16.toBitVec := by
  apply BitVec.eq_of_getLsbD_eq
  intro position bound
  rw [getLsbD_ofBits _ _ bound, byteBits_getD, UInt8.toBitVec_toUInt16, BitVec.getLsbD_setWidth]
  simp [bound]

theorem ofBits_toLeBytes (word : UInt16) : ofBits (streamBits (toLeBytes word)) = word.toBitVec := by
  apply BitVec.eq_of_getLsbD_eq
  intro position bound
  have cut : streamBits (toLeBytes word) = byteBits word.toUInt8 ++ byteBits (word >>> 8).toUInt8 := by
    simp [streamBits, toLeBytes]
  rw [getLsbD_ofBits _ _ bound, cut, getD_eq_getElem?_getD, List.getElem?_append, byteBits_length]
  by_cases low : position < 8
  · rw [if_pos low, ← getD_eq_getElem?_getD, byteBits_getD]
    simp [low]
  · rw [if_neg low, ← getD_eq_getElem?_getD, byteBits_getD]
    have inside : position - 8 < 8 := by omega
    have back : 8 + (position - 8) = position := by omega
    simp [inside, back]

theorem crcByte_toBitVec (crc : UInt16) (byte : UInt8) :
    (crcByte crc byte).toBitVec = absorbAll crcPoly crc.toBitVec (byteBits byte) := by
  have iterated (count : Nat) (start : UInt16) :
      (crcShift^[count] start).toBitVec = (shift crcPoly)^[count] start.toBitVec := by
    induction count generalizing start with
    | zero => rfl
    | succ count ih => rw [Function.iterate_succ_apply, Function.iterate_succ_apply, ih, crcShift_toBitVec]
  rw [crcByte, iterated, UInt16.toBitVec_xor, absorbAll_eq_iterate _ _ _ (by simp), byteBits_length,
    ofBits_byteBits]

theorem foldl_crcByte_toBitVec (crc : UInt16) (bytes : List UInt8) :
    (bytes.foldl crcByte crc).toBitVec = absorbAll crcPoly crc.toBitVec (streamBits bytes) := by
  induction bytes generalizing crc with
  | nil => rfl
  | cons byte rest ih =>
    rw [foldl_cons, ih, crcByte_toBitVec, ← absorbAll_append]
    rfl

theorem streamBits_length (bytes : List UInt8) : (streamBits bytes).length = 8 * bytes.length := by
  simp [streamBits, length_flatMap, Nat.mul_comm]

theorem streamBits_flipBits (bytes error : List UInt8) (length : bytes.length = error.length) :
    streamBits (flipBits bytes error) = List.zipWith xor (streamBits bytes) (streamBits error) := by
  have single (byte flips : UInt8) :
      byteBits (byte ^^^ flips) = List.zipWith xor (byteBits byte) (byteBits flips) := by
    simp [byteBits, range_succ]
  induction bytes generalizing error with
  | nil => rfl
  | cons byte rest ih =>
    cases error with
    | nil => simp at length
    | cons flips others =>
      have tail := ih others (by simpa using length)
      simp only [flipBits, streamBits, zipWith_cons_cons, flatMap_cons] at tail ⊢
      rw [single, tail, zipWith_append]
      simp [byteBits]

theorem crc16Modbus_residue (region : List UInt8) :
    crc16Modbus (region ++ toLeBytes (crc16Modbus region)) = 0 := by
  have whole (crc : UInt16) : (toLeBytes crc).foldl crcByte crc = 0 := by
    apply UInt16.toBitVec_inj.mp
    have length : (streamBits (toLeBytes crc)).length = 16 := by rw [streamBits_length, toLeBytes_length]
    rw [foldl_crcByte_toBitVec, absorbAll_eq_iterate _ _ _ (by omega), ofBits_toLeBytes, BitVec.xor_self]
    exact Function.iterate_fixed (shift_zero crcPoly) _
  rw [crc16Modbus, foldl_append]
  exact whole _

theorem encodeFrameInner_residue (msgType : MsgType) (payload : List UInt8) :
    crc16Modbus (encodeFrameInner msgType payload).tail = 0 := by
  have covered : (encodeFrameInner msgType payload).tail =
      crcRegion msgType payload ++ toLeBytes (crc16Modbus (crcRegion msgType payload)) := by
    simp [encodeFrameInner, crcRegion]
  rw [covered, crc16Modbus_residue]

theorem crc16Modbus_flipBits_ne_zero (bytes error : List UInt8) (length : bytes.length = error.length)
    (intact : crc16Modbus bytes = 0) (trace : absorbAll crcPoly 0#16 (streamBits error) ≠ 0#16) :
    crc16Modbus (flipBits bytes error) ≠ 0 := by
  intro accepted
  have sameLength : (streamBits bytes).length = (streamBits error).length := by
    rw [streamBits_length, streamBits_length, length]
  have linear := absorbAll_xor crcPoly (0xFFFF : UInt16).toBitVec 0#16 _ _ sameLength
  rw [BitVec.xor_zero, ← streamBits_flipBits bytes error length, ← foldl_crcByte_toBitVec,
    ← foldl_crcByte_toBitVec] at linear
  change (crc16Modbus _).toBitVec = (crc16Modbus _).toBitVec ^^^ _ at linear
  rw [accepted, intact] at linear
  exact trace (by simpa using linear.symm)

def Detectable (bits : List Bool) : Prop :=
  bits.count true % 2 = 1 ∨ bits.count true = 2 ∨
    (true ∈ bits ∧ ∃ before window after, window.length ≤ 16 ∧
      bits = List.replicate before false ++ window ++ List.replicate after false)

theorem crcPoly_aperiodic : ∀ distance < 8215, (shift crcPoly)^[distance + 1] 1#16 ≠ 1#16 := by
  have checked : avoidsUnit crcPoly.toNat 8215 (shift crcPoly 1#16).toNat = true := by decide +kernel
  intro distance bound
  rw [Function.iterate_succ_apply]
  exact iterate_shift_ne_unit crcPoly (by decide) 8215 _ checked distance bound

theorem absorbAll_detectable_ne_zero (bits : List Bool) (short : bits.length ≤ 8216)
    (detectable : Detectable bits) : absorbAll crcPoly 0#16 bits ≠ 0#16 := by
  have top : crcPoly.getLsbD (16 - 1) = true := by decide
  rcases detectable with odd | two | ⟨nonzero, before, window, after, narrow, rfl⟩
  · exact absorbAll_odd_ne_zero crcPoly (by decide) bits (by decide) odd
  · refine absorbAll_pair_ne_zero crcPoly top bits two ?_
    intro distance bound
    exact crcPoly_aperiodic distance (by omega)
  · refine absorbAll_burst_ne_zero crcPoly top before after window narrow ?_
    simpa [mem_append, mem_replicate] using nonzero

def corrupted (frame : Frame) (error : List UInt8) : List UInt8 :=
  frame.encode.take 3 ++ flipBits (frame.encode.drop 3) error

theorem corrupted_tail (frame : Frame) (small : frame.payload.length ≤ maxPayloadLen)
    (error : List UInt8) :
    corrupted frame error = frameMagic ::
      flipBits (encodeFrameInner frame.msgType frame.payload).tail (0 :: 0 :: error) := by
  have uncut : frame.encode = encodeFrameInner frame.msgType frame.payload := by
    rw [Frame.encode, encodeFrame, Nat.min_eq_left small, take_length]
  rw [corrupted, uncut, encodeFrameInner_eq_cons]
  simp [flipBits]

theorem corrupted_body (frame : Frame) (small : frame.payload.length ≤ maxPayloadLen)
    (error : List UInt8) (length : error.length = frame.payload.length + 3) :
    ∃ body : List UInt8, corrupted frame error = frameMagic :: (UInt16.ofNat frame.payload.length).toUInt8 ::
        (UInt16.ofNat frame.payload.length >>> 8).toUInt8 :: body ∧
      body.length = frame.payload.length + 3 := by
  refine ⟨flipBits (frame.msgType.toU8 :: (frame.payload ++
    toLeBytes (crc16Modbus (crcRegion frame.msgType frame.payload)))) error, ?_, ?_⟩
  · rw [corrupted_tail frame small, encodeFrameInner_eq_cons, tail_cons]
    simp only [flipBits, zipWith_cons_cons, UInt8.xor_zero]
  · simp [flipBits, length]

/-- Damage behind the length field that flips an odd number of bits, two bits, or bits
within a window of sixteen is never accepted. -/
theorem decodeFrame_detects (frame : Frame) (small : frame.payload.length ≤ maxPayloadLen)
    (error : List UInt8) (length : error.length = frame.payload.length + 3)
    (detectable : Detectable (streamBits error)) :
    ∃ rejection, decodeFrame (corrupted frame error) = .ok (.error rejection) := by
  obtain ⟨result, decoded⟩ := decodeFrameWithLimit_total (corrupted frame error) maxPayloadLen
  cases result with
  | error rejection => exact ⟨rejection, decoded⟩
  | ok accepted =>
    obtain ⟨body, shape, bodyLength⟩ := corrupted_body frame small error length
    obtain ⟨kind, payload, crcLow, crcHigh, count, rfl⟩ := exists_body _ body bodyLength
    have field := (encoded_length_field frame.payload (Nat.le_trans small (by decide))).trans count.symm
    have encoded := decodeFrameWithLimit_segment_eq field (by rwa [← shape])
    have residue := encodeFrameInner_residue accepted.msgType accepted.payload
    rw [← encoded, ← shape, corrupted_tail frame small error, tail_cons] at residue
    refine absurd residue (crc16Modbus_flipBits_ne_zero _ _ ?_ (encodeFrameInner_residue _ _) ?_)
    · rw [length_tail, encodeFrameInner_length, length_cons, length_cons, length, frameOverhead]
      omega
    · have quiet : streamBits (0 :: 0 :: error) = List.replicate 16 false ++ streamBits error := rfl
      rw [quiet, absorbAll_append, absorbAll_replicate_false,
        Function.iterate_fixed (shift_zero crcPoly)]
      refine absorbAll_detectable_ne_zero _ ?_ detectable
      rw [streamBits_length, length]
      simp only [maxPayloadLen] at small
      omega

theorem decodeFrame_detects_swapped_bits :
    ∃ rejection, decodeFrame (corrupted ⟨.readRegister, [7, 0xCE]⟩ [0, 1, 0, 0x80, 0]) =
      .ok (.error rejection) :=
  decodeFrame_detects ⟨.readRegister, [7, 0xCE]⟩ (by decide) [0, 1, 0, 0x80, 0] rfl
    (Or.inr (Or.inl (by decide)))

end Kei.Wire
