import Kei.Wire.FrameCore

/-! What the one-shot decoder accepts. `decodeFrameWithLimit_segment` evaluates it on
a buffer cut into its fields, `decodeFrameWithLimit_shape` finds those fields in any
buffer it accepts, and the two together make the accepted language the set of
encodings. -/

namespace Kei.Wire

open Library Checked MsgType List

theorem MsgType.fromU8_toU8 (msgType : MsgType) : fromU8 msgType.toU8 = some msgType := by
  cases msgType <;> decide

theorem MsgType.toU8_of_fromU8 {value : UInt8} {msgType : MsgType}
    (known : fromU8 value = some msgType) : msgType.toU8 = value := by
  unfold fromU8 at known
  repeat' split at known
  all_goals cases known
  all_goals exact Eq.symm ‹value = _›

theorem encodeFrameInner_eq_cons (msgType : MsgType) (payload : List UInt8) :
    encodeFrameInner msgType payload = frameMagic :: (UInt16.ofNat payload.length).toUInt8 ::
        (UInt16.ofNat payload.length >>> 8).toUInt8 :: msgType.toU8 ::
          (payload ++ toLeBytes (crc16Modbus (crcRegion msgType payload))) := by
  simp [encodeFrameInner, toLeBytes]

@[simp] theorem encodeFrameInner_length (msgType : MsgType) (payload : List UInt8) :
    (encodeFrameInner msgType payload).length = frameOverhead + payload.length := by
  simp [encodeFrameInner, frameOverhead]
  omega

theorem decodeFrameWithLimit_segment (low high kind crcLow crcHigh : UInt8)
    (payload rest : List UInt8) (limit : Nat)
    (length : (fromLeBytes low high).toNat = payload.length) :
    decodeFrameWithLimit
        (frameMagic :: low :: high :: kind :: (payload ++ crcLow :: crcHigh :: rest)) limit =
      .ok (if payload.length > limit then .error .payloadTooLong
        else match fromU8 kind with
          | none => .error .unknownMsgType
          | some msgType =>
            if crc16Modbus (low :: high :: kind :: payload) = fromLeBytes crcLow crcHigh then
              .ok ⟨msgType, payload⟩
            else .error (.crcMismatch (crc16Modbus (low :: high :: kind :: payload))
              (fromLeBytes crcLow crcHigh))) := by
  obtain ⟨buf, same⟩ : ∃ buf, buf = frameMagic :: low :: high :: kind :: (payload ++ crcLow :: crcHigh :: rest) :=
    ⟨_, rfl⟩
  have size : buf.length = 6 + payload.length + rest.length := by
    simp only [same, length_cons, length_append]
    omega
  have first : index buf (4 + payload.length) = .ok crcLow := by
    apply index_getElem?
    rw [same, show 4 + payload.length = payload.length + 1 + 1 + 1 + 1 by omega]
    simp
  have second : index buf (5 + payload.length) = .ok crcHigh := by
    apply index_getElem?
    rw [same, show 5 + payload.length = payload.length + 1 + 1 + 1 + 1 + 1 by omega]
    simp
  have payloadSlice : slice buf 4 (4 + payload.length) = .ok payload := by
    rw [slice_ok (by omega) (by omega), same]
    simp
  have regionSlice : slice buf 1 (4 + payload.length) = .ok (low :: high :: kind :: payload) := by
    rw [slice_ok (by omega) (by omega), same, show 4 + payload.length - 1 = payload.length + 1 + 1 + 1 by omega]
    simp
  have long : ¬buf.length < frameOverhead + payload.length := by
    rw [frameOverhead]
    omega
  have enough : ¬buf.length < frameOverhead := by omega
  have header (position : Nat) (value : UInt8) (found : buf[position]? = some value) := index_getElem? found
  rw [← same]
  unfold decodeFrameWithLimit
  simp only [enough, header 0 frameMagic (same ▸ rfl), header 1 low (same ▸ rfl), header 2 high (same ▸ rfl),
    header 3 kind (same ▸ rfl),
    length, bind_ok, if_false, ne_eq, not_true_eq_false]
  by_cases oversized : payload.length > limit
  · simp only [oversized, if_true]
    rfl
  · simp only [oversized, if_false]
    cases known : fromU8 kind with
    | none => rfl
    | some msgType =>
      simp only [long, first, second, payloadSlice, regionSlice, bind_ok, if_false, ite_not]
      split <;> rfl

theorem exists_header {buf : List UInt8} (enough : 4 ≤ buf.length) :
    ∃ magic low high kind tail, buf = magic :: low :: high :: kind :: tail := by
  match buf, enough with
  | magic :: low :: high :: kind :: tail, _ => exact ⟨magic, low, high, kind, tail, rfl⟩

theorem exists_payload {tail : List UInt8} {count : Nat} (bound : count + 2 ≤ tail.length) :
    ∃ payload crcLow crcHigh rest, tail = payload ++ crcLow :: crcHigh :: rest ∧
      payload.length = count := by
  have dropped : 2 ≤ (tail.drop count).length := by
    rw [length_drop]
    omega
  match suffix : tail.drop count, dropped with
  | crcLow :: crcHigh :: rest, _ =>
    refine ⟨tail.take count, crcLow, crcHigh, rest, ?_, ?_⟩
    · rw [← suffix, take_append_drop]
    · rw [length_take]
      omega

theorem exists_body (count : Nat) (body : List UInt8) (length : body.length = count + 3) :
    ∃ kind payload crcLow crcHigh, payload.length = count ∧
      body = kind :: (payload ++ [crcLow, crcHigh]) := by
  obtain ⟨kind, rest, rfl⟩ := exists_cons_of_length_pos (l := body) (by omega)
  rw [length_cons] at length
  have final : (rest.drop count).length = 2 := by
    rw [length_drop]
    omega
  obtain ⟨crcLow, crcHigh, last⟩ := length_eq_two.mp final
  refine ⟨kind, rest.take count, crcLow, crcHigh, ?_, ?_⟩
  · rw [length_take]
    omega
  · rw [← last, take_append_drop]

/-- Every buffer is either rejected or cut into fields by its own length field; in
particular no index or slice of the decoder is out of range. -/
theorem decodeFrameWithLimit_shape (buf : List UInt8) (limit : Nat) :
    (∃ error, decodeFrameWithLimit buf limit = .ok (.error error)) ∨
      ∃ low high kind payload crcLow crcHigh rest,
        buf = frameMagic :: low :: high :: kind :: (payload ++ crcLow :: crcHigh :: rest) ∧
          (fromLeBytes low high).toNat = payload.length := by
  rw [decodeFrameWithLimit]
  by_cases short : buf.length < frameOverhead
  · rw [if_pos short]
    exact .inl ⟨.tooShort, rfl⟩
  have enough : 4 ≤ buf.length := by
    simp only [frameOverhead] at short
    omega
  obtain ⟨magic, low, high, kind, tail, rfl⟩ := exists_header enough
  have header (position : Nat) (value : UInt8)
      (found : (magic :: low :: high :: kind :: tail)[position]? = some value) := index_getElem? found
  simp only [short, if_false, header 0 magic rfl, header 1 low rfl, header 2 high rfl, header 3 kind rfl, bind_ok]
  split
  · exact .inl ⟨.badMagic, rfl⟩
  split
  · exact .inl ⟨.payloadTooLong, rfl⟩
  split
  · exact .inl ⟨.unknownMsgType, rfl⟩
  split
  · exact .inl ⟨.tooShort, rfl⟩
  rename_i synced _ _ _ _ truncated
  have complete : (fromLeBytes low high).toNat + 2 ≤ tail.length := by
    simp only [length_cons, frameOverhead] at truncated
    omega
  obtain ⟨payload, crcLow, crcHigh, rest, rfl, length⟩ := exists_payload complete
  exact .inr ⟨low, high, kind, payload, crcLow, crcHigh, rest, by rw [not_ne_iff.mp synced], length.symm⟩

theorem decodeFrameWithLimit_total (buf : List UInt8) (limit : Nat) :
    ∃ result, decodeFrameWithLimit buf limit = .ok result := by
  rcases decodeFrameWithLimit_shape buf limit with
    ⟨error, rejected⟩ | ⟨low, high, kind, payload, crcLow, crcHigh, rest, rfl, length⟩
  · exact ⟨.error error, rejected⟩
  · exact ⟨_, decodeFrameWithLimit_segment low high kind crcLow crcHigh payload rest limit length⟩

theorem encoded_length_field (payload : List UInt8) (bound : payload.length ≤ 65535) :
    (fromLeBytes (UInt16.ofNat payload.length).toUInt8
      (UInt16.ofNat payload.length >>> 8).toUInt8).toNat = payload.length := by
  rw [fromLeBytes_toLeBytes, UInt16.toNat_ofNat']
  omega

theorem decodeFrameWithLimit_encode (msgType : MsgType) (payload rest : List UInt8) (limit : Nat)
    (bound : payload.length ≤ limit) (fits : payload.length ≤ 65535) :
    decodeFrameWithLimit (encodeFrameInner msgType payload ++ rest) limit =
      .ok (.ok ⟨msgType, payload⟩) := by
  have within : ¬payload.length > limit := by omega
  simp only [encodeFrameInner_eq_cons, toLeBytes, cons_append, append_assoc, nil_append]
  rw [decodeFrameWithLimit_segment _ _ _ _ _ _ _ _ (encoded_length_field payload fits)]
  simp only [within, if_false, fromU8_toU8, fromLeBytes_toLeBytes]
  simp [crcRegion, toLeBytes]

theorem decodeFrameWithLimit_sound {buf : List UInt8} {limit : Nat} {frame : Frame}
    (decoded : decodeFrameWithLimit buf limit = .ok (.ok frame)) :
    frame.payload.length ≤ limit ∧ frame.payload.length ≤ 65535 ∧
      encodeFrameInner frame.msgType frame.payload <+: buf := by
  rcases decodeFrameWithLimit_shape buf limit with
    ⟨error, rejected⟩ | ⟨low, high, kind, payload, crcLow, crcHigh, rest, rfl, length⟩
  · rw [rejected] at decoded
    cases decoded
  · rw [decodeFrameWithLimit_segment _ _ _ _ _ _ _ _ length] at decoded
    simp only [Except.ok.injEq] at decoded
    split at decoded
    · cases decoded
    rename_i within
    split at decoded
    · cases decoded
    rename_i msgType known
    split at decoded
    · rename_i checksum
      cases decoded
      have wordBound := (fromLeBytes low high).toNat_lt
      have lengthWord : UInt16.ofNat payload.length = fromLeBytes low high := by
        rw [← length, UInt16.ofNat_toNat]
      have lengthBytes := toLeBytes_fromLeBytes low high
      have region : crcRegion msgType payload = low :: high :: kind :: payload := by
        simp [crcRegion, lengthWord, lengthBytes, toU8_of_fromU8 known]
      have withinLimit : payload.length ≤ limit := by omega
      have withinWord : payload.length ≤ 65535 := by omega
      refine ⟨withinLimit, withinWord, rest, ?_⟩
      simp [encodeFrameInner, region, lengthWord, lengthBytes, checksum, toLeBytes_fromLeBytes,
        toU8_of_fromU8 known]
    · cases decoded

theorem decodeFrameWithLimit_segment_eq {low high kind crcLow crcHigh : UInt8}
    {payload : List UInt8} {limit : Nat} {frame : Frame}
    (length : (fromLeBytes low high).toNat = payload.length)
    (decoded : decodeFrameWithLimit
      (frameMagic :: low :: high :: kind :: (payload ++ [crcLow, crcHigh])) limit = .ok (.ok frame)) :
    frameMagic :: low :: high :: kind :: (payload ++ [crcLow, crcHigh]) =
      encodeFrameInner frame.msgType frame.payload := by
  have encoded := (decodeFrameWithLimit_sound decoded).2.2
  rw [decodeFrameWithLimit_segment _ _ _ _ _ _ _ _ length] at decoded
  have same : frame.payload = payload := by
    simp only [Except.ok.injEq] at decoded
    repeat' split at decoded
    all_goals cases decoded
    rfl
  refine (encoded.eq_of_length ?_).symm
  rw [encodeFrameInner_length, same]
  simp [frameOverhead]
  omega

theorem decodeFrameWithLimit_eq_ok_iff (buf : List UInt8) (limit : Nat) (frame : Frame) :
    decodeFrameWithLimit buf limit = .ok (.ok frame) ↔
      frame.payload.length ≤ limit ∧ frame.payload.length ≤ 65535 ∧
        encodeFrameInner frame.msgType frame.payload <+: buf := by
  constructor
  · exact decodeFrameWithLimit_sound
  · rintro ⟨bound, fits, rest, rfl⟩
    exact decodeFrameWithLimit_encode frame.msgType frame.payload rest limit bound fits

/-- The accepted language is the set of encodings followed by anything, a buffer
starts with at most one of them, and re-encoding reproduces the consumed bytes. -/
theorem decodeFrameWithLimit_language (limit : Nat) (buf : List UInt8) :
    (∀ frame, decodeFrameWithLimit buf limit = .ok (.ok frame) ↔
      frame.payload.length ≤ min limit 65535 ∧
        (encodeFrameInner frame.msgType frame.payload).length = 6 + frame.payload.length ∧
        encodeFrameInner frame.msgType frame.payload <+: buf) ∧
    (∀ frame other : Frame, frame.payload.length ≤ 65535 → other.payload.length ≤ 65535 →
      encodeFrameInner frame.msgType frame.payload <+: buf →
      encodeFrameInner other.msgType other.payload <+: buf → frame = other) ∧
    (∀ frame, decodeFrameWithLimit buf limit = .ok (.ok frame) →
      buf.take (6 + frame.payload.length) = encodeFrameInner frame.msgType frame.payload) := by
  refine ⟨?_, ?_, ?_⟩
  · intro frame
    rw [decodeFrameWithLimit_eq_ok_iff, encodeFrameInner_length, Nat.le_min, and_assoc, frameOverhead]
    simp only [true_and]
  · intro frame other frameFits otherFits frameEncoded otherEncoded
    have first := (decodeFrameWithLimit_eq_ok_iff buf 65535 frame).mpr ⟨frameFits, frameFits, frameEncoded⟩
    have second := (decodeFrameWithLimit_eq_ok_iff buf 65535 other).mpr ⟨otherFits, otherFits, otherEncoded⟩
    rw [first] at second
    simpa using second
  · intro frame decoded
    obtain ⟨rest, rfl⟩ := (decodeFrameWithLimit_sound decoded).2.2
    rw [take_left' (by rw [encodeFrameInner_length, frameOverhead])]

/-- A successful encoding is read back exactly when its length survives the cast to
`u16`; the encoder itself only compares it with the limit. -/
theorem encodeFrameWithLimit_decodes_iff (msgType : MsgType) (payload : List UInt8) (limit : Nat)
    (rest : List UInt8) :
    (∀ wire, encodeFrameWithLimit msgType payload limit = .ok wire →
      decodeFrameWithLimit (wire ++ rest) limit = .ok (.ok ⟨msgType, payload⟩)) ↔
      (limit < payload.length ∨ payload.length ≤ 65535) := by
  by_cases oversized : payload.length > limit
  · simp [encodeFrameWithLimit, oversized]
  · simp only [encodeFrameWithLimit, oversized, if_false, Except.ok.injEq, forall_eq', false_or]
    constructor
    · intro decoded
      exact (decodeFrameWithLimit_sound decoded).2.1
    · intro fits
      exact decodeFrameWithLimit_encode msgType payload rest limit (by omega) fits

theorem encodeFrameWithLimit_wraps_at_65536 :
    ¬∀ wire, encodeFrameWithLimit .telemetryBatch (List.replicate 65536 0) 65536 = .ok wire →
      decodeFrameWithLimit (wire ++ []) 65536 =
        .ok (.ok ⟨.telemetryBatch, List.replicate 65536 0⟩) := by
  intro decodes
  have encoded : encodeFrameWithLimit .telemetryBatch (List.replicate 65536 0) 65536 =
      .ok (encodeFrameInner .telemetryBatch (List.replicate 65536 0)) := by
    rw [encodeFrameWithLimit, if_neg (by rw [length_replicate]; omega)]
  have fits := (decodeFrameWithLimit_sound (decodes _ encoded)).2.1
  rw [length_replicate] at fits
  omega

end Kei.Wire
