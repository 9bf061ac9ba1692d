import Kei.Wire.DecodeCore
import Kei.Wire.Frame

/-! The transitions of the streaming decoder, one lemma per state, and the run over one
whole segment that they compose to. -/

namespace Kei.Wire

open Library Checked List

namespace FrameDecoder

@[simp] theorem reset_eq_withMaxPayload (decoder : FrameDecoder) :
    decoder.reset = withMaxPayload decoder.maxPayloadLen := rfl

def verdict : Except DecodeError Frame → Except DecodeStreamError Frame
  | .ok frame => .ok frame
  | .error error => .error (.decodeFailed error)

theorem push_sync_noise (limit : Nat) (byte : UInt8) (noise : byte ≠ frameMagic) :
    push (withMaxPayload limit) byte = .ok (.error .needMore, withMaxPayload limit) := by
  simp only [push, pushByte, withMaxPayload, noise, if_false]
  rfl

theorem push_sync_magic (limit : Nat) : push (withMaxPayload limit) frameMagic =
      .ok (.error .needMore, ⟨.header, [frameMagic], 0, limit⟩) := rfl

theorem push_header_short (buf : List UInt8) (expected limit : Nat) (byte : UInt8)
    (short : buf.length < 3) :
    push ⟨.header, buf, expected, limit⟩ byte =
      .ok (.error .needMore, ⟨.header, buf ++ [byte], expected, limit⟩) := by
  have incomplete : (buf ++ [byte]).length < 4 := by
    simp only [length_append, length_singleton]
    omega
  simp only [push, pushByte, incomplete, if_true]
  rfl

theorem push_header (magic low high kind : UInt8) (expected limit : Nat) :
    push ⟨.header, [magic, low, high], expected, limit⟩ kind =
      if (fromLeBytes low high).toNat > limit then .ok (.error .payloadTooLong, withMaxPayload limit)
      else .ok (.error .needMore,
        ⟨if (fromLeBytes low high).toNat = 0 then .crc else .payload, [magic, low, high, kind],
          (fromLeBytes low high).toNat, limit⟩) := by
  have lowByte : index [magic, low, high, kind] 1 = .ok low := rfl
  have highByte : index [magic, low, high, kind] 2 = .ok high := rfl
  have complete : ¬[magic, low, high, kind].length < 4 := by simp
  simp only [push, pushByte, cons_append, nil_append, complete, if_false, lowByte, highByte, bind_ok]
  split
  · rfl
  · split <;> rfl

section

variable (buf : List UInt8) (expected limit : Nat) (byte : UInt8)
include buf expected limit byte

theorem push_payload (headed : 4 ≤ buf.length) : push ⟨.payload, buf, expected, limit⟩ byte =
      .ok (.error .needMore,
        ⟨if buf.length + 1 < 4 + expected then .payload else .crc, buf ++ [byte], expected, limit⟩) := by
  have count : sub (buf ++ [byte]).length 4 = .ok (buf.length + 1 - 4) := by
    rw [length_append, length_singleton, sub_ok (by omega)]
  have same : buf.length + 1 - 4 < expected ↔ buf.length + 1 < 4 + expected := by omega
  simp only [push, pushByte, count, bind_ok, same]
  split <;> rfl

theorem push_crc_short (short : buf.length + 1 < 4 + expected + 2) :
    push ⟨.crc, buf, expected, limit⟩ byte =
      .ok (.error .needMore, ⟨.crc, buf ++ [byte], expected, limit⟩) := by
  have incomplete : (buf ++ [byte]).length < 4 + expected + 2 := by
    simpa only [length_append, length_singleton] using short
  simp only [push, pushByte, incomplete, if_true]
  rfl

theorem push_crc_last (result : Except DecodeError Frame) (full : 4 + expected + 2 ≤ buf.length + 1)
    (decoded : decodeFrameWithLimit (buf ++ [byte]) limit = .ok result) :
    push ⟨.crc, buf, expected, limit⟩ byte = .ok (verdict result, withMaxPayload limit) := by
  have complete : ¬(buf ++ [byte]).length < 4 + expected + 2 := by
    simp only [length_append, length_singleton]
    omega
  simp only [push, pushByte, complete, if_false, decoded, bind_ok]
  cases result <;> rfl

end

theorem feed_noise (limit : Nat) (noise : List UInt8) (quiet : ∀ byte ∈ noise, byte ≠ frameMagic) :
    feed push (withMaxPayload limit) noise =
      .ok (List.replicate noise.length (.error .needMore), withMaxPayload limit) := by
  induction noise with
  | nil => rfl
  | cons byte rest ih =>
    have stepped := push_sync_noise limit byte (quiet byte (by simp))
    have tail := ih (fun other member => quiet other (by simp [member]))
    simpa [replicate_succ] using feed_cons stepped tail

theorem feed_payload (buf bytes : List UInt8) (expected limit : Nat) (headed : 4 ≤ buf.length)
    (nonempty : bytes ≠ []) (count : buf.length + bytes.length = 4 + expected) :
    feed push ⟨.payload, buf, expected, limit⟩ bytes =
      .ok (List.replicate bytes.length (.error .needMore), ⟨.crc, buf ++ bytes, expected, limit⟩) := by
  induction bytes generalizing buf with
  | nil => contradiction
  | cons byte rest ih =>
    have stepped := push_payload buf expected limit byte headed
    rw [length_cons] at count
    by_cases last : rest = []
    · subst last
      have finished : ¬buf.length + 1 < 4 + expected := by
        rw [length_nil] at count
        omega
      rw [if_neg finished] at stepped
      exact feed_cons stepped rfl
    · have more : buf.length + 1 < 4 + expected := by
        have := length_pos_of_ne_nil last
        omega
      rw [if_pos more] at stepped
      have tail := ih (buf ++ [byte]) (by simp; omega) last (by simp; omega)
      simpa [replicate_succ, append_assoc] using feed_cons stepped tail

theorem feed_body (low high kind : UInt8) (payload : List UInt8) (limit : Nat)
    (length : (fromLeBytes low high).toNat = payload.length) (within : payload.length ≤ limit) :
    feed push (withMaxPayload limit) (frameMagic :: low :: high :: kind :: payload) =
      .ok (List.replicate (payload.length + 4) (.error .needMore),
        ⟨.crc, frameMagic :: low :: high :: kind :: payload, payload.length, limit⟩) := by
  have opened := push_sync_magic limit
  have first := push_header_short [frameMagic] 0 limit low (by simp)
  have second := push_header_short [frameMagic, low] 0 limit high (by simp)
  have third := push_header frameMagic low high kind 0 limit
  rw [if_neg (by omega)] at third
  have header : feed push (withMaxPayload limit) [frameMagic, low, high, kind] =
      .ok (List.replicate 4 (.error .needMore),
        ⟨if payload.length = 0 then .crc else .payload, [frameMagic, low, high, kind],
          payload.length, limit⟩) := by
    rw [length] at third
    exact feed_cons opened (feed_cons first (feed_cons second (feed_cons third rfl)))
  by_cases empty : payload = []
  · subst empty
    simpa using header
  · have positive : payload.length ≠ 0 := by simpa using empty
    rw [if_neg positive] at header
    have rest := feed_payload [frameMagic, low, high, kind] payload payload.length limit (by simp) empty
      (by simp)
    have joined := feed_append header rest
    rw [← replicate_add] at joined
    simpa [Nat.add_comm] using joined

theorem feed_segment (low high kind crcLow crcHigh : UInt8) (payload : List UInt8) (limit : Nat)
    (length : (fromLeBytes low high).toNat = payload.length) (within : payload.length ≤ limit)
    (result : Except DecodeError Frame)
    (decoded : decodeFrameWithLimit
      (frameMagic :: low :: high :: kind :: (payload ++ [crcLow, crcHigh])) limit = .ok result) :
    feed push (withMaxPayload limit)
        (frameMagic :: low :: high :: kind :: (payload ++ [crcLow, crcHigh])) =
      .ok (List.replicate (payload.length + 5) (.error .needMore) ++ [verdict result],
        withMaxPayload limit) := by
  have body := feed_body low high kind payload limit length within
  have first := push_crc_short (frameMagic :: low :: high :: kind :: payload) payload.length limit crcLow
    (by simp only [length_cons]; omega)
  have second := push_crc_last (frameMagic :: low :: high :: kind :: payload ++ [crcLow])
    payload.length limit crcHigh result (by simp; omega) (by simpa using decoded)
  have checksum := feed_cons first (feed_cons second (feed_nil _))
  have joined := feed_append body checksum
  rw [replicate_succ', append_assoc]
  simpa using joined

theorem feed_encoding (frame : Frame) (limit : Nat) (within : frame.payload.length ≤ limit)
    (fits : frame.payload.length ≤ 65535) :
    feed push (withMaxPayload limit) (encodeFrameInner frame.msgType frame.payload) =
      .ok (List.replicate (frame.payload.length + 5) (.error .needMore) ++ [.ok frame],
        withMaxPayload limit) := by
  have decoded := decodeFrameWithLimit_encode frame.msgType frame.payload [] limit within fits
  rw [append_nil] at decoded
  simp only [encodeFrameInner_eq_cons, toLeBytes] at decoded ⊢
  exact feed_segment _ _ _ _ _ _ limit (encoded_length_field frame.payload fits) within _ decoded

end FrameDecoder

end Kei.Wire
