import Kei.Wire.DecodeStep

/-! The streaming decoder on arbitrary input. `Coherent` lists the decoders a stream
can lead to; in each of them every byte has one of the four `Outcome`s, none of which
is a panic, and the outcomes add up to a cut of the stream into gaps and segments. -/

namespace Kei.Wire

open Library Checked List

namespace FrameDecoder

inductive Coherent (limit : Nat) : FrameDecoder → Prop
  | sync : Coherent limit (withMaxPayload limit)
  | header (buf : List UInt8) (started : buf.head? = some frameMagic) (short : buf.length ≤ 3) :
      Coherent limit ⟨.header, buf, 0, limit⟩
  | payload (low high kind : UInt8) (received : List UInt8) (expected : Nat)
      (length : (fromLeBytes low high).toNat = expected) (within : expected ≤ limit)
      (missing : received.length < expected) :
      Coherent limit
        ⟨.payload, frameMagic :: low :: high :: kind :: received, expected, limit⟩
  | crc (low high kind : UInt8) (payload checksum : List UInt8)
      (length : (fromLeBytes low high).toNat = payload.length) (within : payload.length ≤ limit)
      (short : checksum.length ≤ 1) :
      Coherent limit
        ⟨.crc, frameMagic :: low :: high :: kind :: (payload ++ checksum), payload.length, limit⟩

open Coherent

variable {decoder : FrameDecoder} {limit : Nat}

theorem Coherent.buf_length (coherent : Coherent limit decoder) :
    decoder.buf.length + 1 ≤ limit + 6 := by
  cases coherent with
  | sync => simp [withMaxPayload]
  | header buf started short =>
    have bound : buf.length ≤ 3 := short
    simp only
    omega
  | payload low high kind received expected length within missing =>
    simp only [length_cons]
    omega
  | crc low high kind payload checksum length within short =>
    simp only [length_cons, length_append]
    omega

def remaining (decoder : FrameDecoder) : Nat :=
  match decoder.state with
  | .sync => 0
  | .header => decoder.maxPayloadLen + 6 - decoder.buf.length
  | .payload | .crc => decoder.expectedPayloadLen + 6 - decoder.buf.length

theorem Coherent.remaining_le
    (coherent : Coherent limit decoder) : decoder.remaining ≤ limit + 5 := by
  cases coherent with
  | sync => simp [withMaxPayload, remaining]
  | header buf started short =>
    have nonempty : 0 < buf.length := by
      cases buf with
      | nil => simp at started
      | cons first rest => simp
    simp only [remaining]
    omega
  | payload low high kind received expected length within missing =>
    simp only [remaining, length_cons]
    omega
  | crc low high kind payload checksum length within short =>
    simp only [remaining, length_cons]
    omega

theorem Coherent.synchronised
    (coherent : Coherent limit decoder) (none : decoder.remaining = 0) :
    decoder = withMaxPayload limit := by
  cases coherent with
  | sync => rfl
  | header buf started short =>
    simp only [remaining] at none
    omega
  | payload low high kind received expected length within missing =>
    simp only [remaining, length_cons] at none
    omega
  | crc low high kind payload checksum length within short =>
    simp only [remaining, length_cons, length_append] at none
    omega

inductive Outcome (limit : Nat) (decoder : FrameDecoder) (byte : UInt8) :
    Except DecodeStreamError Frame → FrameDecoder → Prop
  | skipped (idle : decoder = withMaxPayload limit) (noise : byte ≠ frameMagic) :
      Outcome limit decoder byte (.error .needMore) (withMaxPayload limit)
  | collected (next : FrameDecoder) (appended : next.buf = decoder.buf ++ [byte])
      (closer : byte ≠ frameMagic → next.remaining < decoder.remaining) :
      Outcome limit decoder byte (.error .needMore) next
  | rejected (error : DecodeStreamError) :
      Outcome limit decoder byte (.error error) (withMaxPayload limit)
  | yielded (frame : Frame) (within : frame.payload.length ≤ limit)
      (fits : frame.payload.length ≤ 65535)
      (complete : decoder.buf ++ [byte] = encodeFrameInner frame.msgType frame.payload) :
      Outcome limit decoder byte (.ok frame) (withMaxPayload limit)

open Outcome

theorem push_sync_outcome (limit : Nat) (byte : UInt8) :
    ∃ answer next, push (withMaxPayload limit) byte = .ok (answer, next) ∧ Coherent limit next ∧
      Outcome limit (withMaxPayload limit) byte answer next := by
  by_cases magic : byte = frameMagic
  · subst magic
    refine ⟨_, _, push_sync_magic limit, header _ rfl (by simp), ?_⟩
    exact collected _ rfl (fun noise => absurd rfl noise)
  · exact ⟨_, _, push_sync_noise limit byte magic, sync, skipped rfl magic⟩

theorem push_header_outcome (limit : Nat) (buf : List UInt8) (byte : UInt8)
    (started : buf.head? = some frameMagic) (short : buf.length ≤ 3) :
    ∃ answer next, push ⟨.header, buf, 0, limit⟩ byte = .ok (answer, next) ∧ Coherent limit next ∧
      Outcome limit ⟨.header, buf, 0, limit⟩ byte answer next := by
  by_cases incomplete : buf.length < 3
  · refine ⟨_, _, push_header_short buf 0 limit byte incomplete, header _ ?_ ?_, collected _ rfl ?_⟩
    · simp [List.head?_append, started]
    · simp only [length_append, length_singleton]
      omega
    · intro _
      simp only [remaining, length_append, length_singleton]
      omega
  · have three : buf.length = 3 := by omega
    obtain ⟨magic, low, high, rfl⟩ := length_eq_three.mp three
    simp only [List.head?_cons, Option.some.injEq] at started
    subst started
    by_cases oversized : (fromLeBytes low high).toNat > limit
    · exact ⟨_, _, (push_header frameMagic low high byte 0 limit).trans (if_pos oversized), sync,
        rejected .payloadTooLong⟩
    · have within : (fromLeBytes low high).toNat ≤ limit := by omega
      refine ⟨_, _, (push_header frameMagic low high byte 0 limit).trans (if_neg oversized), ?_,
        collected _ rfl ?_⟩
      · split
        · rename_i empty
          rw [empty]
          exact crc low high byte [] [] (by simpa using empty) (by simp) (by simp)
        · rename_i nonempty
          exact payload low high byte [] _ rfl within (by simp only [length_nil]; omega)
      · intro _
        split <;> simp only [remaining, length_cons, length_nil] <;> omega

theorem push_payload_outcome (limit : Nat) (low high kind : UInt8) (received : List UInt8)
    (expected : Nat) (byte : UInt8) (length : (fromLeBytes low high).toNat = expected)
    (within : expected ≤ limit) (missing : received.length < expected) :
    ∃ answer next,
      push ⟨.payload, frameMagic :: low :: high :: kind :: received, expected, limit⟩ byte =
        .ok (answer, next) ∧ Coherent limit next ∧
      Outcome limit ⟨.payload, frameMagic :: low :: high :: kind :: received, expected, limit⟩ byte
        answer next := by
  refine ⟨_, _, push_payload _ expected limit byte (by simp), ?_, collected _ rfl ?_⟩
  · split
    · rename_i more
      simp only [length_cons] at more
      exact payload low high kind (received ++ [byte]) expected length within
        (by simp only [length_append, length_singleton]; omega)
    · rename_i done
      simp only [length_cons] at done
      have exact_length : expected = (received ++ [byte]).length := by
        simp only [length_append, length_singleton]
        omega
      subst exact_length
      simpa using crc low high kind (received ++ [byte]) [] length within (by simp)
  · intro _
    split <;> simp only [remaining, length_append, length_cons, length_nil] <;> omega

theorem push_crc_outcome (limit : Nat) (low high kind : UInt8) (payload checksum : List UInt8)
    (byte : UInt8) (length : (fromLeBytes low high).toNat = payload.length)
    (within : payload.length ≤ limit) (short : checksum.length ≤ 1) :
    ∃ answer next,
      push ⟨.crc, frameMagic :: low :: high :: kind :: (payload ++ checksum), payload.length, limit⟩
        byte = .ok (answer, next) ∧ Coherent limit next ∧
      Outcome limit
        ⟨.crc, frameMagic :: low :: high :: kind :: (payload ++ checksum), payload.length, limit⟩ byte
        answer next := by
  match checksum, short with
  | [], _ =>
    refine ⟨_, _, push_crc_short _ payload.length limit byte ?_, ?_, collected _ rfl ?_⟩
    · simp only [length_cons, append_nil]
      omega
    · simpa using crc low high kind payload [byte] length within (by simp)
    · intro _
      simp only [remaining, length_append, length_cons, length_nil]
      omega
  | [crcLow], _ =>
    obtain ⟨result, decoded⟩ := decodeFrameWithLimit_total
      (frameMagic :: low :: high :: kind :: (payload ++ [crcLow]) ++ [byte]) limit
    have full : 4 + payload.length + 2 ≤
        (frameMagic :: low :: high :: kind :: (payload ++ [crcLow])).length + 1 := by
      simp only [length_cons, length_append, length_nil]
      omega
    refine ⟨_, _, push_crc_last _ payload.length limit byte result full decoded, sync, ?_⟩
    cases result with
    | error error => exact rejected _
    | ok frame =>
      obtain ⟨bound, fits, _⟩ := decodeFrameWithLimit_sound decoded
      simp only [cons_append, append_assoc, nil_append] at decoded
      refine yielded frame bound fits ?_
      simpa using decodeFrameWithLimit_segment_eq length decoded

theorem push_outcome (coherent : Coherent limit decoder)
    (byte : UInt8) :
    ∃ answer next, push decoder byte = .ok (answer, next) ∧ Coherent limit next ∧
      Outcome limit decoder byte answer next := by
  cases coherent with
  | sync => exact push_sync_outcome limit byte
  | header buf started short => exact push_header_outcome limit buf byte started short
  | payload low high kind received expected length within missing =>
    exact push_payload_outcome limit low high kind received expected byte length within missing
  | crc low high kind payload checksum length within short =>
    exact push_crc_outcome limit low high kind payload checksum byte length within short

/-- `magic ++ len ++ type ++ payload ++ crc`, with the checksum over everything between
magic and checksum. -/
def IsSegment (limit : Nat) (frame : Frame) (bytes : List UInt8) : Prop :=
  ∃ low high kind crcLow crcHigh,
    bytes = [frameMagic, low, high, kind] ++ frame.payload ++ [crcLow, crcHigh] ∧
      (fromLeBytes low high).toNat = frame.payload.length ∧
      MsgType.fromU8 kind = some frame.msgType ∧
      fromLeBytes crcLow crcHigh = crc16Modbus ([low, high, kind] ++ frame.payload) ∧
      frame.payload.length ≤ limit

theorem isSegment_encodeFrameInner (limit : Nat) (frame : Frame) (within : frame.payload.length ≤ limit)
    (fits : frame.payload.length ≤ 65535) :
    IsSegment limit frame (encodeFrameInner frame.msgType frame.payload) := by
  let checksum := crc16Modbus (crcRegion frame.msgType frame.payload)
  refine ⟨(UInt16.ofNat frame.payload.length).toUInt8, (UInt16.ofNat frame.payload.length >>> 8).toUInt8,
    frame.msgType.toU8, checksum.toUInt8, (checksum >>> 8).toUInt8, ?_,
    encoded_length_field frame.payload fits, MsgType.fromU8_toU8 frame.msgType, ?_, within⟩
  · rw [encodeFrameInner_eq_cons, toLeBytes]
    rfl
  · rw [fromLeBytes_toLeBytes]
    rfl

def failures (errors : List DecodeStreamError) : List (Except DecodeStreamError Frame) :=
  errors.map .error

structure Part where
  gap : List UInt8
  gapErrors : List DecodeStreamError
  segment : List UInt8
  frame : Frame

def Part.bytes (part : Part) : List UInt8 := part.gap ++ part.segment

def Part.answers (part : Part) : List (Except DecodeStreamError Frame) :=
  failures part.gapErrors ++ List.replicate (part.segment.length - 1) (.error .needMore) ++
    [.ok part.frame]

def Part.Valid (limit : Nat) (part : Part) : Prop :=
  part.gapErrors.length = part.gap.length ∧ IsSegment limit part.frame part.segment

def History (limit : Nat) (stream : List UInt8) (answers : List (Except DecodeStreamError Frame))
    (decoder : FrameDecoder) : Prop :=
  Coherent limit decoder ∧ ∃ (parts : List Part) (gap : List UInt8)
      (gapErrors : List DecodeStreamError),
    (∀ part ∈ parts, Part.Valid limit part) ∧ gapErrors.length = gap.length ∧
      stream = parts.flatMap Part.bytes ++ gap ++ decoder.buf ∧
      answers = parts.flatMap Part.answers ++ failures gapErrors ++
        List.replicate decoder.buf.length (.error .needMore)

theorem history_step {stream : List UInt8}
    {answers : List (Except DecodeStreamError Frame)} (byte : UInt8)
    (history : History limit stream answers decoder) :
    ∃ answer next, push decoder byte = .ok (answer, next) ∧
      History limit (stream ++ [byte]) (answers ++ [answer]) next := by
  obtain ⟨coherent, parts, gap, gapErrors, valid, aligned, rfl, rfl⟩ := history
  obtain ⟨answer, next, stepped, kept, outcome⟩ := push_outcome coherent byte
  refine ⟨answer, next, stepped, kept, ?_⟩
  cases outcome with
  | skipped idle noise =>
    subst idle
    refine ⟨parts, gap ++ [byte], gapErrors ++ [.needMore], valid, by simp [aligned], ?_, ?_⟩
    · simp [withMaxPayload]
    · simp [withMaxPayload, failures]
  | collected next appended closer =>
    refine ⟨parts, gap, gapErrors, valid, aligned, ?_, ?_⟩
    · simp [appended]
    · simp [appended, replicate_succ']
  | rejected error =>
    refine ⟨parts, gap ++ decoder.buf ++ [byte],
      gapErrors ++ List.replicate decoder.buf.length .needMore ++ [error], valid, ?_, ?_, ?_⟩
    · simp [aligned]
    · simp [withMaxPayload]
    · simp [withMaxPayload, failures]
  | yielded frame within fits complete =>
    refine ⟨parts ++ [⟨gap, gapErrors, decoder.buf ++ [byte], frame⟩], [], [], ?_, rfl, ?_, ?_⟩
    · intro part member
      rcases mem_append.mp member with old | last
      · exact valid part old
      · rw [mem_singleton] at last
        subst last
        refine ⟨aligned, ?_⟩
        simp only [complete]
        exact isSegment_encodeFrameInner limit frame within fits
    · simp [Part.bytes, withMaxPayload]
    · simp [Part.answers, withMaxPayload, failures]

theorem answers_frames (parts : List Part) (errors : List DecodeStreamError) :
    (parts.flatMap Part.answers ++ failures errors).filterMap Except.toOption =
      parts.map Part.frame := by
  have silent (errors : List DecodeStreamError) :
      (failures errors).filterMap Except.toOption = [] := by
    simp [failures, filterMap_map, Function.comp_def, Except.toOption]
  have answer (part : Part) : part.answers.filterMap Except.toOption = [part.frame] := by
    simp [Part.answers, silent, filterMap_replicate, Except.toOption]
  induction parts with
  | nil => exact silent errors
  | cons part rest ih =>
    rw [flatMap_cons, append_assoc, filterMap_append, ih, answer]
    rfl

theorem feed_history (limit : Nat) (stream : List UInt8) :
    ∃ answers decoder, feed push (withMaxPayload limit) stream = .ok (answers, decoder) ∧
      History limit stream answers decoder := by
  have initial : History limit [] [] (withMaxPayload limit) :=
    ⟨sync, [], [], [], by simp, rfl, rfl, rfl⟩
  exact feed_invariant (History limit) initial
    (fun _ _ _ byte history => history_step byte history) stream

/-- On any stream and for any limit the decoder runs without a panic, holds at most
`limit + 5` bytes between two calls (each call appends at most one), and what it
yields are disjoint segments of the stream, in order, each at its last byte. -/
theorem push_sound (limit : Nat) (stream : List UInt8) :
    ∃ answers decoder, feed push (withMaxPayload limit) stream = .ok (answers, decoder) ∧
      decoder.buf.length + 1 ≤ limit + 6 ∧
      ∃ (parts : List Part) (tail : List UInt8) (tailErrors : List DecodeStreamError),
        (∀ part ∈ parts, Part.Valid limit part) ∧
        stream = parts.flatMap Part.bytes ++ tail ∧
        answers = parts.flatMap Part.answers ++ failures tailErrors ∧
        tailErrors.length = tail.length ∧
        answers.filterMap Except.toOption = parts.map Part.frame := by
  obtain ⟨answers, decoder, fed, coherent, parts, gap, gapErrors, valid, aligned, cut, answered⟩ :=
    feed_history limit stream
  have tailAnswers : answers = parts.flatMap Part.answers ++
      failures (gapErrors ++ List.replicate decoder.buf.length .needMore) := by
    simp [answered, failures]
  refine ⟨answers, decoder, fed, coherent.buf_length, parts, gap ++ decoder.buf,
    gapErrors ++ List.replicate decoder.buf.length .needMore, valid, ?_, tailAnswers, ?_, ?_⟩
  · rw [cut, append_assoc]
  · simp [aligned]
  · rw [tailAnswers, answers_frames]

end FrameDecoder

end Kei.Wire
