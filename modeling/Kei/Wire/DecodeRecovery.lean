import Kei.Wire.DecodeStream
import Kei.Wire.DecodeTotal

/-! Damage on the line. A segment whose magic and length survive costs at most itself,
and silence brings the decoder back to `Sync` from wherever the line left it. -/

namespace Kei.Wire

open Library Checked List

namespace FrameDecoder

def encodings (frames : List Frame) : List UInt8 :=
  frames.flatMap fun frame => encodeFrameInner frame.msgType frame.payload

def encodingAnswers (frames : List Frame) : List (Except DecodeStreamError Frame) :=
  frames.flatMap fun frame =>
    List.replicate (frame.payload.length + 5) (.error .needMore) ++ [.ok frame]

def damaged (frame : Frame) (body : List UInt8) : List UInt8 :=
  (encodeFrameInner frame.msgType frame.payload).take 3 ++ body

theorem feed_encodings (limit : Nat) (frames : List Frame)
    (bounded : ∀ frame ∈ frames, frame.payload.length ≤ limit ∧ frame.payload.length ≤ 65535) :
    feed push (withMaxPayload limit) (encodings frames) =
      .ok (encodingAnswers frames, withMaxPayload limit) := by
  have entries := feed_entries limit (frames.map fun frame => (frame, []))
    (by simpa using bounded) (by simp)
  simpa [streamBytes, streamAnswers, encodings, encodingAnswers, flatMap_map] using entries

theorem feed_damaged (limit : Nat) (frame : Frame) (body : List UInt8)
    (length : body.length = frame.payload.length + 3) (within : frame.payload.length ≤ limit)
    (fits : frame.payload.length ≤ 65535) :
    ∃ answer, feed push (withMaxPayload limit) (damaged frame body) =
      .ok (List.replicate (frame.payload.length + 5) (.error .needMore) ++ [answer],
        withMaxPayload limit) := by
  obtain ⟨kind, payload, crcLow, crcHigh, count, rfl⟩ := exists_body _ body length
  have field := (encoded_length_field frame.payload fits).trans count.symm
  rw [← count] at within ⊢
  obtain ⟨result, decoded⟩ := decodeFrameWithLimit_total
    (frameMagic :: (UInt16.ofNat frame.payload.length).toUInt8 ::
      (UInt16.ofNat frame.payload.length >>> 8).toUInt8 :: kind :: (payload ++ [crcLow, crcHigh])) limit
  have segment := feed_segment _ _ kind crcLow crcHigh payload limit field within result decoded
  refine ⟨verdict result, ?_⟩
  rw [damaged, encodeFrameInner_eq_cons]
  exact segment

variable {frame : Frame} {limit : Nat}

theorem yielded_bounds {stream : List UInt8}
    {answers : List (Except DecodeStreamError Frame)} {decoder : FrameDecoder}
    (fed : feed push (withMaxPayload limit) stream = .ok (answers, decoder))
    (yielded : .ok frame ∈ answers) :
    frame.payload.length ≤ limit ∧ frame.payload.length ≤ 65535 := by
  obtain ⟨_, _, fedAgain, _, parts, _, gapErrors, valid, _, _, rfl⟩ := feed_history limit stream
  rw [fed, Except.ok.injEq, Prod.mk.injEq] at fedAgain
  obtain ⟨same, rfl⟩ := fedAgain
  have frames := answers_frames parts
    (gapErrors ++ List.replicate decoder.buf.length .needMore)
  have tail : failures (gapErrors ++ List.replicate decoder.buf.length .needMore) =
      failures gapErrors ++ List.replicate decoder.buf.length (.error .needMore) := by
    simp [failures]
  rw [tail, ← append_assoc, ← same] at frames
  have member : frame ∈ answers.filterMap Except.toOption :=
    mem_filterMap.mpr ⟨.ok frame, yielded, rfl⟩
  rw [frames, mem_map] at member
  obtain ⟨part, known, rfl⟩ := member
  obtain ⟨_, low, high, _, _, _, _, length, _, _, within⟩ := valid part known
  have small := (fromLeBytes low high).toNat_lt
  refine ⟨within, ?_⟩
  omega

theorem feed_silence (limit : Nat) (decoder : FrameDecoder) (noise : List UInt8)
    (coherent : Coherent limit decoder) (quiet : ∀ byte ∈ noise, byte ≠ frameMagic)
    (enough : decoder.remaining ≤ noise.length) :
    ∃ answers, feed push decoder noise = .ok (answers, withMaxPayload limit) := by
  induction noise generalizing decoder with
  | nil =>
    have idle := coherent.synchronised (Nat.le_zero.mp enough)
    exact ⟨[], by rw [idle, feed_nil]⟩
  | cons byte rest ih =>
    obtain ⟨answer, next, stepped, kept, outcome⟩ := push_outcome coherent byte
    have closer : next.remaining ≤ rest.length := by
      rw [length_cons] at enough
      cases outcome with
      | skipped idle noise => simp [withMaxPayload, remaining]
      | collected next appended closer =>
        have := closer (quiet byte (by simp))
        omega
      | rejected error => simp [withMaxPayload, remaining]
      | yielded frame within fits complete => simp [withMaxPayload, remaining]
    obtain ⟨answers, fed⟩ := ih next kept (fun other member => quiet other (by simp [member])) closer
    exact ⟨answer :: answers, feed_cons stepped fed⟩

theorem feed_stream_silence (limit : Nat) (stream noise : List UInt8)
    (quiet : ∀ byte ∈ noise, byte ≠ frameMagic) (long : limit + 5 ≤ noise.length) :
    ∃ answers, feed push (withMaxPayload limit) (stream ++ noise) =
      .ok (answers, withMaxPayload limit) := by
  obtain ⟨first, decoder, fed, coherent, _⟩ := feed_history limit stream
  obtain ⟨second, silent⟩ := feed_silence limit decoder noise coherent quiet
    (Nat.le_trans coherent.remaining_le long)
  exact ⟨first ++ second, feed_append fed silent⟩

/-- Whatever replaces one frame after its length field, all the others are yielded as
if it had not. -/
def Contained (limit : Nat) (frames : List Frame) : Prop :=
  ∀ (before : List Frame) (frame : Frame) (after : List Frame) (body : List UInt8),
    frames = before ++ frame :: after → body.length = frame.payload.length + 3 →
    ∃ answers decoder,
      feed push (withMaxPayload limit) (encodings before ++ damaged frame body ++ encodings after) =
        .ok (encodingAnswers before ++ answers ++ encodingAnswers after, decoder)

/-- `limit + 5` bytes without the magic byte, after any stream, and the next frame that
the limit admits is decoded. -/
def DecodedAfterSilence (limit : Nat) (frame : Frame) : Prop :=
  ∀ stream noise : List UInt8, (∀ byte ∈ noise, byte ≠ frameMagic) → limit + 5 ≤ noise.length →
    frame.payload.length ≤ limit →
    ∃ answers, feed push (withMaxPayload limit)
        (stream ++ noise ++ encodeFrameInner frame.msgType frame.payload) =
      .ok (answers ++ (List.replicate (frame.payload.length + 5) (.error .needMore) ++ [.ok frame]),
        withMaxPayload limit)

theorem contained_of_bounded (limit : Nat) (frames : List Frame)
    (bounded : ∀ frame ∈ frames, frame.payload.length ≤ limit ∧ frame.payload.length ≤ 65535) :
    Contained limit frames := by
  intro before frame after body split length
  subst split
  obtain ⟨within, fits⟩ := bounded frame (by simp)
  have first := feed_encodings limit before (fun other member => bounded other (by simp [member]))
  have last := feed_encodings limit after (fun other member => bounded other (by simp [member]))
  obtain ⟨answer, middle⟩ := feed_damaged limit frame body length within fits
  exact ⟨_, _, feed_append (feed_append first middle) last⟩

theorem mem_encodingAnswers {frames : List Frame} (member : frame ∈ frames) :
    .ok frame ∈ encodingAnswers frames :=
  mem_flatMap.mpr ⟨frame, member, by simp⟩

theorem bounded_of_contained {frames : List Frame} (contained : Contained limit frames)
    (several : 1 < frames.length) (member : frame ∈ frames) :
    frame.payload.length ≤ limit ∧ frame.payload.length ≤ 65535 := by
  have intact (other : Frame) :
      ((encodeFrameInner other.msgType other.payload).drop 3).length = other.payload.length + 3 := by
    rw [length_drop, encodeFrameInner_length, frameOverhead]
    omega
  obtain ⟨before, after, rfl⟩ := append_of_mem member
  cases after with
  | cons other rest =>
    obtain ⟨_, _, fed⟩ := contained (before ++ [frame]) other rest _ (by simp) (intact other)
    exact yielded_bounds fed (by simp [mem_encodingAnswers])
  | nil =>
    cases before with
    | nil => simp at several
    | cons other rest =>
      obtain ⟨_, _, fed⟩ := contained [] other (rest ++ [frame]) _ (by simp) (intact other)
      exact yielded_bounds fed (by simp [mem_encodingAnswers])

theorem decodedAfterSilence_of_fits
    (fits : frame.payload.length ≤ limit → frame.payload.length ≤ 65535) :
    DecodedAfterSilence limit frame := by
  intro stream noise quiet long within
  obtain ⟨answers, silent⟩ := feed_stream_silence limit stream noise quiet long
  exact ⟨answers, feed_append silent (feed_encoding frame limit within (fits within))⟩

theorem fits_of_decodedAfterSilence
    (decoded : DecodedAfterSilence limit frame) (within : frame.payload.length ≤ limit) :
    frame.payload.length ≤ 65535 := by
  obtain ⟨_, fed⟩ := decoded [] (List.replicate (limit + 5) 0) (by simp [frameMagic]) (by simp) within
  exact (yielded_bounds fed (by simp)).2

/-- The decoder contains damage and resynchronises except where a payload is longer than
its 16-bit length field can say, which a limit above 65535 admits. -/
theorem push_recovers_iff (limit : Nat) (frames : List Frame) (frame : Frame) :
    (Contained limit frames ↔ frames.length ≤ 1 ∨
      ∀ other ∈ frames, other.payload.length ≤ limit ∧ other.payload.length ≤ 65535) ∧
    (∀ stream noise : List UInt8, (∀ byte ∈ noise, byte ≠ frameMagic) → limit + 5 ≤ noise.length →
      ∃ answers, feed push (withMaxPayload limit) (stream ++ noise) =
        .ok (answers, withMaxPayload limit)) ∧
    (DecodedAfterSilence limit frame ↔
      (frame.payload.length ≤ limit → frame.payload.length ≤ 65535)) := by
  refine ⟨⟨?_, ?_⟩, feed_stream_silence limit, fits_of_decodedAfterSilence,
    decodedAfterSilence_of_fits⟩
  · intro contained
    by_cases few : frames.length ≤ 1
    · exact Or.inl few
    · exact Or.inr fun other member => bounded_of_contained contained (by omega) member
  · rintro (few | bounded)
    · intro before other after body split length
      have alone : before = [] ∧ after = [] := by
        rw [split, length_append, length_cons] at few
        exact ⟨eq_nil_of_length_eq_zero (by omega), eq_nil_of_length_eq_zero (by omega)⟩
      obtain ⟨rfl, rfl⟩ := alone
      obtain ⟨answers, decoder, fed, _⟩ := feed_history limit (damaged other body)
      exact ⟨answers, decoder, by simpa [encodings, encodingAnswers] using fed⟩
    · exact contained_of_bounded limit frames bounded

/-- A decoder for payloads up to 65536 bytes does not decode a frame of exactly that
payload. -/
theorem push_loses_frame_of_65536 :
    ¬DecodedAfterSilence 65536 ⟨.telemetryBatch, List.replicate 65536 0⟩ := by
  intro decoded
  have length : (List.replicate 65536 (0 : UInt8)).length = 65536 := length_replicate
  have fits := fits_of_decodedAfterSilence decoded (Nat.le_of_eq length)
  rw [length] at fits
  omega

end FrameDecoder

end Kei.Wire
