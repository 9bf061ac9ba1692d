import Kei.Wire.DecodeStep

/-! Frames and noise on one line. Every frame comes out at its own last byte and
nothing else does, whatever bytes the payloads carry. -/

namespace Kei.Wire

open Library Checked List

namespace FrameDecoder

def streamBytes (lead : List UInt8) (frames : List (Frame × List UInt8)) : List UInt8 :=
  lead ++ frames.flatMap fun entry =>
    encodeFrameInner entry.1.msgType entry.1.payload ++ entry.2

def streamAnswers (lead : List UInt8) (frames : List (Frame × List UInt8)) :
    List (Except DecodeStreamError Frame) :=
  replicate lead.length (.error .needMore) ++ frames.flatMap fun entry =>
    replicate (entry.1.payload.length + 5) (.error .needMore) ++ [.ok entry.1] ++
      replicate entry.2.length (.error .needMore)

theorem feed_entries (limit : Nat) (frames : List (Frame × List UInt8))
    (bounded : ∀ entry ∈ frames, entry.1.payload.length ≤ limit ∧ entry.1.payload.length ≤ 65535)
    (quiet : ∀ entry ∈ frames, ∀ byte ∈ entry.2, byte ≠ frameMagic) :
    feed push (withMaxPayload limit) (streamBytes [] frames) =
      .ok (streamAnswers [] frames, withMaxPayload limit) := by
  induction frames with
  | nil => rfl
  | cons entry rest ih =>
    obtain ⟨within, fits⟩ := bounded entry (by simp)
    have encoding := feed_encoding entry.1 limit within fits
    have noise := feed_noise limit entry.2 (quiet entry (by simp))
    have tail := ih (fun other member => bounded other (by simp [member]))
      (fun other member => quiet other (by simp [member]))
    simpa [streamBytes, streamAnswers] using feed_append (feed_append encoding noise) tail

theorem streamAnswers_frames (lead : List UInt8) (frames : List (Frame × List UInt8)) :
    (streamAnswers lead frames).filterMap Except.toOption = frames.map Prod.fst := by
  have quiet (count : Nat) :
      (replicate count (Except.error DecodeStreamError.needMore : Except _ Frame)).filterMap
        Except.toOption = [] := by
    simp [filterMap_replicate, Except.toOption]
  induction frames with
  | nil => simp [streamAnswers, quiet]
  | cons entry rest ih =>
    simp only [streamAnswers, filterMap_append, quiet, nil_append, flatMap_cons, map_cons] at ih ⊢
    rw [ih]
    rfl

/-- A fresh or reset decoder recovers every frame of a noisy stream, in order and at
its last byte, and agrees with the one-shot decoder on each of them. -/
theorem push_stream (limit : Nat) (small : limit ≤ 65535) (start : FrameDecoder)
    (fresh : start = withMaxPayload limit ∨
      ∃ used : FrameDecoder, used.maxPayloadLen = limit ∧ start = used.reset)
    (lead : List UInt8) (frames : List (Frame × List UInt8))
    (bounded : ∀ entry ∈ frames, entry.1.payload.length ≤ limit)
    (quietLead : ∀ byte ∈ lead, byte ≠ frameMagic)
    (quiet : ∀ entry ∈ frames, ∀ byte ∈ entry.2, byte ≠ frameMagic) :
    feed push start (streamBytes lead frames) =
        .ok (streamAnswers lead frames, withMaxPayload limit) ∧
      (streamAnswers lead frames).filterMap Except.toOption = frames.map Prod.fst ∧
      ∀ entry ∈ frames, decodeFrameWithLimit
        (encodeFrameInner entry.1.msgType entry.1.payload) limit = .ok (.ok entry.1) := by
  have started : start = withMaxPayload limit := by
    rcases fresh with same | ⟨used, sameLimit, rfl⟩
    · exact same
    · rw [reset_eq_withMaxPayload, sameLimit]
  have fits (entry) (member : entry ∈ frames) : entry.1.payload.length ≤ 65535 :=
    Nat.le_trans (bounded entry member) small
  refine ⟨?_, streamAnswers_frames lead frames, ?_⟩
  · subst started
    have entries := feed_entries limit frames
      (fun entry member => ⟨bounded entry member, fits entry member⟩) quiet
    simpa [streamBytes, streamAnswers] using feed_append (feed_noise limit lead quietLead) entries
  · intro entry member
    have decoded := decodeFrameWithLimit_encode entry.1.msgType entry.1.payload [] limit
      (bounded entry member) (fits entry member)
    rwa [append_nil] at decoded

/-- A payload that is itself the start of a frame, between two runs of noise. -/
theorem push_stream_magic_payload :
    feed push (withMaxPayload 4) (streamBytes [0, 1] [(⟨.discover, [0xCE, 0, 0]⟩, [7])]) =
      .ok (streamAnswers [0, 1] [(⟨.discover, [0xCE, 0, 0]⟩, [7])], withMaxPayload 4) :=
  (push_stream 4 (by decide) (withMaxPayload 4) (Or.inl rfl) [0, 1]
    [(⟨.discover, [0xCE, 0, 0]⟩, [7])] (by simp) (by simp [frameMagic]) (by simp [frameMagic])).1

end FrameDecoder

end Kei.Wire
