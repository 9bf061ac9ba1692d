import Kei.Library.Delivery
import Kei.Wire.DecodeStep
import Kei.Wire.Messages

/-! The wire between the two ends: a transport that loses and reorders nothing, and the
decoder at its end seen as the receiver of framed messages. -/

namespace Kei.Wire

open Library Checked

structure Pipe where
  inbox : List UInt8
  outbox : List UInt8
  deriving DecidableEq, Repr

instance : Transport Pipe where
  send pipe data := (.ok data.length, { pipe with outbox := pipe.outbox ++ data })
  recv pipe buffer :=
    let count := min buffer.length pipe.inbox.length
    (.ok count, pipe.inbox.take count ++ buffer.drop count,
      { pipe with inbox := pipe.inbox.drop count })

@[simp] theorem Pipe.recv_cons (byte : UInt8) (inbox outbox : List UInt8) :
    Transport.recv (⟨byte :: inbox, outbox⟩ : Pipe) [0] = (.ok 1, [byte], ⟨inbox, outbox⟩) := by
  simp [Transport.recv]

def Frame.carried (frame : Frame) : Frame :=
  ⟨frame.msgType, frame.payload.take (min frame.payload.length maxPayloadLen)⟩

theorem Frame.carried_of_le {frame : Frame} (small : frame.payload.length ≤ maxPayloadLen) :
    frame.carried = frame := by
  rw [carried, Nat.min_eq_left small, List.take_length]

theorem decoder_framing {μ : Type} (frame : μ → Frame) :
    Framing FrameDecoder.push FrameDecoder.new (.error .needMore) (fun message => (frame message).encode)
      (fun message => .ok (frame message).carried) where
  fed message := by
    have within : (frame message).carried.payload.length ≤ maxPayloadLen := by
      simp only [Frame.carried, List.length_take]
      omega
    have fits : (frame message).carried.payload.length ≤ 65535 := Nat.le_trans within (by decide)
    have fed := FrameDecoder.feed_encoding (frame message).carried maxPayloadLen within fits
    exact ⟨(frame message).carried.payload.length + 5, fed⟩
  loud message := by
    intro same
    cases same

variable {decoder next : FrameDecoder} {byte : UInt8}

theorem FrameDecoder.pushByte_ne_needMore :
    pushByte decoder byte ≠ .ok (.error .needMore, next) := by
  intro pushed
  unfold pushByte at pushed
  split at pushed
  · split at pushed <;> simp at pushed
  · simp only at pushed
    split at pushed
    · simp [pure_eq_ok] at pushed
    · simp only [bind_eq_ok] at pushed
      obtain ⟨low, _, high, _, header⟩ := pushed
      split_ifs at header <;> simp [pure_eq_ok] at header
  · simp only [bind_eq_ok] at pushed
    obtain ⟨count, _, payload⟩ := pushed
    split at payload <;> simp [pure_eq_ok] at payload
  · simp only at pushed
    split at pushed
    · simp [pure_eq_ok] at pushed
    · simp only [bind_eq_ok] at pushed
      obtain ⟨result, _, crc⟩ := pushed
      split at crc <;> simp [pure_eq_ok] at crc

theorem FrameDecoder.pushSlice_singleton (decoder : FrameDecoder) (byte : UInt8) :
    pushSlice decoder [byte] = pushByte decoder byte := by
  simp only [pushSlice]
  rcases pushByte decoder byte with panic | ⟨error | _ | frame, next⟩ <;> rfl

theorem FrameDecoder.pushSlice_quiet
    (pushed : push decoder byte = .ok (.error .needMore, next)) :
    pushSlice decoder [byte] = .ok (.ok none, next) := by
  simp only [push, bind_eq_ok] at pushed
  obtain ⟨⟨error | _ | frame, last⟩, byteResult, same⟩ := pushed <;>
    simp only [pure_eq_ok, Except.ok.injEq, Prod.mk.injEq, Except.error.injEq, reduceCtorEq,
      false_and] at same
  · obtain ⟨rfl, rfl⟩ := same
    exact absurd byteResult pushByte_ne_needMore
  · rw [pushSlice_singleton, byteResult, same.2]

theorem FrameDecoder.pushSlice_frame {frame : Frame}
    (pushed : push decoder byte = .ok (.ok frame, next)) :
    pushSlice decoder [byte] = .ok (.ok (some frame), next) := by
  simp only [push, bind_eq_ok] at pushed
  obtain ⟨⟨error | _ | frame, last⟩, byteResult, same⟩ := pushed <;>
    simp only [pure_eq_ok, Except.ok.injEq, Prod.mk.injEq, reduceCtorEq, false_and] at same
  rw [pushSlice_singleton, byteResult, same.1, same.2]

end Kei.Wire
