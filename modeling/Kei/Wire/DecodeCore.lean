import Kei.Wire.FrameCore
import Kei.Library.Stream

/-! The streaming decoder (`wire/decode.rs`), one byte per call.

`Sync` discards bytes until the magic byte, `Header` collects length and message
type, `Payload` and `Crc` collect what the length field announced, and the complete
buffer goes to the one-shot decoder. -/

namespace Kei.Wire

open Library Checked

inductive State
  | sync
  | header
  | payload
  | crc
  deriving DecidableEq, Repr

inductive DecodeStreamError
  | needMore
  | payloadTooLong
  | decodeFailed (error : DecodeError)
  deriving DecidableEq, Repr

structure FrameDecoder where
  state : State
  buf : List UInt8
  expectedPayloadLen : Nat
  maxPayloadLen : Nat
  deriving DecidableEq, Repr

namespace FrameDecoder

def withMaxPayload (limit : Nat) : FrameDecoder := ⟨.sync, [], 0, limit⟩

def new : FrameDecoder := withMaxPayload Wire.maxPayloadLen

def reset (decoder : FrameDecoder) : FrameDecoder :=
  { decoder with state := .sync, buf := [], expectedPayloadLen := 0 }

def pushByte (decoder : FrameDecoder) (byte : UInt8) :
    Checked (Except DecodeStreamError (Option Frame) × FrameDecoder) :=
  match decoder.state with
  | .sync =>
    if byte = frameMagic then
      .ok (.ok none, { decoder with buf := [byte], state := .header })
    else .ok (.ok none, decoder)
  | .header => do
    let decoder := { decoder with buf := decoder.buf ++ [byte] }
    if decoder.buf.length < 4 then
      return (.ok none, decoder)
    let payloadLen := (fromLeBytes (← index decoder.buf 1) (← index decoder.buf 2)).toNat
    if payloadLen > decoder.maxPayloadLen then
      return (.error .payloadTooLong, decoder.reset)
    let decoder := { decoder with expectedPayloadLen := payloadLen }
    if payloadLen = 0 then
      return (.ok none, { decoder with state := .crc })
    else
      return (.ok none, { decoder with state := .payload })
  | .payload => do
    let decoder := { decoder with buf := decoder.buf ++ [byte] }
    let payloadBytes ← sub decoder.buf.length 4
    if payloadBytes < decoder.expectedPayloadLen then
      return (.ok none, decoder)
    return (.ok none, { decoder with state := .crc })
  | .crc => do
    let decoder := { decoder with buf := decoder.buf ++ [byte] }
    if decoder.buf.length < 4 + decoder.expectedPayloadLen + 2 then
      return (.ok none, decoder)
    match ← decodeFrameWithLimit decoder.buf decoder.maxPayloadLen with
    | .ok frame => return (.ok (some frame), decoder.reset)
    | .error error => return (.error (.decodeFailed error), decoder.reset)

def push (decoder : FrameDecoder) (byte : UInt8) :
    Checked (Except DecodeStreamError Frame × FrameDecoder) := do
  match ← decoder.pushByte byte with
  | (.ok (some frame), next) => return (.ok frame, next)
  | (.ok none, next) => return (.error .needMore, next)
  | (.error error, next) => return (.error error, next)

def pushSlice : FrameDecoder → List UInt8 →
    Checked (Except DecodeStreamError (Option Frame) × FrameDecoder)
  | decoder, [] => .ok (.ok none, decoder)
  | decoder, byte :: rest => do
    match ← decoder.pushByte byte with
    | (.ok (some frame), next) => return (.ok (some frame), next)
    | (.ok none, next) => pushSlice next rest
    | (.error error, next) => return (.error error, next)

end FrameDecoder

end Kei.Wire
