import Kei.Library.Checked
import Kei.Library.LittleEndian
import Mathlib.Logic.Function.Iterate

/-! The wire frame, its encoders and its one-shot decoder (`wire/mod.rs`,
`wire/frame.rs`).

    magic(1) | length(2, LE) | msg_type(1) | payload | crc16(2, LE)

The payload stays a string of bytes here; `Messages` gives it a meaning. -/

namespace Kei.Wire

open Library Checked

inductive MsgType
  | readRegister
  | writeRegister
  | readStation
  | discover
  | telemetry
  | alarm
  | status
  | discoverResponse
  | telemetryBatch
  | nack
  deriving DecidableEq, Repr

namespace MsgType

def toU8 : MsgType → UInt8
  | readRegister => 0x01
  | writeRegister => 0x02
  | readStation => 0x03
  | discover => 0x04
  | telemetry => 0x10
  | alarm => 0x11
  | status => 0x12
  | discoverResponse => 0x13
  | telemetryBatch => 0x14
  | nack => 0xFF

def fromU8 (value : UInt8) : Option MsgType :=
  if value = 0x01 then some readRegister
  else if value = 0x02 then some writeRegister
  else if value = 0x03 then some readStation
  else if value = 0x04 then some discover
  else if value = 0x10 then some telemetry
  else if value = 0x11 then some alarm
  else if value = 0x12 then some status
  else if value = 0x13 then some discoverResponse
  else if value = 0x14 then some telemetryBatch
  else if value = 0xFF then some nack
  else none

end MsgType

def frameMagic : UInt8 := 0xCE

def maxPayloadLen : Nat := 1024

def frameOverhead : Nat := 6

structure Frame where
  msgType : MsgType
  payload : List UInt8
  deriving DecidableEq, Repr

inductive EncodeError
  | payloadTooLong
  deriving DecidableEq, Repr

inductive DecodeError
  | tooShort
  | badMagic
  | payloadTooLong
  | unknownMsgType
  | crcMismatch (expected got : UInt16)
  deriving DecidableEq, Repr

def crcShift (crc : UInt16) : UInt16 := if crc &&& 1 ≠ 0 then (crc >>> 1) ^^^ 0xA001 else crc >>> 1

def crcByte (crc : UInt16) (byte : UInt8) : UInt16 := crcShift^[8] (crc ^^^ byte.toUInt16)

def crc16Modbus (data : List UInt8) : UInt16 := data.foldl crcByte 0xFFFF

def crcRegion (msgType : MsgType) (payload : List UInt8) : List UInt8 :=
  toLeBytes (UInt16.ofNat payload.length) ++ [msgType.toU8] ++ payload

/-- The length is cast with `as u16`, which drops everything above bit 15. -/
def encodeFrameInner (msgType : MsgType) (payload : List UInt8) : List UInt8 :=
  [frameMagic] ++ toLeBytes (UInt16.ofNat payload.length) ++ [msgType.toU8] ++ payload ++
    toLeBytes (crc16Modbus (crcRegion msgType payload))

/-- Legacy encoder: a payload above `maxPayloadLen` is cut without notice. -/
def encodeFrame (msgType : MsgType) (payload : List UInt8) : List UInt8 :=
  encodeFrameInner msgType (payload.take (min payload.length maxPayloadLen))

def encodeFrameWithLimit (msgType : MsgType) (payload : List UInt8) (limit : Nat) :
    Except EncodeError (List UInt8) :=
  if payload.length > limit then .error .payloadTooLong
  else .ok (encodeFrameInner msgType payload)

def Frame.encode (frame : Frame) : List UInt8 := encodeFrame frame.msgType frame.payload

def Frame.encodeWithLimit (frame : Frame) (limit : Nat) : Except EncodeError (List UInt8) :=
  encodeFrameWithLimit frame.msgType frame.payload limit

def decodeFrameWithLimit (buf : List UInt8) (limit : Nat) : Checked (Except DecodeError Frame) := do
  if buf.length < frameOverhead then
    return .error .tooShort
  if (← index buf 0) ≠ frameMagic then
    return .error .badMagic
  let payloadLen := (fromLeBytes (← index buf 1) (← index buf 2)).toNat
  if payloadLen > limit then
    return .error .payloadTooLong
  match MsgType.fromU8 (← index buf 3) with
  | none => return .error .unknownMsgType
  | some msgType =>
    let total := frameOverhead + payloadLen
    if buf.length < total then
      return .error .tooShort
    let payload ← slice buf 4 (4 + payloadLen)
    let crcRecv := fromLeBytes (← index buf (4 + payloadLen)) (← index buf (5 + payloadLen))
    let region ← slice buf 1 (4 + payloadLen)
    let crcCalc := crc16Modbus region
    if crcCalc ≠ crcRecv then
      return .error (.crcMismatch crcCalc crcRecv)
    return .ok ⟨msgType, payload⟩

def decodeFrame (buf : List UInt8) : Checked (Except DecodeError Frame) :=
  decodeFrameWithLimit buf maxPayloadLen

end Kei.Wire
