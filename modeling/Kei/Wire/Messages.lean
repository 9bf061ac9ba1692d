import Kei.Wire.DecodeCore

/-! The messages of the node link (`wire/request.rs`, `wire/response.rs`), the
interfaces its two ends are written against (`hal/`) and what is known of the
serialisation library that turns messages into payloads. -/

namespace Kei.Wire

abbrev StationId := UInt16

abbrev Register := UInt16

/-- An `f32` travels through the link untouched, as its bits. -/
structure F32 where
  bits : UInt32
  deriving DecidableEq, Repr

inductive SensorUnit
  | mPa | bar | celsius | ppm | percent | percentLEL | kg | grams | volts | amps | watts | kw
  | nm3PerHour | litersPerMin | mLitersPerMin | microSiemensPerCm | hours | minutes | dimensionless
  deriving DecidableEq, Repr

inductive AlarmLevel
  | info | low | high | critical
  deriving DecidableEq, Repr

inductive NodeState
  | boot | heartbeat | shutdown | degraded
  deriving DecidableEq, Repr

structure ReadRegister where
  stationId : StationId
  register : Register
  deriving DecidableEq, Repr

structure WriteRegister where
  stationId : StationId
  register : Register
  value : F32
  deriving DecidableEq, Repr

structure ReadStation where
  stationId : StationId
  deriving DecidableEq, Repr

structure Discover where
  protocolVersion : UInt8
  deriving DecidableEq, Repr

structure Telemetry where
  stationId : StationId
  register : Register
  value : F32
  unit : SensorUnit
  timestampMs : UInt64
  deriving DecidableEq, Repr

structure Alarm where
  stationId : StationId
  register : Register
  level : AlarmLevel
  message : String
  timestampMs : UInt64
  deriving DecidableEq, Repr

structure Status where
  stationId : StationId
  state : NodeState
  detail : String
  timestampMs : UInt64
  deriving DecidableEq, Repr

structure DiscoverResponse where
  stationId : StationId
  protocolVersion : UInt8
  name : String
  registerCount : UInt16
  deriving DecidableEq, Repr

structure Nack where
  stationId : StationId
  errorCode : UInt16
  message : String
  deriving DecidableEq, Repr

inductive PostcardError
  | deserializeUnexpectedEnd
  | deserializeBadVarint
  | deserializeBadUtf8
  | deserializeBadEnum
  deriving DecidableEq, Repr

structure Codec (α : Type) where
  toAllocvec : α → List UInt8
  fromBytes : List UInt8 → Except PostcardError α
  inverts : ∀ value, fromBytes (toAllocvec value) = .ok value

def Codec.RejectsPrefixes {α : Type} (codec : Codec α) : Prop :=
  ∀ value bytes, bytes <+: codec.toAllocvec value → bytes ≠ codec.toAllocvec value →
    ∃ error, codec.fromBytes bytes = .error error

structure Postcard where
  readRegister : Codec ReadRegister
  writeRegister : Codec WriteRegister
  readStation : Codec ReadStation
  discover : Codec Discover
  telemetry : Codec Telemetry
  alarm : Codec Alarm
  status : Codec Status
  discoverResponse : Codec DiscoverResponse
  nack : Codec Nack

/-- The sizes of the documented format: a `u16` takes at most three bytes, an `f32` four,
a `u8` one and a short string one more than its bytes. -/
structure Postcard.DocumentedSizes (postcard : Postcard) : Prop where
  readRegister : ∀ value, (postcard.readRegister.toAllocvec value).length ≤ 6
  writeRegister : ∀ value, (postcard.writeRegister.toAllocvec value).length ≤ 10
  readStation : ∀ value, (postcard.readStation.toAllocvec value).length ≤ 3
  discover : ∀ value, (postcard.discover.toAllocvec value).length ≤ 1
  writeFailed : ∀ stationId, (postcard.nack.toAllocvec ⟨stationId, 1, "write failed"⟩).length ≤ 19

structure Postcard.RejectsPrefixes (postcard : Postcard) : Prop where
  telemetry : postcard.telemetry.RejectsPrefixes
  alarm : postcard.alarm.RejectsPrefixes
  status : postcard.status.RejectsPrefixes
  discoverResponse : postcard.discoverResponse.RejectsPrefixes
  nack : postcard.nack.RejectsPrefixes

inductive TransportError
  | io
  | closed
  | bufferTooSmall
  deriving DecidableEq, Repr

/-- `recv` hands its buffer back with the received bytes at the front. -/
class Transport (τ : Type) where
  send : τ → List UInt8 → Except TransportError Nat × τ
  recv : τ → List UInt8 → Except TransportError Nat × List UInt8 × τ

inductive DeviceError
  | invalidRegister
  | hardwareError
  | permissionDenied
  deriving DecidableEq, Repr

class SensorDevice (δ : Type) where
  writeRegister : δ → Register → F32 → Except DeviceError Unit × δ

end Kei.Wire
