import Kei.Library.Format
import Kei.Wire.Messages

/-! The documented wire format of the serialisation library, field by field in the order
of declaration: integers as base-128 numbers, an `f32` as four bytes, an enumeration as
the number of its variant, a string as its length and its UTF-8 bytes. It has every
property the two ends of the link rely on. -/

namespace Kei.Wire

open Library

namespace PostcardFormat

def u8 : Format PostcardError UInt8 := Format.byte .deserializeUnexpectedEnd

def u16 : Format PostcardError UInt16 :=
  (Format.varint .deserializeUnexpectedEnd .deserializeBadVarint 3 UInt16.size (by decide)
    (by decide)).convert .deserializeBadVarint UInt16.toFin (fun raw => some (UInt16.ofFin raw))
    (fun _ => rfl)

def u64 : Format PostcardError UInt64 :=
  (Format.varint .deserializeUnexpectedEnd .deserializeBadVarint 10 UInt64.size (by decide)
    (by decide)).convert .deserializeBadVarint UInt64.toFin (fun raw => some (UInt64.ofFin raw))
    (fun _ => rfl)

def wordBytes (word : UInt32) : UInt8 × UInt8 × UInt8 × UInt8 :=
  (word.toUInt8, (word >>> 8).toUInt8, (word >>> 16).toUInt8, (word >>> 24).toUInt8)

def ofWordBytes : UInt8 × UInt8 × UInt8 × UInt8 → UInt32
  | (first, second, third, fourth) =>
    UInt32.ofNat (first.toNat + 256 * second.toNat + 65536 * third.toNat + 16777216 * fourth.toNat)

theorem ofWordBytes_wordBytes (word : UInt32) : ofWordBytes (wordBytes word) = word := by
  apply UInt32.toNat_inj.mp
  have bound := word.toNat_lt
  simp only [wordBytes, ofWordBytes, UInt32.toNat_toUInt8, UInt32.toNat_shiftRight, UInt32.toNat_ofNat',
    UInt32.reduceToNat, Nat.reduceMod, Nat.shiftRight_eq_div_pow]
  omega

def f32 : Format PostcardError F32 :=
  (u8.pair (u8.pair (u8.pair u8))).convert .deserializeUnexpectedEnd (fun value => wordBytes value.bits)
    (fun raw => some ⟨ofWordBytes raw⟩) (fun value => by rw [ofWordBytes_wordBytes])

def string : Format PostcardError String :=
  (Format.counted .deserializeUnexpectedEnd .deserializeBadVarint).convert .deserializeBadUtf8
    (fun value => value.toUTF8.data.toList) (fun raw => String.fromUTF8? ⟨raw.toArray⟩) (by
      intro value
      simp [String.fromUTF8?, value.isValidUTF8]
      rfl)

def variant {α : Type} (variants : List α) (position : α → Fin 4294967296)
    (law : ∀ value, variants[(position value).1]? = some value) : Format PostcardError α :=
  (Format.varint .deserializeUnexpectedEnd .deserializeBadVarint 5 4294967296 (by decide)
    (by decide)).convert .deserializeBadEnum position (fun raw => variants[raw.1]?) law

def sensorUnit : Format PostcardError SensorUnit :=
  variant [.mPa, .bar, .celsius, .ppm, .percent, .percentLEL, .kg, .grams, .volts, .amps, .watts, .kw,
      .nm3PerHour, .litersPerMin, .mLitersPerMin, .microSiemensPerCm, .hours, .minutes, .dimensionless]
    (fun value => Fin.ofNat _ value.ctorIdx) (by intro value; cases value <;> rfl)

def alarmLevel : Format PostcardError AlarmLevel :=
  variant [.info, .low, .high, .critical] (fun value => Fin.ofNat _ value.ctorIdx)
    (by intro value; cases value <;> rfl)

def nodeState : Format PostcardError NodeState :=
  variant [.boot, .heartbeat, .shutdown, .degraded] (fun value => Fin.ofNat _ value.ctorIdx)
    (by intro value; cases value <;> rfl)

def readRegister : Format PostcardError ReadRegister :=
  (u16.pair u16).convert .deserializeUnexpectedEnd (fun value => (value.stationId, value.register))
    (fun raw => some ⟨raw.1, raw.2⟩) (fun _ => rfl)

def writeRegister : Format PostcardError WriteRegister :=
  (u16.pair (u16.pair f32)).convert .deserializeUnexpectedEnd
    (fun value => (value.stationId, value.register, value.value))
    (fun raw => some ⟨raw.1, raw.2.1, raw.2.2⟩) (fun _ => rfl)

def readStation : Format PostcardError ReadStation :=
  u16.convert .deserializeUnexpectedEnd ReadStation.stationId (fun raw => some ⟨raw⟩) (fun _ => rfl)

def discover : Format PostcardError Discover :=
  u8.convert .deserializeUnexpectedEnd Discover.protocolVersion (fun raw => some ⟨raw⟩) (fun _ => rfl)

def telemetry : Format PostcardError Telemetry :=
  (u16.pair (u16.pair (f32.pair (sensorUnit.pair u64)))).convert .deserializeUnexpectedEnd
    (fun value => (value.stationId, value.register, value.value, value.unit, value.timestampMs))
    (fun raw => some ⟨raw.1, raw.2.1, raw.2.2.1, raw.2.2.2.1, raw.2.2.2.2⟩) (fun _ => rfl)

def alarm : Format PostcardError Alarm :=
  (u16.pair (u16.pair (alarmLevel.pair (string.pair u64)))).convert .deserializeUnexpectedEnd
    (fun value => (value.stationId, value.register, value.level, value.message, value.timestampMs))
    (fun raw => some ⟨raw.1, raw.2.1, raw.2.2.1, raw.2.2.2.1, raw.2.2.2.2⟩) (fun _ => rfl)

def status : Format PostcardError Status :=
  (u16.pair (nodeState.pair (string.pair u64))).convert .deserializeUnexpectedEnd
    (fun value => (value.stationId, value.state, value.detail, value.timestampMs))
    (fun raw => some ⟨raw.1, raw.2.1, raw.2.2.1, raw.2.2.2⟩) (fun _ => rfl)

def discoverResponse : Format PostcardError DiscoverResponse :=
  (u16.pair (u8.pair (string.pair u16))).convert .deserializeUnexpectedEnd
    (fun value => (value.stationId, value.protocolVersion, value.name, value.registerCount))
    (fun raw => some ⟨raw.1, raw.2.1, raw.2.2.1, raw.2.2.2⟩) (fun _ => rfl)

def nack : Format PostcardError Nack :=
  (u16.pair (u16.pair string)).convert .deserializeUnexpectedEnd
    (fun value => (value.stationId, value.errorCode, value.message))
    (fun raw => some ⟨raw.1, raw.2.1, raw.2.2⟩) (fun _ => rfl)

/-- `from_bytes` takes one value from the front and does not look at what follows. -/
def codec {α : Type} (format : Format PostcardError α) : Codec α where
  toAllocvec := format.encode
  fromBytes bytes := (format.decode bytes).map Prod.fst
  inverts value := by
    have decoded := format.complete value []
    rw [List.append_nil] at decoded
    rw [decoded]
    rfl

theorem codec_rejectsPrefixes {α : Type} (format : Format PostcardError α) :
    (codec format).RejectsPrefixes := by
  intro value bytes within strict
  obtain ⟨error, failed⟩ := format.short value bytes within strict
  exact ⟨error, by simp [codec, failed, Except.map]⟩

def documented : Postcard where
  readRegister := codec readRegister
  writeRegister := codec writeRegister
  readStation := codec readStation
  discover := codec discover
  telemetry := codec telemetry
  alarm := codec alarm
  status := codec status
  discoverResponse := codec discoverResponse
  nack := codec nack

theorem documented_rejectsPrefixes : documented.RejectsPrefixes :=
  ⟨codec_rejectsPrefixes _, codec_rejectsPrefixes _, codec_rejectsPrefixes _, codec_rejectsPrefixes _,
    codec_rejectsPrefixes _⟩

theorem u16_length (value : UInt16) : (u16.encode value).length ≤ 3 :=
  Format.varintEncode_length_le 3 _

theorem documented_sizes : documented.DocumentedSizes where
  readRegister value := by
    have first := u16_length value.stationId
    have second := u16_length value.register
    change (u16.encode value.stationId ++ u16.encode value.register).length ≤ 6
    rw [List.length_append]
    omega
  writeRegister value := by
    have first := u16_length value.stationId
    have second := u16_length value.register
    change (u16.encode value.stationId ++ (u16.encode value.register ++ f32.encode value.value)).length ≤ 10
    have third : (f32.encode value.value).length = 4 := rfl
    rw [List.length_append, List.length_append, third]
    omega
  readStation value := u16_length value.stationId
  discover value := Nat.le_refl 1
  writeFailed stationId := by
    have first := u16_length stationId
    have second := u16_length 1
    have third : (string.encode "write failed").length = 13 := by decide
    change (u16.encode stationId ++ (u16.encode 1 ++ string.encode "write failed")).length ≤ 19
    rw [List.length_append, List.length_append, third]
    omega

end PostcardFormat

end Kei.Wire
