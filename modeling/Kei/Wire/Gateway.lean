import Kei.Wire.Messages

/-! The gateway (`wire/gateway.rs`), with its receive loops run one turn at a time. -/

namespace Kei.Wire

open Library Checked

inductive Incoming
  | telemetry (message : Telemetry)
  | alarm (message : Alarm)
  | status (message : Status)
  | discoverResponse (message : DiscoverResponse)
  | nack (message : Nack)
  deriving DecidableEq, Repr

inductive GatewayError
  | transport (error : TransportError)
  | postcard (error : PostcardError)
  deriving DecidableEq, Repr

structure Gateway (τ : Type) where
  transport : τ
  decoder : FrameDecoder

namespace Gateway

variable {τ : Type} [Transport τ] (postcard : Postcard)

def new (transport : τ) : Gateway τ := ⟨transport, FrameDecoder.new⟩

def sendFrame (gateway : Gateway τ) (msgType : MsgType) (payload : List UInt8) :
    Except TransportError Unit × Gateway τ :=
  let (sent, transport) := Transport.send gateway.transport (encodeFrame msgType payload)
  (sent.map fun _ => (), { gateway with transport := transport })

def sendReadRegister (gateway : Gateway τ) (stationId : StationId) (register : Register) :
    Except TransportError Unit × Gateway τ :=
  gateway.sendFrame .readRegister (postcard.readRegister.toAllocvec ⟨stationId, register⟩)

def sendWriteRegister (gateway : Gateway τ) (stationId : StationId) (register : Register)
    (value : F32) : Except TransportError Unit × Gateway τ :=
  gateway.sendFrame .writeRegister (postcard.writeRegister.toAllocvec ⟨stationId, register, value⟩)

def sendReadStation (gateway : Gateway τ) (stationId : StationId) :
    Except TransportError Unit × Gateway τ :=
  gateway.sendFrame .readStation (postcard.readStation.toAllocvec ⟨stationId⟩)

def sendDiscover (gateway : Gateway τ) : Except TransportError Unit × Gateway τ :=
  gateway.sendFrame .discover (postcard.discover.toAllocvec ⟨1⟩)

/-- One turn of the loop of `recv_frame`; any decoding error is passed over. -/
def recvFrameStep (gateway : Gateway τ) :
    Checked (Option (Except GatewayError Frame) × Gateway τ) := do
  match Transport.recv gateway.transport [0] with
  | (.error error, _, transport) =>
    return (some (.error (.transport error)), { gateway with transport := transport })
  | (.ok count, byte, transport) =>
    let gateway := { gateway with transport := transport }
    if count = 0 then
      return (none, gateway)
    let (pushed, decoder) ← gateway.decoder.push (← index byte 0)
    let gateway := { gateway with decoder := decoder }
    match pushed with
    | .ok frame => return (some (.ok frame), gateway)
    | .error _ => return (none, gateway)

/-- The `match` of `recv`; no result is its call of itself for the next frame. -/
def interpret (frame : Frame) : Option (Except GatewayError Incoming) :=
  match frame.msgType with
  | .telemetry => some (match postcard.telemetry.fromBytes frame.payload with
      | .ok message => .ok (.telemetry message)
      | .error error => .error (.postcard error))
  | .alarm => some (match postcard.alarm.fromBytes frame.payload with
      | .ok message => .ok (.alarm message)
      | .error error => .error (.postcard error))
  | .status => some (match postcard.status.fromBytes frame.payload with
      | .ok message => .ok (.status message)
      | .error error => .error (.postcard error))
  | .discoverResponse => some (match postcard.discoverResponse.fromBytes frame.payload with
      | .ok message => .ok (.discoverResponse message)
      | .error error => .error (.postcard error))
  | .nack => some (match postcard.nack.fromBytes frame.payload with
      | .ok message => .ok (.nack message)
      | .error error => .error (.postcard error))
  | _ => none

def recvStep (gateway : Gateway τ) :
    Checked (Option (Except GatewayError Incoming) × Gateway τ) := do
  match ← gateway.recvFrameStep with
  | (none, gateway) => return (none, gateway)
  | (some (.error error), gateway) => return (some (.error error), gateway)
  | (some (.ok frame), gateway) => return (interpret postcard frame, gateway)

def recv : Nat → Gateway τ → Checked (Option (Except GatewayError Incoming) × Gateway τ)
  | 0, gateway => .ok (none, gateway)
  | turns + 1, gateway => do
    match ← gateway.recvStep postcard with
    | (none, gateway) => recv turns gateway
    | (some result, gateway) => return (some result, gateway)

end Gateway

end Kei.Wire
