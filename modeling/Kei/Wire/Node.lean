import Kei.Wire.Messages

/-! The sensor node (`wire/node.rs`). The two nested loops of `poll` are run one turn at
a time: `recvStep` is a turn of the inner one and `pollStep` what the outer one makes of
it, with no result as long as the call goes on waiting. -/

namespace Kei.Wire

open Library Checked

inductive NodeError
  | transport (error : TransportError)
  | postcard (error : PostcardError)
  | device (error : DeviceError)
  | decode (error : DecodeStreamError)
  deriving DecidableEq, Repr

inductive Request
  | readRegister (request : ReadRegister)
  | writeRegister (request : WriteRegister)
  | readStation (request : ReadStation)
  | discover (request : Discover)
  deriving DecidableEq, Repr

structure NoDevice where

instance : SensorDevice NoDevice where
  writeRegister device _ _ := (.error .permissionDenied, device)

structure Node (τ : Type) where
  transport : τ
  decoder : FrameDecoder
  stationId : StationId
  rxBuf : List UInt8

namespace Node

variable {τ δ : Type} [Transport τ] [SensorDevice δ] (postcard : Postcard)

def new (transport : τ) (stationId : StationId) : Node τ :=
  ⟨transport, FrameDecoder.new, stationId, []⟩

def sendFrame (node : Node τ) (msgType : MsgType) (payload : List UInt8) :
    Except TransportError Unit × Node τ :=
  let (sent, transport) := Transport.send node.transport (encodeFrame msgType payload)
  (sent.map fun _ => (), { node with transport := transport })

def sendTelemetry (node : Node τ) (register : Register) (value : F32) (unit : SensorUnit)
    (timestampMs : UInt64) : Except TransportError Unit × Node τ :=
  node.sendFrame .telemetry
    (postcard.telemetry.toAllocvec ⟨node.stationId, register, value, unit, timestampMs⟩)

def sendAlarm (node : Node τ) (register : Register) (level : AlarmLevel) (message : String)
    (timestampMs : UInt64) : Except TransportError Unit × Node τ :=
  node.sendFrame .alarm
    (postcard.alarm.toAllocvec ⟨node.stationId, register, level, message, timestampMs⟩)

def sendStatus (node : Node τ) (state : NodeState) (detail : String) (timestampMs : UInt64) :
    Except TransportError Unit × Node τ :=
  node.sendFrame .status (postcard.status.toAllocvec ⟨node.stationId, state, detail, timestampMs⟩)

def sendDiscoverResponse (node : Node τ) (name : String) (registerCount : UInt16) :
    Except TransportError Unit × Node τ :=
  node.sendFrame .discoverResponse
    (postcard.discoverResponse.toAllocvec ⟨node.stationId, 1, name, registerCount⟩)

def sendNack (node : Node τ) (code : UInt16) (message : String) :
    Except TransportError Unit × Node τ :=
  node.sendFrame .nack (postcard.nack.toAllocvec ⟨node.stationId, code, message⟩)

def recvStep (node : Node τ) : Checked (Option (Except NodeError Frame) × Node τ) := do
  let (buffered, decoder) ←
    if node.rxBuf.isEmpty then pure (.ok none, node.decoder) else node.decoder.pushSlice node.rxBuf
  match buffered with
  | .error error => return (some (.error (.decode error)), { node with decoder := decoder })
  | .ok (some frame) => return (some (.ok frame), { node with decoder := decoder, rxBuf := [] })
  | .ok none =>
    let node := { node with decoder := decoder, rxBuf := [] }
    match Transport.recv node.transport [0] with
    | (.error error, _, transport) =>
      return (some (.error (.transport error)), { node with transport := transport })
    | (.ok count, byte, transport) =>
      let node := { node with transport := transport }
      if count = 0 then
        return (none, node)
      let (pushed, decoder) ← node.decoder.pushSlice (← slice byte 0 count)
      let node := { node with decoder := decoder }
      match pushed with
      | .error error => return (some (.error (.decode error)), node)
      | .ok (some frame) => return (some (.ok frame), node)
      | .ok none => return (none, node)

def dispatch (node : Node τ) (device : δ) (frame : Frame) :
    Option (Except NodeError Request) × Node τ × δ :=
  match frame.msgType with
  | .readRegister =>
    match postcard.readRegister.fromBytes frame.payload with
    | .error error => (some (.error (.postcard error)), node, device)
    | .ok request =>
      if request.stationId ≠ node.stationId then (none, node, device)
      else (some (.ok (.readRegister request)), node, device)
  | .writeRegister =>
    match postcard.writeRegister.fromBytes frame.payload with
    | .error error => (some (.error (.postcard error)), node, device)
    | .ok request =>
      if request.stationId ≠ node.stationId then (none, node, device)
      else match SensorDevice.writeRegister device request.register request.value with
        | (.ok _, device) => (none, node, device)
        | (.error error, device) =>
          match node.sendNack postcard 1 "write failed" with
          | (.error failure, node) => (some (.error (.transport failure)), node, device)
          | (.ok _, node) => (some (.error (.device error)), node, device)
  | .readStation =>
    match postcard.readStation.fromBytes frame.payload with
    | .error error => (some (.error (.postcard error)), node, device)
    | .ok request =>
      if request.stationId ≠ node.stationId then (none, node, device)
      else (some (.ok (.readStation request)), node, device)
  | .discover =>
    match postcard.discover.fromBytes frame.payload with
    | .error error => (some (.error (.postcard error)), node, device)
    | .ok _ => (some (.ok (.discover ⟨1⟩)), node, device)
  | _ => (none, node, device)

def pollStep (node : Node τ) (device : δ) :
    Checked (Option (Except NodeError Request) × Node τ × δ) := do
  match ← node.recvStep with
  | (none, node) => return (none, node, device)
  | (some (.error error), node) => return (some (.error error), node, device)
  | (some (.ok frame), node) => return node.dispatch postcard device frame

def poll : Nat → Node τ → δ → Checked (Option (Except NodeError Request) × Node τ × δ)
  | 0, node, device => .ok (none, node, device)
  | turns + 1, node, device => do
    match ← node.pollStep postcard device with
    | (none, node, device) => poll turns node device
    | (some result, node, device) => return (some result, node, device)

def pollReadonly (turns : Nat) (node : Node τ) :
    Checked (Option (Except NodeError Request) × Node τ × NoDevice) :=
  poll postcard turns node NoDevice.mk

end Node

end Kei.Wire
