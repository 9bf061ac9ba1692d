import Kei.Wire.Channel
import Kei.Wire.Gateway
import Kei.Wire.Node
import Kei.Wire.PostcardFormat

/-! From the gateway to one node. The gateway calls its send functions, the wire carries
bytes at its own pace and the node polls, in any order; a recorder around the device
keeps the order in which writes and returned requests happen. -/

namespace Kei.Wire

open Library Checked SensorDevice List

inductive Outgoing
  | readRegister (stationId : StationId) (register : Register)
  | writeRegister (stationId : StationId) (register : Register) (value : F32)
  | readStation (stationId : StationId)
  | discover
  deriving DecidableEq, Repr

def Outgoing.frame (postcard : Postcard) : Outgoing → Frame
  | .readRegister stationId register =>
    ⟨.readRegister, postcard.readRegister.toAllocvec ⟨stationId, register⟩⟩
  | .writeRegister stationId register value =>
    ⟨.writeRegister, postcard.writeRegister.toAllocvec ⟨stationId, register, value⟩⟩
  | .readStation stationId => ⟨.readStation, postcard.readStation.toAllocvec ⟨stationId⟩⟩
  | .discover => ⟨.discover, postcard.discover.toAllocvec ⟨1⟩⟩

def Gateway.sendRequest {τ : Type} [Transport τ] (postcard : Postcard) (gateway : Gateway τ) :
    Outgoing → Except TransportError Unit × Gateway τ
  | .readRegister stationId register => gateway.sendReadRegister postcard stationId register
  | .writeRegister stationId register value =>
    gateway.sendWriteRegister postcard stationId register value
  | .readStation stationId => gateway.sendReadStation postcard stationId
  | .discover => gateway.sendDiscover postcard

theorem Gateway.sendRequest_outbox (postcard : Postcard) (gateway : Gateway Pipe) (request : Outgoing) :
    (gateway.sendRequest postcard request).2.transport.outbox =
      gateway.transport.outbox ++ (request.frame postcard).encode := by
  cases request <;> rfl

inductive Effect
  | write (register : Register) (value : F32)
  | request (request : Request)
  deriving DecidableEq, Repr

def Outgoing.effect (station : StationId) : Outgoing → Option Effect
  | .readRegister stationId register =>
    if stationId = station then some (.request (.readRegister ⟨stationId, register⟩)) else none
  | .writeRegister stationId register value =>
    if stationId = station then some (.write register value) else none
  | .readStation stationId =>
    if stationId = station then some (.request (.readStation ⟨stationId⟩)) else none
  | .discover => some (.request (.discover ⟨1⟩))

structure Recorder (δ : Type) where
  device : δ
  effects : List Effect
  rejections : List DeviceError
  results : List (Except NodeError Request)

variable {δ : Type} [SensorDevice δ]

instance : SensorDevice (Recorder δ) where
  writeRegister recorder register value :=
    match writeRegister recorder.device register value with
    | (.ok _, device) =>
      (.ok (), { recorder with device := device, effects := recorder.effects ++ [.write register value] })
    | (.error error, device) =>
      (.error error, { recorder with
        device := device
        effects := recorder.effects ++ [.write register value]
        rejections := recorder.rejections ++ [error] })

theorem Recorder.write_outcome (recorder : Recorder δ) (register : Register) (value : F32) :
    (∃ device, writeRegister recorder register value = (.ok (), { recorder with
      device := device, effects := recorder.effects ++ [.write register value] })) ∨
    ∃ error device, writeRegister recorder register value = (.error error, { recorder with
      device := device
      effects := recorder.effects ++ [.write register value]
      rejections := recorder.rejections ++ [error] }) := by
  rcases outcome : writeRegister recorder.device register value with ⟨error | _, device⟩
  · exact Or.inr ⟨error, device, by simp [writeRegister, outcome]⟩
  · exact Or.inl ⟨device, by simp [writeRegister, outcome]⟩

def Recorder.settle (recorder : Recorder δ) : Option (Except NodeError Request) → Recorder δ
  | none => recorder
  | some (.ok request) => { recorder with
      effects := recorder.effects ++ [.request request]
      results := recorder.results ++ [.ok request] }
  | some (.error error) => { recorder with results := recorder.results ++ [.error error] }

structure Link (δ : Type) where
  gateway : Gateway Pipe
  node : Node Pipe
  recorder : Recorder δ
  sent : List Outgoing

inductive Link.Action
  | send (request : Outgoing)
  | carry (count : Nat)
  | poll (turns : Nat)

namespace Link

def start (station : StationId) (device : δ) : Link δ :=
  ⟨Gateway.new ⟨[], []⟩, Node.new ⟨[], []⟩ station, ⟨device, [], [], []⟩, []⟩

def step (postcard : Postcard) (link : Link δ) : Action → Checked (Link δ)
  | .send request => .ok { link with
      gateway := (link.gateway.sendRequest postcard request).2
      sent := link.sent ++ [request] }
  | .carry count =>
    let outgoing := link.gateway.transport
    let incoming := link.node.transport
    .ok { link with
      gateway := { link.gateway with transport := { outgoing with outbox := outgoing.outbox.drop count } }
      node := { link.node with
        transport := { incoming with inbox := incoming.inbox ++ outgoing.outbox.take count } } }
  | .poll turns => do
    let (result, node, recorder) ← link.node.poll postcard turns link.recorder
    return { link with node := node, recorder := recorder.settle result }

def run (postcard : Postcard) : Link δ → List Action → Checked (Link δ) := runAll (step postcard)

def Action.request? : Action → Option Outgoing
  | .send request => some request
  | .carry _ => none
  | .poll _ => none

end Link

/-! One message at the node. -/

def nackWire (postcard : Postcard) (station : StationId) : List UInt8 :=
  encodeFrame .nack (postcard.nack.toAllocvec ⟨station, 1, "write failed"⟩)

/-- The whole reaction of a station to a message: what `poll` returns, if it returns, the
device afterwards and the bytes sent back. -/
def serve (postcard : Postcard) (station : StationId) (recorder : Recorder δ) (request : Outgoing) :
    Option (Except NodeError Request) × Recorder δ × List UInt8 :=
  match request.effect station with
  | none => (none, recorder, [])
  | some (.request request) => (some (.ok request), recorder, [])
  | some (.write register value) =>
    match writeRegister recorder register value with
    | (.ok _, recorder) => (none, recorder, [])
    | (.error error, recorder) =>
      (some (.error (.device error)), recorder, nackWire postcard station)

theorem Node.dispatch_frame (postcard : Postcard) (inbox outbox : List UInt8) (decoder : FrameDecoder)
    (station : StationId) (recorder : Recorder δ) (request : Outgoing) :
    (⟨⟨inbox, outbox⟩, decoder, station, []⟩ : Node Pipe).dispatch postcard recorder
        (request.frame postcard) =
      ((serve postcard station recorder request).1,
        ⟨⟨inbox, outbox ++ (serve postcard station recorder request).2.2⟩, decoder, station, []⟩,
        (serve postcard station recorder request).2.1) := by
  cases request with
  | readRegister stationId register =>
    by_cases own : stationId = station <;>
      simp [dispatch, Outgoing.frame, serve, Outgoing.effect, Codec.inverts, own]
  | writeRegister stationId register value =>
    by_cases own : stationId = station
    · simp only [dispatch, Outgoing.frame, serve, Outgoing.effect, Codec.inverts, own, ne_eq,
        not_true_eq_false, if_false, if_true]
      rcases writeRegister recorder register value with ⟨error | _, after⟩
      · rfl
      · simp
    · simp [dispatch, Outgoing.frame, serve, Outgoing.effect, Codec.inverts, own]
  | readStation stationId =>
    by_cases own : stationId = station <;>
      simp [dispatch, Outgoing.frame, serve, Outgoing.effect, Codec.inverts, own]
  | discover => simp [dispatch, Outgoing.frame, serve, Outgoing.effect, Codec.inverts]

def failure? : Except NodeError Request → Option NodeError
  | .ok _ => none
  | .error error => some error

structure Recorded (postcard : Postcard) (station : StationId) (delivered : List Outgoing)
    (outbox : List UInt8) (recorder : Recorder δ) : Prop where
  effects : recorder.effects = delivered.filterMap (Outgoing.effect station)
  nacks : outbox = recorder.rejections.flatMap fun _ => nackWire postcard station
  failures : recorder.results.filterMap failure? = recorder.rejections.map NodeError.device

variable {postcard : Postcard} {recorder : Recorder δ} {station : StationId}

theorem Recorded.serve {delivered : List Outgoing}
    {outbox : List UInt8}
    (recorded : Recorded postcard station delivered outbox recorder) (request : Outgoing) :
    Recorded postcard station (delivered ++ [request])
      (outbox ++ (serve postcard station recorder request).2.2)
      ((serve postcard station recorder request).2.1.settle
        (serve postcard station recorder request).1) := by
  obtain ⟨effects, nacks, failures⟩ := recorded
  rcases own : request.effect station with _ | ⟨register, value⟩ | returned
  · simp only [Wire.serve, own, Recorder.settle, append_nil]
    exact ⟨by simp [own, effects], nacks, failures⟩
  · rcases recorder.write_outcome register value with ⟨device, written⟩ | ⟨error, device, written⟩
    · simp only [Wire.serve, own, written, Recorder.settle, append_nil]
      exact ⟨by simp [own, effects], nacks, failures⟩
    · simp only [Wire.serve, own, written, Recorder.settle]
      exact ⟨by simp [own, effects], by simp [nacks], by simp [failures, failure?]⟩
  · simp only [Wire.serve, own, Recorder.settle, append_nil]
    exact ⟨by simp [own, effects], nacks, by simp [failures, failure?]⟩

/-- The node has served a first part of what was sent, and the bytes of the rest are on
their way to its decoder or already in it. -/
structure Delivering (postcard : Postcard) (station : StationId) (sent : List Outgoing)
    (inFlight : List UInt8) (node : Node Pipe) (recorder : Recorder δ) : Prop where
  identity : node.stationId = station
  unbuffered : node.rxBuf = []
  progress : ∃ delivered waiting, sent = delivered ++ waiting ∧
    Pending FrameDecoder.push FrameDecoder.new (.error .needMore)
      (fun request => (Outgoing.frame postcard request).encode) waiting
      (node.transport.inbox ++ inFlight) node.decoder ∧
    Recorded postcard station delivered node.transport.outbox recorder

theorem Outgoing.frame_carried (sizes : postcard.DocumentedSizes)
    (request : Outgoing) : (request.frame postcard).carried = request.frame postcard := by
  apply Frame.carried_of_le
  cases request with
  | readRegister stationId register => exact Nat.le_trans (sizes.readRegister _) (by decide)
  | writeRegister stationId register value => exact Nat.le_trans (sizes.writeRegister _) (by decide)
  | readStation stationId => exact Nat.le_trans (sizes.readStation _) (by decide)
  | discover => exact Nat.le_trans (sizes.discover _) (by decide)

theorem Node.recvStep_cons (byte : UInt8) (inbox outbox : List UInt8) (decoder next : FrameDecoder)
    (station : StationId) (answer : Option Frame)
    (pushed : decoder.pushSlice [byte] = .ok (.ok answer, next)) :
    recvStep (⟨⟨byte :: inbox, outbox⟩, decoder, station, []⟩ : Node Pipe) =
      .ok (answer.map .ok, ⟨⟨inbox, outbox⟩, next, station, []⟩) := by
  have whole : slice [byte] 0 1 = .ok [byte] := rfl
  simp only [recvStep, isEmpty_nil, if_true, pure_eq_ok, bind_ok, Pipe.recv_cons, Nat.one_ne_zero,
    if_false, whole, pushed]
  cases answer <;> rfl

variable {inFlight : List UInt8} {sent : List Outgoing}

theorem Delivering.pollStep (sizes : postcard.DocumentedSizes) {node : Node Pipe}
    (delivering : Delivering postcard station sent inFlight node recorder) :
    ∃ result next after, node.pollStep postcard recorder = .ok (result, next, after) ∧
      next.transport.inbox = node.transport.inbox.tail ∧
      Delivering postcard station sent inFlight next (after.settle result) := by
  obtain ⟨⟨inbox, outbox⟩, decoder, stationId, rxBuf⟩ := node
  obtain ⟨rfl, rfl, delivered, waiting, rfl, pending, recorded⟩ := delivering
  cases inbox with
  | nil => exact ⟨none, _, recorder, rfl, rfl, rfl, rfl, delivered, waiting, rfl, pending, recorded⟩
  | cons byte inbox =>
    obtain ⟨_, next, pushed, ⟨rfl, pending⟩ | ⟨request, later, rfl, rfl, pending⟩⟩ :=
      pending.advance (decoder_framing _)
    · have turn := Node.recvStep_cons byte inbox outbox decoder next stationId none
        (FrameDecoder.pushSlice_quiet pushed)
      refine ⟨none, ⟨⟨inbox, outbox⟩, next, stationId, []⟩, recorder, ?_, rfl, rfl, rfl, delivered,
        waiting, rfl, pending, recorded⟩
      simp only [Node.pollStep, turn, bind_ok]
      rfl
    · rw [Outgoing.frame_carried sizes] at pushed
      have turn := Node.recvStep_cons byte inbox outbox decoder next stationId _
        (FrameDecoder.pushSlice_frame pushed)
      have served := Node.dispatch_frame postcard inbox outbox next stationId recorder request
      refine ⟨(serve postcard stationId recorder request).1,
        ⟨⟨inbox, outbox ++ (serve postcard stationId recorder request).2.2⟩, next, stationId, []⟩,
        (serve postcard stationId recorder request).2.1, ?_, rfl, rfl, rfl, delivered ++ [request], later,
        ?_, pending, recorded.serve request⟩
      · simp only [Node.pollStep, turn, bind_ok, Option.map_some, served]
        rfl
      · simp

theorem Delivering.poll (sizes : postcard.DocumentedSizes) (turns : Nat) {node : Node Pipe}
    (delivering : Delivering postcard station sent inFlight node recorder) :
    ∃ result next after, node.poll postcard turns recorder = .ok (result, next, after) ∧
      Delivering postcard station sent inFlight next (after.settle result) := by
  induction turns generalizing node recorder with
  | zero => exact ⟨none, node, recorder, rfl, delivering⟩
  | succ turns ih =>
    obtain ⟨result, next, after, stepped, _, kept⟩ := delivering.pollStep sizes
    cases result with
    | none =>
      obtain ⟨result, last, final, polled, done⟩ := ih kept
      refine ⟨result, last, final, ?_, done⟩
      simp only [Node.poll, stepped, bind_ok]
      exact polled
    | some result =>
      refine ⟨some result, next, after, ?_, kept⟩
      simp only [Node.poll, stepped, bind_ok]
      rfl

namespace Link

def Sound (postcard : Postcard) (station : StationId) (link : Link δ) : Prop :=
  Delivering postcard station link.sent link.gateway.transport.outbox link.node link.recorder

omit [SensorDevice δ] in
theorem start_sound (postcard : Postcard) (station : StationId) (device : δ) :
    Sound postcard station (start station device) :=
  ⟨rfl, rfl, [], [], rfl, Pending.initial, rfl, rfl, rfl⟩

variable {postcard : Postcard} {station : StationId} {link : Link δ}

section

variable (sizes : postcard.DocumentedSizes)
include sizes

theorem step_sound (sound : Sound postcard station link) (action : Action) :
    ∃ next, link.step postcard action = .ok next ∧ Sound postcard station next ∧
      next.sent = link.sent ++ action.request?.toList := by
  cases action with
  | send request =>
    obtain ⟨identity, unbuffered, delivered, waiting, sent, pending, recorded⟩ := sound
    refine ⟨_, rfl, ⟨identity, unbuffered, delivered, waiting ++ [request], ?_, ?_, recorded⟩, rfl⟩
    · simp only [sent, append_assoc]
    · simpa [Gateway.sendRequest_outbox] using pending.send request
  | carry count =>
    obtain ⟨identity, unbuffered, delivered, waiting, sent, pending, recorded⟩ := sound
    refine ⟨_, rfl, ⟨identity, unbuffered, delivered, waiting, sent, ?_, recorded⟩, by simp [Action.request?]⟩
    simpa only [append_assoc, take_append_drop] using pending
  | poll turns =>
    obtain ⟨result, next, after, polled, kept⟩ := sound.poll sizes turns
    refine ⟨{ link with node := next, recorder := after.settle result }, ?_, kept, by simp [Action.request?]⟩
    simp only [step, polled, bind_ok]
    rfl

theorem run_sound (station : StationId) (device : δ) (actions : List Action) :
    ∃ link, (start station device).run postcard actions = .ok link ∧ Sound postcard station link ∧
      link.sent = actions.filterMap Action.request? := by
  refine runAll_invariant
    (fun actions link => Sound postcard station link ∧ link.sent = actions.filterMap Action.request?)
    ⟨start_sound postcard station device, rfl⟩ ?_ actions
  rintro actions link action ⟨sound, sent⟩
  obtain ⟨next, stepped, kept, logged⟩ := step_sound sizes sound action
  refine ⟨next, stepped, kept, ?_⟩
  rw [logged, sent, filterMap_append]
  cases action <;> rfl

theorem poll_one (sound : Sound postcard station link) :
    ∃ next, link.step postcard (.poll 1) = .ok next ∧ Sound postcard station next ∧
      next.gateway = link.gateway ∧ next.sent = link.sent ∧
      next.node.transport.inbox = link.node.transport.inbox.tail := by
  obtain ⟨result, node, after, stepped, taken, kept⟩ := sound.pollStep sizes
  refine ⟨{ link with node := node, recorder := after.settle result }, ?_, kept, rfl, rfl, taken⟩
  simp only [step, Node.poll, stepped, bind_ok]
  cases result <;> rfl

theorem run_polls (count : Nat) (sound : Sound postcard station link) (arrived : link.gateway.transport.outbox = [])
    (enough : link.node.transport.inbox.length ≤ count) :
    ∃ last, link.run postcard (List.replicate count (.poll 1)) = .ok last ∧
      last.recorder.effects = link.sent.filterMap (Outgoing.effect station) := by
  induction count generalizing link with
  | zero =>
    obtain ⟨identity, unbuffered, delivered, waiting, sent, pending, recorded⟩ := sound
    rw [arrived, eq_nil_of_length_eq_zero (Nat.le_zero.mp enough)] at pending
    obtain ⟨rfl, _⟩ := pending.drained (decoder_framing _)
    refine ⟨link, rfl, ?_⟩
    rw [recorded.effects, sent, append_nil]
  | succ count ih =>
    obtain ⟨next, stepped, kept, sameGateway, sameSent, taken⟩ := poll_one sizes sound
    have fewer : next.node.transport.inbox.length ≤ count := by
      rw [taken, length_tail]
      omega
    obtain ⟨last, ran, served⟩ := ih kept (by rw [sameGateway, arrived]) fewer
    refine ⟨last, ?_, by rw [served, sameSent]⟩
    rw [replicate_succ, run, runAll_cons stepped]
    exact ran

theorem drains (sound : Sound postcard station link) :
    ∃ quiet last, quiet.filterMap Action.request? = [] ∧ link.run postcard quiet = .ok last ∧
      last.recorder.effects = link.sent.filterMap (Outgoing.effect station) := by
  obtain ⟨next, carried, kept, sent⟩ := step_sound sizes sound (.carry link.gateway.transport.outbox.length)
  have arrived : next.gateway.transport.outbox = [] := by
    simp only [step, drop_length, Except.ok.injEq] at carried
    simp [← carried]
  obtain ⟨last, ran, served⟩ := run_polls sizes _ kept arrived (Nat.le_refl _)
  refine ⟨.carry link.gateway.transport.outbox.length ::
    List.replicate next.node.transport.inbox.length (.poll 1), last, ?_, ?_, ?_⟩
  · simp [Action.request?]
  · rw [run, runAll_cons carried]
    exact ran
  · rw [served, sent]
    simp [Action.request?]

theorem nackWire_decodes (station : StationId) :
    ∃ frame, decodeFrame (nackWire postcard station) = .ok (.ok frame) ∧ frame.msgType = .nack ∧
      postcard.nack.fromBytes frame.payload = .ok ⟨station, 1, "write failed"⟩ := by
  have small : (postcard.nack.toAllocvec ⟨station, 1, "write failed"⟩).length ≤ maxPayloadLen :=
    Nat.le_trans (sizes.writeFailed station) (by decide)
  refine ⟨⟨.nack, postcard.nack.toAllocvec ⟨station, 1, "write failed"⟩⟩, ?_, rfl, Codec.inverts _ _⟩
  have decoded := decodeFrameWithLimit_encode .nack
    (postcard.nack.toAllocvec ⟨station, 1, "write failed"⟩) [] maxPayloadLen small
    (Nat.le_trans small (by decide))
  rw [append_nil] at decoded
  rw [decodeFrame, nackWire, encodeFrame, Nat.min_eq_left small, take_length, decoded]

end

/-- However sends, the wire and polls interleave, a station sees exactly the messages for
it, once each and in order; every rejected write is answered with one `Nack` and costs
nothing that comes after it; and what is still on its way can always be delivered. -/
theorem delivers {postcard : Postcard} (sizes : postcard.DocumentedSizes) (station : StationId)
    (device : δ) (actions : List Action) :
    ∃ link, (start station device).run postcard actions = .ok link ∧
      link.sent = actions.filterMap Action.request? ∧
      (∃ delivered waiting, link.sent = delivered ++ waiting ∧
        link.recorder.effects = delivered.filterMap (Outgoing.effect station) ∧
        (link.gateway.transport.outbox = [] → link.node.transport.inbox = [] → waiting = [])) ∧
      link.node.transport.outbox =
        link.recorder.rejections.flatMap (fun _ => nackWire postcard station) ∧
      link.recorder.results.filterMap failure? = link.recorder.rejections.map NodeError.device ∧
      (∃ frame, decodeFrame (nackWire postcard station) = .ok (.ok frame) ∧ frame.msgType = .nack ∧
        postcard.nack.fromBytes frame.payload = .ok ⟨station, 1, "write failed"⟩) ∧
      ∃ quiet last, quiet.filterMap Action.request? = [] ∧ link.run postcard quiet = .ok last ∧
        last.recorder.effects = link.sent.filterMap (Outgoing.effect station) := by
  obtain ⟨link, ran, sound, calls⟩ := run_sound sizes station device actions
  have drained := drains sizes sound
  obtain ⟨identity, unbuffered, delivered, waiting, sent, pending, recorded⟩ := sound
  refine ⟨link, ran, calls, ⟨delivered, waiting, sent, recorded.effects, ?_⟩, recorded.nacks,
    recorded.failures, nackWire_decodes sizes station, drained⟩
  intro arrived received
  rw [arrived, received] at pending
  exact (pending.drained (decoder_framing _)).1

/-- The documented format, and a device that rejects the write before the read. -/
theorem delivers_documented : ∃ link, (start 7 NoDevice.mk).run PostcardFormat.documented
        [.send (.writeRegister 7 512 ⟨0⟩), .carry 5, .poll 2, .send (.readRegister 9 1), .carry 99,
          .send (.readRegister 7 1), .poll 40] = .ok link ∧
      ∃ quiet last, quiet.filterMap Action.request? = [] ∧
        link.run PostcardFormat.documented quiet = .ok last ∧
        last.recorder.effects = [.write 512 ⟨0⟩, .request (.readRegister ⟨7, 1⟩)] := by
  obtain ⟨link, ran, sent, _, _, _, _, quiet, last, silent, drained, effects⟩ :=
    delivers PostcardFormat.documented_sizes 7 NoDevice.mk
      [.send (.writeRegister 7 512 ⟨0⟩), .carry 5, .poll 2, .send (.readRegister 9 1), .carry 99,
        .send (.readRegister 7 1), .poll 40]
  refine ⟨link, ran, quiet, last, silent, drained, ?_⟩
  rw [effects, sent]
  rfl

end Link

end Kei.Wire
