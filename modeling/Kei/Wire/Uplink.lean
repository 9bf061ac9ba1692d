import Mathlib.Data.List.Forall2
import Kei.Wire.Channel
import Kei.Wire.Gateway
import Kei.Wire.Node
import Kei.Wire.PostcardFormat

/-! From any number of nodes to the gateway over one line, whole frames after one
another. The encoder cuts a payload that is too long, so such a message arrives as a
frame of the right type with a payload nobody wrote. -/

namespace Kei.Wire

open Library Checked Gateway Incoming List

inductive Report
  | telemetry (register : Register) (value : F32) (unit : SensorUnit) (timestampMs : UInt64)
  | alarm (register : Register) (level : AlarmLevel) (message : String) (timestampMs : UInt64)
  | status (state : NodeState) (detail : String) (timestampMs : UInt64)
  | discoverResponse (name : String) (registerCount : UInt16)
  | nack (code : UInt16) (message : String)
  deriving DecidableEq, Repr

def Node.sendReport {τ : Type} [Transport τ] (postcard : Postcard) (node : Node τ) :
    Report → Except TransportError Unit × Node τ
  | .telemetry register value unit timestampMs =>
    node.sendTelemetry postcard register value unit timestampMs
  | .alarm register level message timestampMs =>
    node.sendAlarm postcard register level message timestampMs
  | .status state detail timestampMs => node.sendStatus postcard state detail timestampMs
  | .discoverResponse name registerCount => node.sendDiscoverResponse postcard name registerCount
  | .nack code message => node.sendNack postcard code message

def Report.incoming (station : StationId) : Report → Incoming
  | .telemetry register value unit timestampMs =>
    .telemetry ⟨station, register, value, unit, timestampMs⟩
  | .alarm register level message timestampMs => .alarm ⟨station, register, level, message, timestampMs⟩
  | .status state detail timestampMs => .status ⟨station, state, detail, timestampMs⟩
  | .discoverResponse name registerCount => .discoverResponse ⟨station, 1, name, registerCount⟩
  | .nack code message => .nack ⟨station, code, message⟩

def Incoming.frame (postcard : Postcard) : Incoming → Frame
  | .telemetry message => ⟨.telemetry, postcard.telemetry.toAllocvec message⟩
  | .alarm message => ⟨.alarm, postcard.alarm.toAllocvec message⟩
  | .status message => ⟨.status, postcard.status.toAllocvec message⟩
  | .discoverResponse message => ⟨.discoverResponse, postcard.discoverResponse.toAllocvec message⟩
  | .nack message => ⟨.nack, postcard.nack.toAllocvec message⟩

theorem Node.sendReport_outbox (postcard : Postcard) (node : Node Pipe) (report : Report) :
    (node.sendReport postcard report).2 = { node with
      transport := { node.transport with
        outbox := node.transport.outbox ++ ((report.incoming node.stationId).frame postcard).encode } } := by
  cases report <;> rfl

def Arrives (postcard : Postcard) (message : Incoming) (result : Except GatewayError Incoming) : Prop :=
  ((message.frame postcard).payload.length ≤ maxPayloadLen ∧ result = .ok message) ∨
    (maxPayloadLen < (message.frame postcard).payload.length ∧
      ∃ error, result = .error (.postcard error))

theorem Codec.fromBytes_cut {α : Type} {codec : Codec α} (rejects : codec.RejectsPrefixes) (value : α)
    (long : maxPayloadLen < (codec.toAllocvec value).length) :
    ∃ error, codec.fromBytes
      ((codec.toAllocvec value).take (min (codec.toAllocvec value).length maxPayloadLen)) =
        .error error := by
  refine rejects value _ ( take_prefix _ _) ?_
  intro whole
  have length := congrArg length whole
  rw [length_take] at length
  omega

variable {postcard : Postcard}

theorem interpret_carried (rejects : postcard.RejectsPrefixes) (message : Incoming) :
    ∃ result, interpret postcard (message.frame postcard).carried = some result ∧
      Arrives postcard message result := by
  by_cases small : (message.frame postcard).payload.length ≤ maxPayloadLen
  · rw [Frame.carried_of_le small]
    refine ⟨.ok message, ?_, Or.inl ⟨small, rfl⟩⟩
    cases message <;> simp [interpret, frame, Codec.inverts]
  · have long : maxPayloadLen < (message.frame postcard).payload.length := by omega
    have rejected : ∃ error, interpret postcard (message.frame postcard).carried =
        some (.error (.postcard error)) := by
      obtain ⟨telemetry, alarm, status, discoverResponse, nack⟩ := rejects
      cases message <;>
        obtain ⟨error, cut⟩ := Codec.fromBytes_cut (by assumption) _ long <;>
        exact ⟨error, by simp [interpret, frame, Frame.carried, cut]⟩
    obtain ⟨error, interpreted⟩ := rejected
    exact ⟨_, interpreted, Or.inr ⟨long, error, rfl⟩⟩

structure Bus (ι : Type) where
  nodes : ι → Node Pipe
  line : List UInt8
  gateway : Gateway Pipe
  sent : List Incoming
  received : List (Except GatewayError Incoming)

inductive Bus.Action (ι : Type)
  | report (who : ι) (report : Report)
  | carry (count : Nat)
  | recv (turns : Nat)

namespace Bus

variable {ι : Type} [DecidableEq ι]

def start (stations : ι → StationId) : Bus ι :=
  ⟨fun who => Node.new ⟨[], []⟩ (stations who), [], new ⟨[], []⟩, [], []⟩

def step (postcard : Postcard) (bus : Bus ι) : Action ι → Checked (Bus ι)
  | .report who report =>
    let node := ((bus.nodes who).sendReport postcard report).2
    .ok { bus with
      nodes := Function.update bus.nodes who { node with transport := { node.transport with outbox := [] } }
      line := bus.line ++ node.transport.outbox
      sent := bus.sent ++ [report.incoming (bus.nodes who).stationId] }
  | .carry count =>
    let pipe := bus.gateway.transport
    .ok { bus with
      line := bus.line.drop count
      gateway := { bus.gateway with
        transport := { pipe with inbox := pipe.inbox ++ bus.line.take count } } }
  | .recv turns => do
    let (result, gateway) ← bus.gateway.recv postcard turns
    return { bus with gateway := gateway, received := bus.received ++ result.toList }

def run (postcard : Postcard) : Bus ι → List (Action ι) → Checked (Bus ι) := runAll (step postcard)

def Action.message? (stations : ι → StationId) : Action ι → Option Incoming
  | .report who content => some (content.incoming (stations who))
  | .carry _ => none
  | .recv _ => none

end Bus

/-- The gateway has returned results for a first part of what was sent, and the bytes of
the rest are on the line or already in its decoder. -/
def Receiving (postcard : Postcard) (sent : List Incoming) (line : List UInt8) (gateway : Gateway Pipe)
    (received : List (Except GatewayError Incoming)) : Prop :=
  ∃ delivered waiting, sent = delivered ++ waiting ∧
    Pending FrameDecoder.push FrameDecoder.new (.error .needMore)
      (fun message => (frame postcard message).encode) waiting
      (gateway.transport.inbox ++ line) gateway.decoder ∧
    List.Forall₂ (Arrives postcard) delivered received

theorem Gateway.recvFrameStep_cons (byte : UInt8) (inbox outbox : List UInt8)
    (decoder next : FrameDecoder) (answer : Except DecodeStreamError Frame)
    (pushed : decoder.push byte = .ok (answer, next)) :
    recvFrameStep (⟨⟨byte :: inbox, outbox⟩, decoder⟩ : Gateway Pipe) =
      .ok (answer.toOption.map .ok, ⟨⟨inbox, outbox⟩, next⟩) := by
  have first : index [byte] 0 = .ok byte := rfl
  simp only [recvFrameStep, Pipe.recv_cons, Nat.one_ne_zero, if_false, first, bind_ok, pushed]
  cases answer <;> rfl

variable {received : List (Except GatewayError Incoming)} {gateway : Gateway Pipe} {sent : List Incoming}

theorem Receiving.recvStep (rejects : postcard.RejectsPrefixes) {line : List UInt8}
    (receiving : Receiving postcard sent line gateway received) :
    ∃ result next, gateway.recvStep postcard = .ok (result, next) ∧
      next.transport.inbox = gateway.transport.inbox.tail ∧
      Receiving postcard sent line next (received ++ result.toList) := by
  obtain ⟨⟨inbox, outbox⟩, decoder⟩ := gateway
  obtain ⟨delivered, waiting, rfl, pending, arrived⟩ := receiving
  cases inbox with
  | nil =>
    refine ⟨none, ⟨⟨[], outbox⟩, decoder⟩, rfl, rfl, delivered, waiting, rfl, pending, ?_⟩
    simpa using arrived
  | cons byte inbox =>
    obtain ⟨_, next, pushed, ⟨rfl, pending⟩ | ⟨message, later, rfl, rfl, pending⟩⟩ :=
      pending.advance (decoder_framing _)
    · have turn := recvFrameStep_cons byte inbox outbox decoder next _ pushed
      refine ⟨none, ⟨⟨inbox, outbox⟩, next⟩, ?_, rfl, delivered, waiting, rfl, pending, ?_⟩
      · simp only [recvStep, turn, bind_ok]
        rfl
      · simpa using arrived
    · have turn := recvFrameStep_cons byte inbox outbox decoder next _ pushed
      obtain ⟨result, interpreted, arrives⟩ := interpret_carried rejects message
      refine ⟨some result, ⟨⟨inbox, outbox⟩, next⟩, ?_, rfl, delivered ++ [message], later, by simp, pending,
        ?_⟩
      · simp only [recvStep, turn, bind_ok, Except.toOption, Option.map_some, interpreted]
        rfl
      · exact rel_append arrived (List.Forall₂.cons arrives List.Forall₂.nil)

theorem Receiving.recv (rejects : postcard.RejectsPrefixes)
    {line : List UInt8} (turns : Nat)
    (receiving : Receiving postcard sent line gateway received) :
    ∃ result next, gateway.recv postcard turns = .ok (result, next) ∧
      Receiving postcard sent line next (received ++ result.toList) := by
  induction turns generalizing gateway with
  | zero => exact ⟨none, gateway, rfl, by simpa using receiving⟩
  | succ turns ih =>
    obtain ⟨result, next, stepped, _, kept⟩ := receiving.recvStep rejects
    cases result with
    | none =>
      obtain ⟨result, last, returned, done⟩ := ih (by simpa using kept)
      refine ⟨result, last, ?_, done⟩
      simp only [recv, stepped, bind_ok]
      exact returned
    | some result =>
      refine ⟨some result, next, ?_, kept⟩
      simp only [recv, stepped, bind_ok]
      rfl

namespace Bus

variable {ι : Type} [DecidableEq ι]

structure Sound (postcard : Postcard) (stations : ι → StationId) (bus : Bus ι) : Prop where
  identity : ∀ who, (bus.nodes who).stationId = stations who
  flushed : ∀ who, (bus.nodes who).transport.outbox = []
  receiving : Receiving postcard bus.sent bus.line bus.gateway bus.received

variable {postcard : Postcard} {stations : ι → StationId} {bus : Bus ι}

section

variable (rejects : postcard.RejectsPrefixes)
include rejects

theorem step_sound (sound : Sound postcard stations bus) (action : Action ι) :
    ∃ next, bus.step postcard action = .ok next ∧ Sound postcard stations next ∧
      next.sent = bus.sent ++ (action.message? stations).toList := by
  obtain ⟨identity, flushed, receiving⟩ := sound
  cases action with
  | report who report =>
    obtain ⟨delivered, waiting, sent, pending, arrived⟩ := receiving
    refine ⟨_, rfl, ⟨?_, ?_, delivered, waiting ++ [report.incoming (stations who)], ?_, ?_, arrived⟩, ?_⟩
    · intro other
      by_cases same : other = who
      · subst same
        simp [Node.sendReport_outbox, identity]
      · simp [Function.update_of_ne same, identity]
    · intro other
      by_cases same : other = who
      · subst same
        simp
      · simp [Function.update_of_ne same, flushed]
    · simp [sent, identity]
    · simpa [Node.sendReport_outbox, flushed, identity] using
        pending.send (report.incoming (stations who))
    · simp [Action.message?, identity]
  | carry count =>
    obtain ⟨delivered, waiting, sent, pending, arrived⟩ := receiving
    refine ⟨_, rfl, ⟨identity, flushed, delivered, waiting, sent, ?_, arrived⟩, by simp [Action.message?]⟩
    simpa only [append_assoc, take_append_drop] using pending
  | recv turns =>
    obtain ⟨result, next, returned, kept⟩ := receiving.recv rejects turns
    refine ⟨{ bus with gateway := next, received := bus.received ++ result.toList }, ?_,
      ⟨identity, flushed, kept⟩, by simp [Action.message?]⟩
    simp only [step, returned, bind_ok]
    rfl

theorem run_sound (stations : ι → StationId) (actions : List (Action ι)) :
    ∃ bus, (start stations).run postcard actions = .ok bus ∧ Sound postcard stations bus ∧
      bus.sent = actions.filterMap (Action.message? stations) := by
  refine runAll_invariant
    (fun actions bus => Sound postcard stations bus ∧
      bus.sent = actions.filterMap (Action.message? stations)) ⟨?_, rfl⟩ ?_ actions
  · exact ⟨fun who => rfl, fun who => rfl, [], [], rfl, Pending.initial, List.Forall₂.nil⟩
  · rintro actions bus action ⟨sound, sent⟩
    obtain ⟨next, stepped, kept, logged⟩ := step_sound rejects sound action
    refine ⟨next, stepped, kept, ?_⟩
    rw [logged, sent, filterMap_append]
    cases action <;> rfl

theorem recv_one (sound : Sound postcard stations bus) :
    ∃ next, bus.step postcard (.recv 1) = .ok next ∧ Sound postcard stations next ∧
      next.line = bus.line ∧ next.sent = bus.sent ∧
      next.gateway.transport.inbox = bus.gateway.transport.inbox.tail := by
  obtain ⟨identity, flushed, receiving⟩ := sound
  obtain ⟨result, gateway, stepped, taken, kept⟩ := receiving.recvStep rejects
  refine ⟨{ bus with gateway := gateway, received := bus.received ++ result.toList }, ?_,
    ⟨identity, flushed, kept⟩, rfl, rfl, taken⟩
  simp only [step, recv, stepped, bind_ok]
  cases result <;> rfl

theorem run_recvs (count : Nat) (sound : Sound postcard stations bus) (empty : bus.line = [])
    (enough : bus.gateway.transport.inbox.length ≤ count) :
    ∃ last, bus.run postcard (replicate count (.recv 1)) = .ok last ∧
      List.Forall₂ (Arrives postcard) bus.sent last.received := by
  induction count generalizing bus with
  | zero =>
    obtain ⟨delivered, waiting, sent, pending, arrived⟩ := sound.receiving
    rw [empty, eq_nil_of_length_eq_zero (Nat.le_zero.mp enough)] at pending
    obtain ⟨rfl, _⟩ := pending.drained (decoder_framing _)
    refine ⟨bus, rfl, ?_⟩
    rwa [sent, append_nil]
  | succ count ih =>
    obtain ⟨next, stepped, kept, sameLine, sameSent, taken⟩ := recv_one rejects sound
    have fewer : next.gateway.transport.inbox.length ≤ count := by
      rw [taken, length_tail]
      omega
    obtain ⟨last, ran, served⟩ := ih kept (by rw [sameLine, empty]) fewer
    refine ⟨last, ?_, by rwa [sameSent] at served⟩
    rw [replicate_succ, run, runAll_cons stepped]
    exact ran

theorem drains (sound : Sound postcard stations bus) :
    ∃ quiet last, quiet.filterMap (Action.message? stations) = [] ∧ bus.run postcard quiet = .ok last ∧
      List.Forall₂ (Arrives postcard) bus.sent last.received := by
  obtain ⟨next, carried, kept, sent⟩ := step_sound rejects sound (.carry bus.line.length)
  have empty : next.line = [] := by
    simp only [step, drop_length, Except.ok.injEq] at carried
    simp [← carried]
  obtain ⟨last, ran, served⟩ := run_recvs rejects _ kept empty (Nat.le_refl _)
  refine ⟨.carry bus.line.length :: replicate next.gateway.transport.inbox.length (.recv 1), last,
    ?_, ?_, ?_⟩
  · simp [Action.message?]
  · rw [run, runAll_cons carried]
    exact ran
  · rw [sent] at served
    simpa [Action.message?] using served

end

/-- However nodes, line and gateway interleave, `recv` returns one result per message, in
order: the message itself, or a `Postcard` error where the encoder had cut it. -/
theorem receives {postcard : Postcard} (rejects : postcard.RejectsPrefixes) (stations : ι → StationId)
    (actions : List (Action ι)) :
    ∃ bus, (start stations).run postcard actions = .ok bus ∧
      bus.sent = actions.filterMap (Action.message? stations) ∧
      (∃ delivered waiting, bus.sent = delivered ++ waiting ∧
        List.Forall₂ (Arrives postcard) delivered bus.received ∧
        (bus.line = [] → bus.gateway.transport.inbox = [] → waiting = [])) ∧
      ∃ quiet last, quiet.filterMap (Action.message? stations) = [] ∧
        bus.run postcard quiet = .ok last ∧ List.Forall₂ (Arrives postcard) bus.sent last.received := by
  obtain ⟨bus, ran, sound, calls⟩ := run_sound rejects stations actions
  have drained := drains rejects sound
  obtain ⟨delivered, waiting, sent, pending, arrived⟩ := sound.receiving
  refine ⟨bus, ran, calls, ⟨delivered, waiting, sent, arrived, ?_⟩, drained⟩
  intro empty received
  rw [empty, received] at pending
  exact (pending.drained (decoder_framing _)).1

/-- Two stations on the line of the documented format: the message that is too long costs the one behind it nothing. -/
theorem receives_documented :
    ∃ bus quiet last error, (start fun who : Bool => if who then 7 else 8).run PostcardFormat.documented
        [.report true (.status .boot "v1" 0), .carry 3,
          .report false (.alarm 1 .high ("".pushn 'x' 1020) 5), .report true (.nack 2 "busy"), .recv 9] = .ok bus ∧
      bus.run PostcardFormat.documented quiet = .ok last ∧
      last.received =
        [.ok (.status ⟨7, .boot, "v1", 0⟩), .error (.postcard error), .ok (.nack ⟨7, 2, "busy"⟩)] := by
  obtain ⟨bus, ran, sent, _, quiet, last, _, drained, arrived⟩ := receives PostcardFormat.documented_rejectsPrefixes
    (fun who : Bool => if who then 7 else 8)
    [.report true (.status .boot "v1" 0), .carry 3,
      .report false (.alarm 1 .high ("".pushn 'x' 1020) 5), .report true (.nack 2 "busy"), .recv 9]
  rw [sent] at arrived
  obtain ⟨first, _, status, later, same⟩ := forall₂_cons_left_iff.mp arrived
  obtain ⟨second, _, alarm, others, rfl⟩ := forall₂_cons_left_iff.mp later
  obtain ⟨third, _, nack, nothing, rfl⟩ := forall₂_cons_left_iff.mp others
  obtain rfl := forall₂_nil_left_iff.mp nothing
  obtain ⟨-, rfl⟩ | ⟨long, -⟩ := status
  on_goal 2 => exact absurd long (by decide +kernel)
  obtain ⟨-, rfl⟩ | ⟨long, -⟩ := nack
  on_goal 2 => exact absurd long (by decide +kernel)
  obtain ⟨short, -⟩ | ⟨-, error, rfl⟩ := alarm
  · exact absurd short (by decide +kernel)
  · exact ⟨bus, quiet, last, error, ran, drained, same⟩

end Bus

end Kei.Wire
