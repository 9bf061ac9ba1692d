import Kei.Library.Sink
import Kei.Wire.Downlink
import Kei.Wire.Uplink

/-! What the two ends put on their transports. `Transport::send` "returns the number actually
sent", and both `send_frame`s drop that number. -/

namespace Kei.Wire

open Library Transport Gateway PostcardFormat

variable {τ η κ : Type} [Transport τ]

section Calls

variable (perform : η → κ → Except TransportError Unit × η) (frame : κ → Frame) (transport : η → τ)

def performAll : List κ → η → List (Except TransportError Unit) × η
  | [], endpoint => ([], endpoint)
  | call :: calls, endpoint =>
    let (result, next) := perform endpoint call
    let (results, last) := performAll calls next
    (result :: results, last)

def framesOfOk : List κ → List (Except TransportError Unit) → List UInt8
  | call :: calls, .ok _ :: results => (frame call).encode ++ framesOfOk calls results
  | _ :: calls, .error _ :: results => framesOfOk calls results
  | _, _ => []

def NeverBroken : List κ → η → Prop
  | [], _ => True
  | call :: calls, endpoint =>
    Sink.Whole send (transport endpoint) (frame call).encode ∧
      NeverBroken calls (perform endpoint call).2

/-- Every call offers its frame to the transport once and reports whether that failed. -/
structure SendsFrames (own : η → Prop) : Prop where
  result : ∀ endpoint call, own endpoint → (perform endpoint call).1 =
    (send (transport endpoint) (frame call).encode).1.map fun _ => ()
  moved : ∀ endpoint call, own endpoint → transport (perform endpoint call).2 =
    (send (transport endpoint) (frame call).encode).2
  kept : ∀ endpoint call, own endpoint → own (perform endpoint call).2

variable {perform frame transport} {own : η → Prop}

theorem SendsFrames.performAll_eq (sends : SendsFrames perform frame transport own) (calls : List κ)
    {endpoint : η} (owned : own endpoint) :
    let blocks := calls.map fun call => (frame call).encode
    let offered := Sink.offerAll send blocks (transport endpoint)
    framesOfOk frame calls (performAll perform calls endpoint).1 =
        Sink.acknowledged blocks offered.1 ∧
      transport (performAll perform calls endpoint).2 = offered.2 ∧
      (NeverBroken perform frame transport calls endpoint ↔
        Sink.AllWhole send blocks (transport endpoint)) := by
  induction calls generalizing endpoint with
  | nil => exact ⟨rfl, rfl, Iff.rfl⟩
  | cons call calls ih =>
    obtain ⟨frames, last, whole⟩ := ih (sends.kept _ call owned)
    rw [sends.moved _ _ owned] at frames last whole
    refine ⟨?_, last, and_congr_right fun _ => whole⟩
    simp only [performAll, List.map_cons, Sink.offerAll]
    rw [sends.result _ _ owned]
    rcases (send (transport endpoint) (frame call).encode).1 with error | count
    · exact frames
    · exact congrArg _ frames

theorem SendsFrames.accepted_iff (sends : SendsFrames perform frame transport own)
    {accepted : τ → List UInt8} (fronts : TakesFronts send accepted) (calls : List κ)
    {endpoint : η} (owned : own endpoint) :
    accepted (transport (performAll perform calls endpoint).2) =
        accepted (transport endpoint) ++ framesOfOk frame calls (performAll perform calls endpoint).1 ↔
      NeverBroken perform frame transport calls endpoint := by
  obtain ⟨frames, last, whole⟩ := sends.performAll_eq calls owned
  rw [frames, last, whole]
  exact Sink.taken_eq_iff fronts _ _

end Calls

theorem Gateway.sendsFrames (postcard : Postcard) :
    SendsFrames (sendRequest postcard (τ := τ)) (Outgoing.frame postcard) transport fun _ => True where
  result _ call _ := by cases call <;> rfl
  moved _ call _ := by cases call <;> rfl
  kept _ _ _ := trivial

theorem Node.sendsFrames (postcard : Postcard) (stationId : StationId) :
    SendsFrames (sendReport postcard (τ := τ)) (fun report => (report.incoming stationId).frame postcard)
      Node.transport fun node => node.stationId = stationId where
  result _ call same := by
    subst same
    cases call <;> rfl
  moved _ call same := by
    subst same
    cases call <;> rfl
  kept _ call same := by cases call <;> exact same

/-- On a transport that may take less than it is given, the bytes on the wire are the frames
of the calls that returned `Ok(())` exactly when no frame was taken in part. -/
theorem accepted_iff_neverBroken (postcard : Postcard) {accepted : τ → List UInt8}
    (fronts : TakesFronts send accepted) :
    (∀ (calls : List Outgoing) (gateway : Gateway τ),
      let run := performAll (sendRequest postcard) calls gateway
      accepted run.2.transport =
          accepted gateway.transport ++ framesOfOk (Outgoing.frame postcard) calls run.1 ↔
        NeverBroken (sendRequest postcard) (Outgoing.frame postcard) transport calls gateway) ∧
    ∀ (calls : List Report) (node : Node τ),
      let run := performAll (Node.sendReport postcard) calls node
      let frame := fun report : Report => (report.incoming node.stationId).frame postcard
      accepted run.2.transport = accepted node.transport ++ framesOfOk frame calls run.1 ↔
        NeverBroken (Node.sendReport postcard) frame Node.transport calls node := by
  constructor
  · intro calls gateway
    exact (sendsFrames postcard).accepted_iff fronts calls trivial
  · intro calls node
    exact (Node.sendsFrames postcard node.stationId).accepted_iff fronts calls rfl

theorem Pipe.takesFronts : TakesFronts (send (τ := Pipe)) Pipe.outbox where
  took sent := by
    cases sent
    exact ⟨Nat.le_refl _, by rw [List.take_length]⟩
  refused sent := by cases sent

/-- The in-memory pipe takes everything, so its frames arrive whole. -/
theorem pipe_neverBroken : NeverBroken (sendRequest documented) (Outgoing.frame documented) transport
      [.readStation 7, .discover] (new (⟨[], []⟩ : Pipe)) :=
  ((accepted_iff_neverBroken documented Pipe.takesFronts).1 _ _).mp
    (by decide +kernel)

structure TxQueue where
  room : Nat
  bytes : List UInt8
  deriving DecidableEq, Repr

instance : Transport TxQueue where
  send queue data :=
    let count := min queue.room data.length
    (.ok count, ⟨queue.room - count, queue.bytes ++ data.take count⟩)
  recv queue buffer := (.error .closed, buffer, queue)

theorem TxQueue.takesFronts : TakesFronts (send (τ := TxQueue)) TxQueue.bytes where
  took sent := by
    cases sent
    exact ⟨Nat.min_le_right _ _, rfl⟩
  refused sent := by cases sent

/-- With room for four bytes, a call returns `Ok(())` and leaves the header of its frame. -/
theorem txQueue_truncates : TakesFronts (send (τ := TxQueue)) TxQueue.bytes ∧
      let run := performAll (sendRequest documented) [.readStation 7] (new (⟨4, []⟩ : TxQueue))
      let frames := framesOfOk (Outgoing.frame documented) [.readStation 7] run.1
      run.1 = [.ok ()] ∧ frames.length = 7 ∧ run.2.transport.bytes = frames.take 4 := by
  refine ⟨TxQueue.takesFronts, ?_⟩
  decide +kernel

end Kei.Wire
