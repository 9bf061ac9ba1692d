import Kei.Unix.Integrity

/-! What a poll of an open connection reports, beside what the calls it stands for do. -/

namespace Kei.Unix

open Library Checked Kei.Spsc List

variable {φ κ : Type}

/-- A write of one byte, which fails if there is no room for it. -/
theorem Channel.Carries.tryWrite_byte {channel : Channel φ κ} {strand : Strand φ κ}
    (carries : channel.Carries strand)
    (runs : channel.isShutdown = false) (isSeqpacket needPassCred : Bool) (byte : UInt8) (auxData : AuxiliaryData φ κ)
    (current : κ) :
    ∃ left after, channel.tryWrite 65536 isSeqpacket needPassCred ⟨[byte], none⟩ auxData current =
      .ok (if channel.ring.capacity - strand.bytes.length = 0 then .error .eagain else .ok 1, left, after) := by
  obtain ⟨ring, wrote, _⟩ := carries.holds.write ⟨[byte], none⟩
  have free := carries.holds.freeLen
  generalize channel.ring.capacity - strand.bytes.length = room at wrote free ⊢
  have sent : writeWith false channel.ring (writeFallible channel.ring ⟨[byte], none⟩) =
      .ok (if room = 0 then .error .eagain else .ok 1, ring) := by
    cases room <;> simp [wrote, writeWith, UserReader.read, faultWithin, bind_ok, pure_eq_ok]
  have stored : ∃ after, channel.writePayload isSeqpacket ⟨[byte], none⟩ =
      .ok (if room = 0 then .error .eagain else .ok 1, after) := by
    rw [Channel.writePayload, if_neg (by simp), free, bind_ok, runs]
    split
    case isTrue short =>
      obtain rfl : room = 0 := by simp at short; omega
      exact ⟨channel.ring, rfl⟩
    case isFalse => exact ⟨ring, sent⟩
  obtain ⟨after, stored⟩ := stored
  unfold Channel.tryWrite
  simp only [isEmpty_cons, Bool.false_and, Bool.false_eq_true, if_false, length_singleton, runs]
  rw [if_neg (by simp), sent, stored]
  split
  · exact ⟨_, _, rfl⟩
  · cases room <;> exact ⟨_, _, rfl⟩

/-- `IN` and `OUT` of `IoEvents`. -/
structure IoEvents where
  isIn : Bool
  isOut : Bool
  deriving DecidableEq

namespace Connection

def checkIoEvents (connection : Connection φ κ) (side : Side) : Checked IoEvents := do
  return ⟨!(connection.channel side.peer).ring.isEmpty, !(← (connection.channel side).ring.isFull)⟩

variable [DecidableEq κ] {connection : Connection φ κ} {isSeqpacket : Bool} {ring : RingBuffer UInt8}
  {histories : Side → History φ}

/-- Each event is reported exactly if the call it stands for returns anything but `EAGAIN`. -/
structure Agrees (connection : Connection φ κ) (isSeqpacket : Bool) (side : Side) (events : IoEvents) : Prop where
  isIn : ∀ behavior writer, 0 < writer.avail → (events.isIn = true ↔ ∃ turns result after,
    connection.perform 65536 isSeqpacket turns side (.read behavior writer) = .ok (.delivered result, after) ∧
      result ≠ .error .eagain)
  isOut : ∀ turns byte auxData current, (events.isOut = true ↔ ∃ result after,
    connection.perform 65536 isSeqpacket turns side (.write ⟨[byte], none⟩ auxData current) =
      .ok (.written result, after) ∧ result ≠ .error .eagain)

theorem read_answers_iff (talks : Talks 65536 isSeqpacket ring connection histories) (side : Side) {writer : UserWriter}
    (room : 0 < writer.avail) (behavior : ReceiveBehavior) :
    (∃ turns result after, connection.perform 65536 isSeqpacket turns side (.read behavior writer) =
      .ok (.delivered result, after) ∧ result ≠ .error .eagain) ↔
      ¬((connection.channel side.peer).ring.isEmpty = true ∧ (connection.channel side.peer).allAux = []) := by
  obtain ⟨runs, strand, carries, shaped, _⟩ := talks.tracks side.peer
  have drained : (connection.channel side.peer).ring.isEmpty = true ∧ (connection.channel side.peer).allAux = [] ↔
      strand.gap = [] ∧ strand.pieces = [] := by
    rw [RingBuffer.isEmpty, carries.holds.len, carries.allAux, Strand.bytes]
    cases strand.pieces <;> simp [place]
  rw [drained]
  constructor
  · rintro ⟨turns, result, after, returns, answers⟩
    rw [perform] at returns
    obtain ⟨outcome, ran, returns⟩ := bind_eq_ok.mp returns
    obtain ⟨same, _⟩ := Prod.mk.inj (Except.ok.inj returns)
    rw [← (tryRead_returned carries shaped ran).2 runs room, Response.delivered.inj same]
    exact answers
  · intro some
    obtain ⟨turns, outcome, ran⟩ := carries.tryRead_returns shaped
      (fun stuck => Bool.noConfusion (stuck.shut.symm.trans runs)) behavior
    rw [← (tryRead_returned carries shaped ran).2 runs room] at some
    exact ⟨turns, outcome.1, connection.put side.peer outcome.2, by rw [perform, ran]; rfl, some⟩

/-- A poll of an open pair agrees with the calls exactly if no record waits in the queue without a byte. -/
theorem readiness_agrees_iff (talks : Talks 65536 isSeqpacket ring connection histories) (side : Side) :
    (∃ events, connection.checkIoEvents side = .ok events ∧ connection.Agrees isSeqpacket side events) ↔
      ((connection.channel side.peer).ring.isEmpty = true → (connection.channel side.peer).allAux = []) := by
  obtain ⟨runs, strand, carries, _, _⟩ := talks.tracks side
  have free := carries.holds.freeLen
  have checked : connection.checkIoEvents side = .ok ⟨!(connection.channel side.peer).ring.isEmpty,
      !((connection.channel side).ring.capacity - strand.bytes.length == 0)⟩ := by
    rw [checkIoEvents, RingBuffer.isFull, free]
    rfl
  constructor
  · rintro ⟨events, reported, agrees⟩ empty
    obtain rfl := Except.ok.inj (checked.symm.trans reported)
    have read := (agrees.isIn .recv ⟨1, none, []⟩ Nat.one_pos).trans (read_answers_iff talks side Nat.one_pos .recv)
    simpa [empty] using read
  · intro bare
    refine ⟨_, checked, fun behavior writer room => ?_, fun turns byte auxData current => ?_⟩
    · rw [read_answers_iff talks side room]
      grind
    · obtain ⟨left, after, wrote⟩ := carries.tryWrite_byte runs isSeqpacket
        (connection.isPassCred side || connection.isPassCred side.peer) byte auxData current
      rw [perform, wrote]
      by_cases full : (connection.channel side).ring.capacity - strand.bytes.length = 0 <;>
        simp [full, bind_ok, pure_eq_ok]

def twoPackets : List (Side × Call Nat Nat) :=
  [(.client, .write ⟨[97, 98], none⟩ ⟨[1], none⟩ 7), (.client, .write ⟨[99], none⟩ .empty 7),
    (.server, .read .recv ⟨10, none, []⟩)]

/-- The second packet still waits. -/
theorem readiness_agrees_waiting : ∃ (connection : Connection Nat Nat) (histories : Side → History Nat),
    Talks 65536 true freshRing connection histories ∧
    histories .client = ⟨[⟨[97, 98], [1]⟩, ⟨[99], []⟩], [⟨10, [97, 98], [1]⟩]⟩ ∧
    ∃ events, connection.checkIoEvents .server = .ok events ∧ connection.Agrees true .server events := by
  have seen : (run record 65536 true 4 (newPair freshRing, fun _ => ⟨[], []⟩) twoPackets).map
      (fun state => (state.2 .client, (state.1.channel .client).ring.isEmpty)) =
      .ok (⟨[⟨[97, 98], [1]⟩, ⟨[99], []⟩], [⟨10, [97, 98], [1]⟩]⟩, false) := by decide +kernel
  cases ran : run record 65536 true 4 (newPair freshRing, fun _ => ⟨[], []⟩) twoPackets with
  | error panic =>
    rw [ran] at seen
    cases seen
  | ok state =>
    rw [ran] at seen
    obtain ⟨told, waiting⟩ := Prod.mk.inj (Except.ok.inj seen)
    have talks : Talks 65536 true freshRing state.1 state.2 := Talks.new.run (by decide) ran
    refine ⟨state.1, state.2, talks, told, (readiness_agrees_iff talks .server).mpr fun empty => ?_⟩
    cases waiting.symm.trans empty

def emptyMessage : Call Nat Nat := .write ⟨[], none⟩ .empty 7

/-- An empty message is received by a read that nothing reports. -/
theorem emptyMessage_unreported : ∃ (connection : Connection Nat Nat) (histories : Side → History Nat),
    Talks 65536 true freshRing connection histories ∧ connection.checkIoEvents .server = .ok ⟨false, true⟩ ∧
    ∃ delivery after, connection.perform 65536 true 1 .server (.read .recv ⟨1, none, []⟩) =
      .ok (.delivered (.ok delivery), after) :=
  ⟨_, _, .call .new rfl (show (newPair freshRing).perform 65536 true 1 .client emptyMessage = .ok _ from rfl),
    rfl, _, _, rfl⟩

end Connection

end Kei.Unix
