import Kei.Unix.Write

/-! When a read returns. At the end of the data a turn takes nothing, and nothing stops the loop
there if the other end is shut down and the data received so far is a subset of no data. -/

namespace Kei.Unix

open Library Checked Kei.Spsc AuxiliaryData Piece
open List hiding all

variable {φ κ : Type} [DecidableEq κ]

theorem AuxiliaryData.isSubsetOf_empty_iff {data : AuxiliaryData φ κ} {isPassCred : Bool} :
    data.isSubsetOf .empty isPassCred = true ↔ data.files = [] ∧ (isPassCred = true → data.cred = none) := by
  cases isPassCred with
  | false => simp [isSubsetOf]
  | true => by_cases none : data.cred = none <;> simp [isSubsetOf, empty, none]

theorem AuxiliaryData.isSubsetOf_trans_empty {data other : AuxiliaryData φ κ} {isPassCred : Bool}
    (quiet : other.isSubsetOf .empty isPassCred = true) :
    data.isSubsetOf other isPassCred = true ↔ data.isSubsetOf .empty isPassCred = true := by
  rw [isSubsetOf_empty_iff] at *
  cases isPassCred with
  | false => simp [isSubsetOf]
  | true => by_cases none : data.cred = none <;> simp [isSubsetOf, quiet.2 rfl, none]

theorem faultWithin_le {fault : Option Nat} {len more : Nat} (clear : faultWithin fault more = none)
    (order : len ≤ more) : faultWithin fault len = none := by
  cases found : faultWithin fault len with
  | none => rfl
  | some before =>
    rw [UserWriter.faultWithin_mono found order] at clear
    cases clear

namespace Channel

variable {channel : Channel φ κ} {isPassCred : Bool} {auxPos readTotLen turns : Nat} {gap : List UInt8}
  {pieces later : List (Piece φ κ)} {prev last : Option (AuxiliaryData φ κ)} {writer : UserWriter}
  {bytes after : List UInt8} {next : AuxiliaryData φ κ} {step : Nat}

structure Endless (isShutdown isPassCred : Bool) (gap : List UInt8) (pieces : List (Piece φ κ))
    (prev : Option (AuxiliaryData φ κ)) (writer : UserWriter) : Prop where
  shut : isShutdown = true
  room : (gap ++ pieces.flatMap all).length ≤ writer.avail
  unharmed : faultWithin writer.fault (gap ++ pieces.flatMap all).length = none
  quiet : ∀ piece ∈ pieces, piece.data.isSubsetOf .empty isPassCred = true
  prev : ∀ data, prev = some data → data.isSubsetOf .empty isPassCred = true

theorem advance_iff {bytes : List UInt8} (fits : bytes.length ≤ writer.avail)
    (clear : faultWithin writer.fault bytes.length = none) (len : Nat) :
    (len ≤ (writer.advance bytes).avail ∧ faultWithin (writer.advance bytes).fault len = none) ↔
      bytes.length + len ≤ writer.avail ∧ faultWithin writer.fault (bytes.length + len) = none := by
  rw [UserWriter.advance, UserWriter.faultWithin_map_sub clear, Option.map_eq_none_iff]
  constructor
  · rintro ⟨room, unharmed⟩
    exact ⟨by dsimp only at room; omega, unharmed⟩
  · rintro ⟨room, unharmed⟩
    exact ⟨by dsimp only; omega, unharmed⟩

theorem Turn.endless_iff (turn : Turn gap pieces prev bytes next step after later last)
    (fits : bytes.length ≤ writer.avail) (clear : faultWithin writer.fault bytes.length = none)
    (checked : ∀ data, prev = some data → data.isSubsetOf next isPassCred = true) (isShutdown : Bool) :
    Endless isShutdown isPassCred after later last (writer.advance bytes) ↔
      Endless isShutdown isPassCred gap pieces prev writer := by
  have ahead := advance_iff fits clear (after ++ later.flatMap all).length
  rw [← length_append, ← turn.bytes_eq] at ahead
  have calm : ((∀ piece ∈ later, piece.data.isSubsetOf .empty isPassCred = true) ∧
      ∀ data, last = some data → data.isSubsetOf .empty isPassCred = true) ↔
      (∀ piece ∈ pieces, piece.data.isSubsetOf .empty isPassCred = true) ∧
      ∀ data, prev = some data → data.isSubsetOf .empty isPassCred = true := by
    cases turn with
    | gap => exact Iff.rfl
    | piece =>
      rw [forall_mem_cons]
      constructor
      · rintro ⟨quiet, own⟩
        have own := own _ rfl
        exact ⟨⟨own, quiet⟩, fun data same => (isSubsetOf_trans_empty own).mp (checked data same)⟩
      · rintro ⟨⟨own, quiet⟩, _⟩
        exact ⟨quiet, by rintro _ ⟨⟩; exact own⟩
  constructor
  · rintro ⟨shut, room, unharmed, quiet, before⟩
    obtain ⟨room, unharmed⟩ := ahead.mp ⟨room, unharmed⟩
    obtain ⟨quiet, before⟩ := calm.mp ⟨quiet, before⟩
    exact ⟨shut, room, unharmed, quiet, before⟩
  · rintro ⟨shut, room, unharmed, quiet, before⟩
    obtain ⟨room, unharmed⟩ := ahead.mpr ⟨room, unharmed⟩
    obtain ⟨quiet, before⟩ := calm.mpr ⟨quiet, before⟩
    exact ⟨shut, room, unharmed, quiet, before⟩

theorem empty_isSubsetOf_empty : (empty : AuxiliaryData φ κ).isSubsetOf .empty isPassCred = true :=
  isSubsetOf_empty_iff.mpr ⟨rfl, fun _ => rfl⟩

section

variable (at_ : channel.At auxPos readTotLen gap pieces prev) (filled : ∀ piece ∈ pieces, piece.bytes ≠ [])
include at_ filled

theorem At.receive_endless (endless : Endless channel.isShutdown isPassCred gap pieces prev writer) :
    channel.receive false isPassCred false channel.ring.head turns auxPos readTotLen writer = .error .hang := by
  induction turns generalizing auxPos readTotLen gap pieces prev writer with
  | zero => rfl
  | succ turns ih =>
    obtain ⟨bytes, next, step, after, later, last, turn⟩ := exists_turn gap prev filled
    have room := endless.room
    have clear := endless.unharmed
    rw [turn.bytes_eq, length_append] at room clear
    have clear := faultWithin_le clear (Nat.le_add_right _ _)
    have calm : (prev.getD .empty).isSubsetOf .empty isPassCred = true := by
      cases prev with
      | none => exact empty_isSubsetOf_empty
      | some data => exact endless.prev data rfl
    have subset : (prev.getD .empty).isSubsetOf next isPassCred = true := by
      cases turn with
      | gap => exact calm
      | piece => exact (isSubsetOf_trans_empty (endless.quiet _ mem_cons_self)).mpr calm
    have full : min writer.avail bytes.length = bytes.length := Nat.min_eq_right (by omega)
    have written := @UserWriter.write_ok writer bytes (by rw [full]; exact clear)
    rw [full, take_length] at written
    have read : readWith channel.isShutdown (.ok bytes.length) = .ok bytes.length := by
      rw [readWith, endless.shut]
      split
      · rfl
      · rw [if_pos rfl]
        congr 1
        omega
    rw [at_.receive_turn turn, if_neg (by rw [subset]; simp), outcome, written, read]
    simp only [Nat.lt_irrefl, if_false]
    refine ih (at_.pass turn) (turn.filled filled)
      ((turn.endless_iff (by omega) clear (fun data same => ?_) _).mpr endless)
    rw [same] at subset
    exact subset

theorem At.receive_ends (ends : ¬Endless channel.isShutdown isPassCred gap pieces prev writer)
    (enough : 2 * pieces.length + (if gap = [] then 0 else 1) < turns) :
    ∃ result, channel.receive false isPassCred false channel.ring.head turns auxPos readTotLen writer =
      .ok result := by
  induction turns generalizing auxPos readTotLen gap pieces prev writer with
  | zero => omega
  | succ turns ih =>
    obtain ⟨bytes, next, step, after, later, last, turn⟩ := exists_turn gap prev filled
    rw [at_.receive_turn turn]
    split
    case isTrue => exact ⟨_, rfl⟩
    case isFalse goes =>
      have checked : ∀ data, prev = some data → data.isSubsetOf next isPassCred = true := by
        rintro data rfl
        rcases at_.prev with ⟨_, absurd⟩ | ⟨_, _, _, _, _, started⟩
        · cases absurd
        · by_contra other
          exact goes ⟨started, by simpa using other⟩
      rcases outcome_cases channel.isShutdown writer bytes auxPos (auxPos + step) readTotLen
          (channel.receive false isPassCred false channel.ring.head turns (auxPos + step)) with
        ⟨errno, _, same⟩ | ⟨len, _, _, _, same⟩ | ⟨room, clear, began, same⟩
      · exact ⟨_, same⟩
      · exact ⟨_, same⟩
      · rw [same]
        have further := (not_congr (turn.endless_iff room clear checked channel.isShutdown)).mpr ends
        rcases turn.measure with ⟨rfl, rfl⟩ | less
        · cases turn
          exact absurd ⟨by simpa using began, Nat.zero_le _, clear, forall_mem_nil _, checked⟩ ends
        · exact ih (at_.pass turn) (turn.filled filled) further (by omega)

end

/-- A call that never returns: the other end is shut down, everything unread fits the buffer and
can be copied, and all the auxiliary data in the queue is a subset of no data. -/
structure Stuck (channel : Channel φ κ) (isSeqpacket isPassCred : Bool) (writer : UserWriter) : Prop where
  stream : isSeqpacket = false
  asks : 0 < writer.avail
  marked : channel.allAux ≠ []
  shut : channel.isShutdown = true
  room : channel.ring.len ≤ writer.avail
  unharmed : faultWithin writer.fault channel.ring.len = none
  quiet : ∀ aux ∈ channel.allAux, aux.data.isSubsetOf .empty isPassCred = true

omit [DecidableEq κ] in
theorem map_data_place (position : BitVec 64) (gap : List UInt8) (pieces : List (Piece φ κ)) :
    (place position gap pieces).map (·.data) = pieces.map (·.data) := by
  induction pieces generalizing position gap with
  | nil => rfl
  | cons piece pieces ih => rw [place, map_cons, ih, map_cons]

variable {strand : Strand φ κ} {isSeqpacket : Bool}

variable (carries : channel.Carries strand)
include carries

theorem Carries.quiet_iff : (∀ aux ∈ channel.allAux, aux.data.isSubsetOf .empty isPassCred = true) ↔
      ∀ piece ∈ strand.pieces, piece.data.isSubsetOf .empty isPassCred = true := by
  have same : channel.allAux.map (·.data) = strand.pieces.map (·.data) := by
    rw [carries.allAux, map_data_place]
  have each := @forall_mem_map _ _ (·.data) channel.allAux fun data => data.isSubsetOf .empty isPassCred = true
  rw [same, forall_mem_map] at each
  exact each.symm

theorem Carries.endless_iff :
    Endless channel.isShutdown isPassCred strand.gap strand.pieces none writer ↔
      channel.isShutdown = true ∧ channel.ring.len ≤ writer.avail ∧
        faultWithin writer.fault channel.ring.len = none ∧
        ∀ aux ∈ channel.allAux, aux.data.isSubsetOf .empty isPassCred = true := by
  rw [carries.quiet_iff, carries.holds.len]
  constructor
  · rintro ⟨shut, room, unharmed, quiet, _⟩
    exact ⟨shut, room, unharmed, quiet⟩
  · rintro ⟨shut, room, unharmed, quiet⟩
    exact ⟨shut, room, unharmed, quiet, by simp⟩

theorem Carries.tryRead_returns (shaped : strand.Shaped isSeqpacket)
    (free : ¬channel.Stuck isSeqpacket isPassCred writer) (behavior : ReceiveBehavior) :
    ∃ turns outcome, channel.tryRead turns isSeqpacket isPassCred behavior writer = .ok outcome := by
  by_cases plain : strand.pieces = []
  · by_cases enter : 0 < writer.avail ∨ isSeqpacket = true
    · obtain ⟨outcome, ran, _⟩ := carries.tryRead_plain shaped plain enter 0 isPassCred behavior
      exact ⟨0, outcome, ran⟩
    · obtain ⟨empty, stream⟩ := not_or.mp enter
      obtain rfl : isSeqpacket = false := by simpa using stream
      obtain ⟨outcome, ran, _⟩ := (carries.tryRead_empty (show writer.avail = 0 by omega) 0 isPassCred behavior)
      exact ⟨0, outcome, ran⟩
  · cases isSeqpacket with
    | true =>
      obtain ⟨outcome, ran, _⟩ := carries.tryRead_packet shaped plain 0 isPassCred behavior writer
      exact ⟨1, outcome, ran⟩
    | false =>
      by_cases empty : writer.avail = 0
      · obtain ⟨outcome, ran, _⟩ := carries.tryRead_empty empty 0 isPassCred behavior
        exact ⟨0, outcome, ran⟩
      · have room : 0 < writer.avail := by omega
        have ends : ¬Endless channel.isShutdown isPassCred strand.gap strand.pieces none writer := by
          intro endless
          obtain ⟨shut, fits, unharmed, quiet⟩ := carries.endless_iff.mp endless
          refine free ⟨rfl, room, ?_, shut, fits, unharmed, quiet⟩
          have marked := carries.hasAux_iff.mpr plain
          rw [carries.hasAux] at marked
          simpa using marked
        obtain ⟨result, received⟩ := carries.start.receive_ends shaped ends (Nat.lt_succ_self _)
        obtain ⟨outcome, ran, _⟩ := carries.tryRead_stream shaped plain room received behavior
        exact ⟨_, outcome, ran⟩

theorem Carries.tryRead_stuck (shaped : strand.Shaped isSeqpacket)
    (stuck : channel.Stuck isSeqpacket isPassCred writer) (turns : Nat) (behavior : ReceiveBehavior) :
    channel.tryRead turns isSeqpacket isPassCred behavior writer = .error .hang := by
  obtain ⟨rfl, room, marked, shut, fits, unharmed, quiet⟩ := stuck
  have pieces : strand.pieces ≠ [] := by
    rw [← carries.hasAux_iff, carries.hasAux]
    simpa using marked
  have filled : (writer.avail == 0) = false := by simp; omega
  rw [carries.tryRead_marked pieces (.inl room), filled,
    carries.start.receive_endless shaped (carries.endless_iff.mpr ⟨shut, fits, unharmed, quiet⟩)]
  rfl

end Channel

namespace Connection

variable {connection after : Connection φ κ} {bufSize turns : Nat} {isSeqpacket : Bool} {ring : RingBuffer UInt8}
  {side : Side} {call : Call φ κ} {response : Response φ κ}

inductive Reaches (bufSize : Nat) (isSeqpacket : Bool) (ring : RingBuffer UInt8) : Connection φ κ → Prop
  | new : Reaches bufSize isSeqpacket ring (newPair ring)
  | call {connection after : Connection φ κ} {turns : Nat} {side : Side} {call : Call φ κ}
      {response : Response φ κ}
    (reaches : Reaches bufSize isSeqpacket ring connection)
    (returns : connection.perform bufSize isSeqpacket turns side call = .ok (response, after)) :
    Reaches bufSize isSeqpacket ring after

/-- Each channel carries a strand with a property. -/
def Within (good : Strand φ κ → Prop) (connection : Connection φ κ) : Prop :=
  ∀ side, ∃ strand, (connection.channel side).Carries strand ∧ good strand

omit [DecidableEq κ] in
theorem put_self (channel : Channel φ κ) : (connection.put side channel).channel side = channel := by
  simp [put]

omit [DecidableEq κ] in
theorem put_other {other : Side} (apart : other ≠ side) (channel : Channel φ κ) :
    (connection.put side channel).channel other = connection.channel other := by
  simp [put, apart]

omit [DecidableEq κ] in
theorem newPair_carries (side : Side) : ((newPair ring : Connection φ κ).channel side).Carries ⟨[], []⟩ :=
  ⟨⟨by simp [newPair, RingBuffer.len, Strand.bytes], nil_prefix⟩, rfl, rfl⟩

omit [DecidableEq κ] in
theorem newPair_shaped : (newPair ring : Connection φ κ).Within (·.Shaped isSeqpacket) := by
  intro side
  refine ⟨⟨[], []⟩, newPair_carries side, ?_⟩
  cases isSeqpacket <;> simp [Strand.Shaped]

section Within

variable {good : Strand φ κ → Prop} (within : connection.Within good)

include within

omit [DecidableEq κ] in
theorem Within.put {channel : Channel φ κ} {strand : Strand φ κ} (carries : channel.Carries strand)
    (kept : good strand) : (connection.put side channel).Within good := by
  intro other
  by_cases same : other = side
  · subst same
    rw [put_self]
    exact ⟨strand, carries, kept⟩
  · rw [put_other same]
    exact within other

omit [DecidableEq κ] in
theorem Within.shut (isShut : Bool) : (connection.shut side isShut).Within good := by
  unfold Connection.shut
  split
  case isTrue =>
    obtain ⟨strand, carries, kept⟩ := within side
    exact within.put { carries with } kept
  case isFalse => exact within

end Within

theorem tryRead_returned {channel : Channel φ κ} {strand : Strand φ κ} {isPassCred : Bool}
    {behavior : ReceiveBehavior} {writer : UserWriter}
    {outcome : Except Errno (Channel.Delivery φ κ) × Channel φ κ}
    (carries : channel.Carries strand) (shaped : strand.Shaped isSeqpacket)
    (ran : channel.tryRead turns isSeqpacket isPassCred behavior writer = .ok outcome) :
    channel.Returned strand isSeqpacket behavior writer outcome ∧ (channel.isShutdown = false → 0 < writer.avail →
      (outcome.1 = .error .eagain ↔ strand.gap = [] ∧ strand.pieces = [])) := by
  have same : ∀ {other}, channel.tryRead turns isSeqpacket isPassCred behavior writer = .ok other →
    other = outcome :=
    fun again => Except.ok.inj (again.symm.trans ran)
  by_cases enter : 0 < writer.avail ∨ isSeqpacket = true
  · by_cases plain : strand.pieces = []
    · obtain ⟨other, again, returned, failed⟩ := carries.tryRead_plain shaped plain enter turns isPassCred behavior
      obtain rfl := same again
      refine ⟨returned, fun runs room => ?_⟩
      rw [failed, runs, UserWriter.readWith_eagain_iff room, and_iff_left plain]
    · have marked : ¬(strand.gap = [] ∧ strand.pieces = []) := fun none => plain none.2
      cases isSeqpacket with
      | true =>
        cases turns with
        | zero =>
          rw [carries.tryRead_marked plain enter] at ran
          cases ran
        | succ turns =>
          obtain ⟨other, again, returned, failed⟩ :=
            carries.tryRead_packet shaped plain turns isPassCred behavior writer
          obtain rfl := same again
          exact ⟨returned, fun _ _ => iff_of_false failed marked⟩
      | false =>
        have room : 0 < writer.avail := by simpa using enter
        have filled : (writer.avail == 0) = false := by simp; omega
        have entered := ran
        rw [carries.tryRead_marked plain enter, filled] at entered
        obtain ⟨result, received, _⟩ := bind_eq_ok.mp entered
        obtain ⟨other, again, returned, failed⟩ := carries.tryRead_stream shaped plain room received behavior
        obtain rfl := same again
        refine ⟨returned, fun runs _ => iff_of_false (fun eagain => ?_) marked⟩
        exact carries.start.receive_ne_eagain shaped runs (.inr ⟨room, shaped.unread plain⟩)
          (failed _ eagain ▸ received)
  · obtain ⟨empty, stream⟩ := not_or.mp enter
    obtain rfl : isSeqpacket = false := by simpa using stream
    have full : writer.avail = 0 := by omega
    obtain ⟨other, again, returned⟩ := carries.tryRead_empty full turns isPassCred behavior
    obtain rfl := same again
    exact ⟨returned, fun _ room => absurd room empty⟩

/-- A call keeps what neither writing nor taking loses. -/
theorem Within.perform {good : Strand φ κ → Prop} (within : connection.Within good)
    (shapes : ∀ {strand}, good strand → strand.Shaped isSeqpacket)
    (writes : ∀ {reader auxData current strand result next}, call = .write reader auxData current →
      Channel.Wrote strand isSeqpacket reader.data auxData.files result next → good strand → good next)
    (reads : ∀ {isShutdown strand count len last rest},
      Takes isShutdown strand.gap strand.pieces count len last rest → good strand → good rest)
    (returns : connection.perform bufSize isSeqpacket turns side call = .ok (response, after)) :
    after.Within good := by
  cases call with
  | write reader auxData current =>
    obtain ⟨strand, carries, kept⟩ := within side
    obtain ⟨result, left, channel, next, ran, wrote, carried, _⟩ := carries.tryWrite
    rw [Connection.perform, ran] at returns
    obtain ⟨_, rfl⟩ := Prod.mk.inj (Except.ok.inj returns)
    exact within.put carried (writes rfl wrote kept)
  | read behavior writer =>
    obtain ⟨strand, carries, kept⟩ := within side.peer
    rw [Connection.perform] at returns
    obtain ⟨⟨result, channel⟩, ran, returns⟩ := bind_eq_ok.mp returns
    obtain ⟨_, rfl⟩ := Prod.mk.inj (Except.ok.inj returns)
    have returned := (tryRead_returned carries (shapes kept) ran).1
    cases result with
    | error errno =>
      obtain rfl : channel = connection.channel side.peer := returned
      exact within.put carries kept
    | ok delivery =>
      obtain ⟨⟨count, len, last, rest, takes, _, _, _, recv⟩, peek⟩ := returned
      cases behavior with
      | recv => exact within.put (recv rfl).1 (reads takes kept)
      | peek =>
        obtain rfl := peek rfl
        exact within.put carries kept
  | setPassCred isPassCred =>
    obtain ⟨_, rfl⟩ := Prod.mk.inj (Except.ok.inj returns)
    exact within
  | shutdown shutRead shutWrite =>
    obtain ⟨_, rfl⟩ := Prod.mk.inj (Except.ok.inj returns)
    exact (within.shut shutRead).shut shutWrite
  | close =>
    obtain ⟨_, rfl⟩ := Prod.mk.inj (Except.ok.inj returns)
    exact (within.shut true).shut true

theorem Reaches.shaped (reaches : Reaches bufSize isSeqpacket ring connection) :
    connection.Within (·.Shaped isSeqpacket) := by
  induction reaches with
  | new => exact newPair_shaped
  | call _ returns ih => exact ih.perform id (fun _ => Channel.Wrote.shaped) Takes.shaped returns

/-- Exactly when a read of a reachable state returns. -/
theorem read_returns_iff (reaches : Reaches bufSize isSeqpacket ring connection) (side : Side)
    (behavior : ReceiveBehavior) (writer : UserWriter) :
    (∃ turns outcome, connection.perform bufSize isSeqpacket turns side (.read behavior writer) = .ok outcome) ↔
      ¬(connection.channel side.peer).Stuck isSeqpacket (connection.isPassCred side) writer := by
  obtain ⟨strand, carries, shaped⟩ := reaches.shaped side.peer
  constructor
  · rintro ⟨turns, outcome, returns⟩ stuck
    rw [Connection.perform, carries.tryRead_stuck shaped stuck] at returns
    cases returns
  · intro free
    obtain ⟨turns, outcome, ran⟩ := carries.tryRead_returns shaped free behavior
    refine ⟨turns, (.delivered outcome.1, connection.put side.peer outcome.2), ?_⟩
    rw [Connection.perform, ran]
    rfl

/-- A run of calls, with a ledger beside the connection. -/
def run {σ : Type} (note : σ → Side → Call φ κ → Response φ κ → σ) (bufSize : Nat)
    (isSeqpacket : Bool) (turns : Nat) :
    Connection φ κ × σ → List (Side × Call φ κ) → Checked (Connection φ κ × σ) :=
  runAll fun state call => do
    let (response, after) ← state.1.perform bufSize isSeqpacket turns call.1 call.2
    return (after, note state.2 call.1 call.2 response)

theorem Reaches.run {σ : Type} {note : σ → Side → Call φ κ → Response φ κ → σ} {ledger : σ}
    {calls : List (Side × Call φ κ)} {state : Connection φ κ × σ}
    (reaches : Reaches bufSize isSeqpacket ring connection)
    (ran : run note bufSize isSeqpacket turns (connection, ledger) calls = .ok state) :
    Reaches bufSize isSeqpacket ring state.1 := by
  refine runAll_preserves (fun state => Reaches bufSize isSeqpacket ring state.1) ?_ reaches ran
  intro before call next reaches stepped
  obtain ⟨_, returns, same⟩ := bind_eq_ok.mp stepped
  cases same
  exact reaches.call returns

def freshRing : RingBuffer UInt8 where
  segment := replicate 65536 0
  capacity := 65536
  tail := 0
  head := 0
  powerOfTwo := ⟨16, by decide, rfl⟩
  filled := length_replicate

def lastByte : List (Side × Call Unit Nat) :=
  [(.client, .setPassCred true), (.client, .write ⟨[1], none⟩ .empty 7), (.client, .setPassCred false),
    (.client, .shutdown false true)]

def afterCalls (calls : List (Side × Call Unit Nat)) : Checked (Connection Unit Nat × Unit) :=
  run (fun _ _ _ _ => ()) 65536 false 1 (newPair freshRing, ()) calls

/-- A read with more room than that one byte does not return. -/
theorem lastByte_hangs : ∃ connection, afterCalls lastByte = .ok (connection, ()) ∧
    Reaches 65536 false freshRing connection ∧
    ∀ turns, connection.perform 65536 false turns .server (.read .recv ⟨2, none, []⟩) = .error .hang := by
  have seen : (afterCalls lastByte).map (fun (connection, _) =>
      ((connection.channel .client).allAux, (connection.channel .client).isShutdown,
        (connection.channel .client).ring.len, connection.isPassCred .server)) =
      .ok ([⟨⟨[], some 7⟩, 0, 1⟩], true, 1, false) := by decide +kernel
  cases ran : afterCalls lastByte with
  | error panic =>
    rw [ran] at seen
    cases seen
  | ok state =>
    obtain ⟨connection, _⟩ := state
    rw [ran] at seen
    obtain ⟨allAux, shut, len, pass⟩ : (connection.channel .client).allAux = [⟨⟨[], some 7⟩, 0, 1⟩] ∧
        (connection.channel .client).isShutdown = true ∧ (connection.channel .client).ring.len = 1 ∧
        connection.isPassCred .server = false := by simpa [Except.map] using seen
    have reaches : Reaches 65536 false freshRing connection := Reaches.new.run ran
    obtain ⟨strand, carries, shaped⟩ := reaches.shaped Side.server.peer
    refine ⟨connection, rfl, reaches, fun turns => ?_⟩
    have stuck : (connection.channel Side.server.peer).Stuck false (connection.isPassCred .server) ⟨2, none, []⟩ :=
      ⟨rfl, by decide, by simp [Side.peer, allAux], shut, by simp [Side.peer, len], rfl,
        by simp [Side.peer, allAux, pass, isSubsetOf]⟩
    rw [Connection.perform, carries.tryRead_stuck shaped stuck]
    rfl

/-- A read with room for that byte alone returns. -/
theorem lastByte_returns : ∃ connection : Connection Unit Nat, Reaches 65536 false freshRing connection ∧
    (∃ turns outcome, connection.perform 65536 false turns .server (.read .recv ⟨1, none, []⟩) = .ok outcome) ∧
    (connection.channel .client).ring.len = 1 := by
  have seen : (afterCalls (lastByte.take 3)).map (fun (connection, _) =>
      ((connection.channel .client).isShutdown, (connection.channel .client).ring.len)) =
      .ok (false, 1) := by decide +kernel
  cases ran : afterCalls (lastByte.take 3) with
  | error panic =>
    rw [ran] at seen
    cases seen
  | ok state =>
    obtain ⟨connection, _⟩ := state
    rw [ran] at seen
    obtain ⟨shut, len⟩ : (connection.channel .client).isShutdown = false ∧
        (connection.channel .client).ring.len = 1 := by simpa [Except.map] using seen
    have reaches : Reaches 65536 false freshRing connection := Reaches.new.run ran
    refine ⟨connection, reaches,
      (read_returns_iff reaches .server .recv ⟨1, none, []⟩).mpr fun stuck => ?_, len⟩
    have other : (connection.channel .client).isShutdown = true := stuck.shut
    rw [shut] at other
    cases other

end Connection

end Kei.Unix
