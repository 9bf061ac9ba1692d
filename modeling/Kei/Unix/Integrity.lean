import Kei.Unix.Deliveries
import Kei.Unix.Termination

/-! Writes and reads of an open connection: what is read is what was written, and the files of a
write arrive with its first byte. -/

namespace Kei.Unix

open Library Checked Kei.Spsc Connection Piece Function
open List hiding all

variable {φ κ : Type}

def messages (gap : List UInt8) : List (Piece φ κ) → List (Message φ)
  | [] => [⟨gap, []⟩]
  | piece :: pieces => ⟨gap, []⟩ :: ⟨piece.bytes, piece.data.files⟩ :: messages piece.after pieces

theorem flatten_messages (gap : List UInt8) (pieces : List (Piece φ κ)) :
    ((messages gap pieces).map (·.bytes)).flatten = gap ++ pieces.flatMap all := by
  induction pieces generalizing gap with
  | nil => rfl
  | cons piece pieces ih =>
    rw [messages, map_cons, map_cons, flatten_cons, flatten_cons, ih, flatMap_cons,
      all, append_assoc]

theorem messages_concat (gap : List UInt8) (pieces : List (Piece φ κ)) (data : AuxiliaryData φ κ)
    (bytes : List UInt8) :
    messages gap (pieces ++ [⟨data, bytes, []⟩]) =
      messages gap pieces ++ [⟨bytes, data.files⟩, ⟨[], []⟩] := by
  induction pieces generalizing gap with
  | nil => rfl
  | cons piece pieces ih => rw [cons_append, messages, ih, messages, cons_append, cons_append]

theorem marks_messages_nil (position : Nat) (gap : List UInt8) :
    marks position (messages gap ([] : List (Piece φ κ))) = [] :=
  marks_cons_bare (.inr rfl) position []

theorem marks_messages_cons (position : Nat) (gap : List UInt8) (piece : Piece φ κ) (pieces : List (Piece φ κ)) :
    marks position (messages gap (piece :: pieces)) =
      marks (position + gap.length) (⟨piece.bytes, piece.data.files⟩ :: messages piece.after pieces) :=
  marks_cons_bare (.inr rfl) position _

theorem marks_drop (position : Nat) {gap : List UInt8} {len : Nat} (inside : len ≤ gap.length)
    (pieces : List (Piece φ κ)) :
    marks (position + len) (messages (gap.drop len) pieces) = marks position (messages gap pieces) := by
  have sum : position + len + (gap.drop len).length = position + gap.length := by
    rw [length_drop]
    omega
  cases pieces with
  | nil => rw [marks_messages_nil, marks_messages_nil]
  | cons piece pieces => rw [marks_messages_cons, marks_messages_cons, sum]

theorem marks_addAfter (position : Nat) (gap bytes : List UInt8) (pieces : List (Piece φ κ)) :
    marks position (messages gap (addAfter bytes pieces)) = marks position (messages gap pieces) := by
  fun_induction addAfter bytes pieces generalizing position gap with
  | case1 => rfl
  | case2 piece =>
    rw [marks_messages_cons, marks_messages_cons, marks, marks, marks_messages_nil, marks_messages_nil]
  | case3 piece next rest ih => rw [marks_messages_cons, marks_messages_cons, marks, marks, ih]

theorem Strand.marks_addPlain (strand : Strand φ κ) (bytes : List UInt8) (position : Nat) :
    marks position (messages (strand.addPlain bytes).gap (strand.addPlain bytes).pieces) =
      marks position (messages strand.gap strand.pieces) := by
  unfold addPlain
  split
  case isTrue none =>
    have none : strand.pieces = [] := by simpa using none
    rw [none, marks_messages_nil, marks_messages_nil]
  case isFalse => exact marks_addAfter position strand.gap bytes strand.pieces

theorem Strand.marks_addPiece (strand : Strand φ κ) (data : AuxiliaryData φ κ) (bytes : List UInt8)
    (position : Nat) :
    marks position (messages (strand.addPiece data bytes).gap (strand.addPiece data bytes).pieces) =
      marks position (messages strand.gap strand.pieces) ++
        marks (position + strand.bytes.length) [⟨bytes, data.files⟩] := by
  have bare : ∀ start, marks start [(⟨[], []⟩ : Message φ)] = [] :=
    fun start => marks_cons_bare (.inl rfl) start []
  have last : marks (position + strand.bytes.length) [⟨bytes, data.files⟩, ⟨[], []⟩] =
      marks (position + strand.bytes.length) [⟨bytes, data.files⟩] :=
    (marks_append _ [⟨bytes, data.files⟩] [⟨[], []⟩]).trans (by rw [bare, append_nil])
  rw [addPiece, messages_concat, marks_append, flatten_messages, ← last]
  rfl

variable {last : Option (AuxiliaryData φ κ)} {pieces : List (Piece φ κ)}

theorem Takes.marks {gap : List UInt8} {count len : Nat} {rest : Strand φ κ}
    (takes : Takes false gap pieces count len last rest)
    (shaped : ∀ piece ∈ pieces, piece.bytes ≠ []) (position : Nat) :
    ∃ taken, marks position (messages gap pieces) = taken ++ marks (position + len)
      (messages rest.gap rest.pieces) ∧
      Delivers position (position + len) (last.getD .empty).files taken := by
  induction takes generalizing position with
  | gap inside => exact ⟨[], (marks_drop position inside _).symm, .inl ⟨rfl, rfl⟩⟩
  | @part gap piece pieces len inside began =>
    have filled := shaped piece mem_cons_self
    have some : 0 < len := began.resolve_right (by simp)
    have sum : position + (gap.length + len) + (piece.bytes.drop len).length =
        position + gap.length + piece.bytes.length := by
      rw [length_drop]
      omega
    have left : Kei.Unix.marks (position + (gap.length + len))
        (messages [] (⟨{ piece.data with files := [] }, piece.bytes.drop len, piece.after⟩ :: pieces)) =
        Kei.Unix.marks (position + gap.length + piece.bytes.length) (messages piece.after pieces) := by
      rw [marks_messages_cons, marks_cons_bare (.inr rfl), length_nil, Nat.add_zero, sum]
    rw [marks_messages_cons, left]
    by_cases files : piece.data.files = []
    · rw [marks_cons_bare (.inr files)]
      exact ⟨[], rfl, .inl ⟨rfl, files⟩⟩
    · rw [marks_cons_files filled files]
      exact ⟨[_], rfl, .inr ⟨_, rfl, files, Nat.le_add_right _ _, by omega⟩⟩
  | @whole gap piece pieces =>
    have filled := shaped piece mem_cons_self
    have some := length_pos_iff.mpr filled
    rw [marks_messages_cons, ← Nat.add_assoc]
    by_cases files : piece.data.files = []
    · rw [marks_cons_bare (.inr files)]
      exact ⟨[], rfl, .inl ⟨rfl, files⟩⟩
    · rw [marks_cons_files filled files]
      exact ⟨[_], rfl, .inr ⟨_, rfl, files, Nat.le_add_right _ _, by omega⟩⟩
  | @next gap piece pieces count len last rest quiet takes ih =>
    obtain ⟨taken, split, delivers⟩ := ih (fun other member => shaped other (mem_cons_of_mem _ member))
      (position + gap.length + piece.bytes.length)
    have same : ((last.or (some piece.data)).getD .empty).files = (last.getD .empty).files := by
      cases last with
      | none => exact quiet
      | some data => rfl
    have sum : position + (gap.length + (piece.bytes.length + len)) =
        position + gap.length + piece.bytes.length + len := by omega
    refine ⟨taken, ?_, ?_⟩
    · rw [marks_messages_cons, marks_cons_bare (.inr quiet), split, sum]
    · rw [same, sum]
      rcases delivers with none | ⟨start, own, files, low, high⟩
      · exact .inl none
      · exact .inr ⟨start, own, files, by omega, high⟩

theorem Takes.left_of_one {isShutdown : Bool} {piece : Piece φ κ} {count len : Nat} {rest : Strand φ κ}
    (takes : Takes isShutdown [] (piece :: pieces) count len last rest) (one : count = 1)
    (all : len = piece.bytes.length) : rest.pieces = pieces := by
  cases takes with
  | gap => cases one
  | part inside =>
    rw [length_nil, Nat.zero_add] at all
    omega
  | whole => rfl
  | next quiet takes =>
    obtain rfl := Nat.succ.inj one
    cases takes with
    | gap => rfl

theorem place_ranges (base : BitVec 64) (skip : Nat) (gap : List UInt8) (pieces : List (Piece φ κ))
    (small : skip + (gap ++ pieces.flatMap all).length < 2 ^ 64) :
    (∀ aux ∈ place (base + BitVec.ofNat 64 skip) gap pieces, skip ≤ (aux.start - base).toNat ∧
      (aux.start - base).toNat ≤ (aux.stop - base).toNat ∧
      (aux.stop - base).toNat ≤ skip + (gap ++ pieces.flatMap all).length) ∧
    (place (base + BitVec.ofNat 64 skip) gap pieces).Pairwise
      (fun first second => (first.stop - base).toNat ≤ (second.start - base).toNat) := by
  induction pieces generalizing skip gap with
  | nil => exact ⟨forall_mem_nil _, List.Pairwise.nil⟩
  | cons piece pieces ih =>
    have sum : (gap ++ (piece :: pieces).flatMap all).length =
        gap.length + piece.bytes.length + (piece.after ++ pieces.flatMap all).length := by
      simp only [flatMap_cons, all, length_append]
      omega
    obtain ⟨inside, sorted⟩ := ih (skip + gap.length + piece.bytes.length) piece.after (by omega)
    have start := toNat_add_sub base (skip + gap.length) (by omega)
    have stop := toNat_add_sub base (skip + gap.length + piece.bytes.length) (by omega)
    rw [place, add_ofNat, add_ofNat, sum]
    constructor
    · intro aux member
      rcases mem_cons.mp member with rfl | later
      · rw [start, stop]
        omega
      · have := inside aux later
        omega
    · refine pairwise_cons.mpr ⟨fun aux later => ?_, sorted⟩
      rw [stop]
      exact (inside aux later).1

namespace History

def send (history : History φ) (message : Message φ) : History φ :=
  { history with accepted := history.accepted ++ [message] }

def get (history : History φ) (receipt : Receipt φ) : History φ :=
  { history with received := history.received ++ [receipt] }

/-- A write that has returned; an accepted one may have got a part of its bytes through. -/
def sent (history : History φ) (data : List UInt8) (files : List φ) : Except Errno Nat → History φ
  | .ok len => history.send ⟨data.take len, files⟩
  | .error _ => history

end History

def Strand.Follows (strand : Strand φ κ) (history : History φ) : Bool → Prop
  | false => history.written.flatten = history.taken.flatten ++ strand.bytes ∧
    Served 0 history.received (marks 0 history.accepted)
      (marks history.taken.flatten.length (messages strand.gap strand.pieces))
  | true => history.received.length ≤ history.accepted.length ∧
    strand.pieces.map (fun piece => (⟨piece.bytes, piece.data.files⟩ : Message φ)) =
      history.accepted.drop history.received.length ∧
    ∀ (read : Nat) (receipt : Receipt φ), history.received[read]? = some receipt →
      ∃ message, history.accepted[read]? = some message ∧ receipt.bytes = message.bytes.take receipt.avail ∧
        receipt.files = message.files

namespace Strand.Follows

variable {strand rest : Strand φ κ} {history : History φ} {isSeqpacket : Bool}

theorem send_stream (follows : strand.Follows history false) {next : Strand φ κ} (message : Message φ)
    (bytes : next.bytes = strand.bytes ++ message.bytes)
    (same : ∀ position, marks position (messages next.gap next.pieces) =
      marks position (messages strand.gap strand.pieces) ++ marks (position + strand.bytes.length) [message]) :
    next.Follows (history.send message) false := by
  obtain ⟨all, served⟩ := follows
  have grown : (history.send message).written.flatten = history.written.flatten ++ message.bytes := by
    simp [History.written, History.send]
  refine ⟨?_, ?_⟩
  · rw [grown, all, bytes, append_assoc]
    rfl
  · have position : 0 + (history.accepted.map (·.bytes)).flatten.length =
        history.taken.flatten.length + strand.bytes.length := by
      rw [Nat.zero_add, ← length_append, ← all]
      rfl
    have more := served.more (marks (history.taken.flatten.length + strand.bytes.length) [message])
    rw [← same, ← position, ← marks_append] at more
    exact more

theorem send_packet (follows : strand.Follows history true) (data : AuxiliaryData φ κ) (bytes : List UInt8) :
    (strand.addPiece data bytes).Follows (history.send ⟨bytes, data.files⟩) true := by
  obtain ⟨count, unread, reads⟩ := follows
  refine ⟨?_, ?_, ?_⟩
  · exact count.trans (by simp [History.send])
  · rw [Strand.addPiece, map_append, unread]
    exact (drop_append_of_le_length count).symm
  · intro read receipt received
    obtain ⟨message, accepted, same⟩ := reads read receipt received
    obtain ⟨bound, _⟩ := List.getElem?_eq_some_iff.mp accepted
    exact ⟨message, (getElem?_append_left bound).trans accepted, same⟩

theorem wrote (follows : strand.Follows history isSeqpacket) {data : List UInt8} {files : List φ}
    {result : Except Errno Nat} {next : Strand φ κ}
    (wrote : Channel.Wrote strand isSeqpacket data files result next) :
    next.Follows (history.sent data files result) isSeqpacket := by
  cases wrote with
  | failed errno => exact follows
  | empty stream none =>
    subst stream none
    refine follows.send_stream ⟨_, files⟩ (append_nil _).symm fun position => ?_
    rw [marks_cons_bare (.inl rfl), marks, append_nil]
  | @plain len stream positive bound none =>
    subst stream none
    refine follows.send_stream ⟨data.take len, []⟩ (strand.bytes_addPlain _) fun position => ?_
    rw [strand.marks_addPlain, marks_cons_bare (.inr rfl), marks, append_nil]
  | @marked len aux positive bound whole own =>
    subst own
    cases isSeqpacket with
    | false =>
      exact follows.send_stream ⟨data.take len, aux.files⟩ (strand.bytes_addPiece aux _)
        (strand.marks_addPiece aux _)
    | true => exact follows.send_packet aux _

theorem read_stream (follows : strand.Follows history false) (shaped : strand.Shaped false) {count len : Nat}
    {last : Option (AuxiliaryData φ κ)} (takes : Takes false strand.gap strand.pieces count len last rest)
    (avail : Nat) :
    rest.Follows (history.get ⟨avail, strand.bytes.take len, (last.getD .empty).files⟩) false := by
  obtain ⟨all, served⟩ := follows
  have grown : (history.get ⟨avail, strand.bytes.take len, (last.getD .empty).files⟩).taken.flatten =
      history.taken.flatten ++ strand.bytes.take len := by
    simp [History.taken, History.get]
  have length : (strand.bytes.take len).length = len := length_take_of_le takes.len_le
  refine ⟨?_, ?_⟩
  · rw [grown, append_assoc, takes.bytes_eq]
    exact all.trans (by rw [← Strand.bytes, take_append_drop])
  · obtain ⟨taken, split, delivers⟩ := takes.marks shaped history.taken.flatten.length
    rw [grown, length_append, length]
    rw [split] at served
    refine served.concat ?_
    rw [Nat.zero_add]
    dsimp only
    rw [length]
    exact delivers

theorem read_packet (follows : strand.Follows history true) {piece : Piece φ κ} {pieces : List (Piece φ κ)}
    (first : strand.pieces = piece :: pieces) (left : rest.pieces = pieces) (avail : Nat) :
    rest.Follows (history.get ⟨avail, piece.bytes.take avail, piece.data.files⟩) true := by
  obtain ⟨count, unread, reads⟩ := follows
  rw [first, map_cons] at unread
  have bound : history.received.length < history.accepted.length := by
    by_contra beyond
    rw [drop_eq_nil_of_le (Nat.le_of_not_lt beyond)] at unread
    cases unread
  rw [drop_eq_getElem_cons bound] at unread
  obtain ⟨head, tail⟩ := cons.inj unread
  refine ⟨?_, ?_, ?_⟩
  · rw [History.get, length_append]
    exact bound
  · rw [left, tail, History.get, length_append]
    rfl
  · intro read receipt received
    rcases Nat.lt_or_ge read history.received.length with before | last
    · exact reads read receipt ((getElem?_append_left before).symm.trans received)
    · rw [History.get, getElem?_append_right last] at received
      obtain ⟨index, same⟩ := List.getElem?_eq_some_iff.mp received
      obtain rfl : read = history.received.length := by
        rw [length_singleton] at index
        omega
      rw [Nat.sub_self, getElem?_cons_zero] at received
      obtain rfl := Option.some.inj received
      refine ⟨history.accepted[history.received.length], getElem?_eq_getElem bound, ?_⟩
      rw [← head]
      exact ⟨rfl, rfl⟩

theorem streams (follows : strand.Follows history false) : history.Streams strand.bytes :=
  follows.2.streams follows.1 fun _ member => le_of_mem_marks member

theorem packets (follows : strand.Follows history true) (shaped : strand.Shaped true) :
    history.Packets strand.bytes := by
  obtain ⟨count, unread, reads⟩ := follows
  refine ⟨count, ?_, reads⟩
  have own : strand.pieces.flatMap all = (strand.pieces.map (·.bytes)).flatten := by
    rw [← flatMap_def]
    refine flatMap_congr fun piece member => ?_
    rw [all, shaped.2 piece member, append_nil]
  have same : strand.pieces.map (·.bytes) = history.written.drop history.received.length := by
    rw [History.written, ← map_drop, ← unread, map_map]
    rfl
  rw [Strand.bytes, shaped.1, nil_append, own, same]

end Strand.Follows

structure Channel.Ranged (channel : Channel φ κ) : Prop where
  inside :
    ∀ aux ∈ channel.allAux, (aux.start - channel.ring.head).toNat ≤ (aux.stop - channel.ring.head).toNat ∧
    (aux.stop - channel.ring.head).toNat ≤ channel.ring.len
  sorted : channel.allAux.Pairwise fun first second =>
    (first.stop - channel.ring.head).toNat ≤ (second.start - channel.ring.head).toNat

theorem Channel.Carries.ranged {channel : Channel φ κ} {strand : Strand φ κ} (carries : channel.Carries strand) :
    channel.Ranged := by
  have zero : channel.ring.head + BitVec.ofNat 64 0 = channel.ring.head := BitVec.add_zero _
  obtain ⟨inside, sorted⟩ := place_ranges channel.ring.head 0 strand.gap strand.pieces (by
    rw [Nat.zero_add]
    exact carries.small)
  rw [zero, ← carries.allAux, Nat.zero_add] at inside
  rw [zero, ← carries.allAux] at sorted
  refine ⟨fun aux member => ⟨(inside aux member).2.1, ?_⟩, sorted⟩
  rw [carries.holds.len]
  exact (inside aux member).2.2

structure Channel.Intact (channel : Channel φ κ) (isSeqpacket : Bool) (history : History φ) : Prop where
  data : ∃ unread, Holds channel.ring unread ∧
    if isSeqpacket then history.Packets unread else history.Streams unread
  ranged : channel.Ranged

def Call.keepsOpen : Call φ κ → Bool
  | .write .. | .read .. | .setPassCred _ => true
  | .shutdown .. | .close => false

namespace Connection

variable {connection after : Connection φ κ} {bufSize turns : Nat} {isSeqpacket : Bool} {ring : RingBuffer UInt8}
  {side : Side} {call : Call φ κ} {response : Response φ κ} {histories : Side → History φ}

/-- What a call adds to the history of a direction, which is that of the writing side. A peek and
a call that has failed add nothing. -/
def record (histories : Side → History φ) (side : Side) : Call φ κ → Response φ κ → Side → History φ
  | .write reader auxData _, .written result =>
    update histories side ((histories side).sent reader.data auxData.files result)
  | .read .recv writer, .delivered (.ok delivery) =>
    update histories side.peer ((histories side.peer).get ⟨writer.avail,
      (delivery.writer.copied.drop writer.copied.length).take delivery.len, filesOf delivery.ctrlMsgs⟩)
  | _, _ => histories

theorem put_same (connection : Connection φ κ) (side : Side) :
    connection.put side (connection.channel side) = connection := by
  rw [put, update_eq_self]

def Tracks (isSeqpacket : Bool) (connection : Connection φ κ) (histories : Side → History φ) : Prop :=
  ∀ side, (connection.channel side).isShutdown = false ∧ ∃ strand, (connection.channel side).Carries strand ∧
    strand.Shaped isSeqpacket ∧ strand.Follows (histories side) isSeqpacket

theorem newPair_tracks : Tracks isSeqpacket (newPair ring : Connection φ κ) fun _ => ⟨[], []⟩ := by
  intro side
  refine ⟨rfl, ⟨[], []⟩, newPair_carries side, ?_⟩
  cases isSeqpacket with
  | false => exact ⟨forall_mem_nil _, rfl, .done⟩
  | true => exact ⟨⟨rfl, forall_mem_nil _⟩, Nat.le_refl _, rfl, fun _ _ found => by cases found⟩

variable {channel : Channel φ κ}

theorem Tracks.put (tracks : Tracks isSeqpacket connection histories) {strand : Strand φ κ}
    {history : History φ} (runs : channel.isShutdown = false) (carries : channel.Carries strand)
    (shaped : strand.Shaped isSeqpacket) (follows : strand.Follows history isSeqpacket) :
    Tracks isSeqpacket (connection.put side channel) (update histories side history) := by
  intro other
  by_cases same : other = side
  · subst same
    rw [put_self, update_self]
    exact ⟨runs, strand, carries, shaped, follows⟩
  · rw [put_other same, update_of_ne same]
    exact tracks other

theorem Tracks.receive (tracks : Tracks isSeqpacket connection histories) {strand : Strand φ κ}
    (shaped : strand.Shaped isSeqpacket)
    (follows : strand.Follows (histories side) isSeqpacket) {writer : UserWriter}
    {delivery : Channel.Delivery φ κ}
    (reads : Reads (connection.channel side) strand isSeqpacket .recv writer delivery channel) :
    Tracks isSeqpacket (connection.put side channel) (update histories side ((histories side).get
      ⟨writer.avail, (delivery.writer.copied.drop writer.copied.length).take delivery.len,
        filesOf delivery.ctrlMsgs⟩)) := by
  obtain ⟨⟨count, len, last, rest, takes, files, ⟨extra, copied⟩, amount, recv⟩, _⟩ := reads
  obtain ⟨carried, kept⟩ := recv rfl
  have runs := (tracks side).1
  rw [runs] at takes kept
  have bytes : delivery.len ≤ strand.bytes.length →
      (delivery.writer.copied.drop writer.copied.length).take delivery.len = strand.bytes.take delivery.len := by
    intro enough
    rw [copied, append_assoc, drop_left, take_append_of_le_length
      (by rw [length_take]; omega), take_take, Nat.min_self]
  refine tracks.put kept carried (takes.shaped shaped) ?_
  cases isSeqpacket with
  | false =>
    obtain rfl : delivery.len = len := amount
    rw [bytes takes.len_le, files]
    exact follows.read_stream shaped takes writer.avail
  | true =>
    rcases amount with ⟨closed, _⟩ | ⟨piece, pieces, first, rfl, rfl, rfl, least⟩
    · rw [runs] at closed
      cases closed
    · have whole : strand.bytes = piece.bytes ++ (piece.after ++ pieces.flatMap all) := by
        rw [Strand.bytes, shaped.1, first, nil_append, flatMap_cons, all, append_assoc]
      have short : delivery.len ≤ piece.bytes.length := by omega
      have fits : strand.bytes.take delivery.len = piece.bytes.take writer.avail := by
        rw [whole, take_append_of_le_length short, least, take_eq_take_iff]
        omega
      have left : rest.pieces = pieces := by
        rw [shaped.1, first] at takes
        exact takes.left_of_one rfl rfl
      rw [bytes (by rw [whole, length_append]; omega), fits, files]
      exact follows.read_packet first left writer.avail

variable [DecidableEq κ]

/-- The states of an open pair, with what was written to it and read from it so far. -/
inductive Talks (bufSize : Nat) (isSeqpacket : Bool) (ring : RingBuffer UInt8) :
    Connection φ κ → (Side → History φ) → Prop
  | new : Talks bufSize isSeqpacket ring (newPair ring) fun _ => ⟨[], []⟩
  | call {connection after : Connection φ κ} {histories : Side → History φ} {turns : Nat} {side : Side}
    {call : Call φ κ} {response : Response φ κ} (talks : Talks bufSize isSeqpacket ring connection histories)
    (keeps : call.keepsOpen = true)
    (returns : connection.perform bufSize isSeqpacket turns side call = .ok (response, after)) :
    Talks bufSize isSeqpacket ring after (record histories side call response)

theorem Tracks.perform (tracks : Tracks isSeqpacket connection histories) (keeps : call.keepsOpen = true)
    (returns : connection.perform bufSize isSeqpacket turns side call = .ok (response, after)) :
    Tracks isSeqpacket after (record histories side call response) := by
  cases call with
  | write reader auxData current =>
    obtain ⟨runs, strand, carries, shaped, follows⟩ := tracks side
    obtain ⟨result, left, channel, next, ran, wrote, carried, kept⟩ := carries.tryWrite
    rw [perform, ran] at returns
    obtain ⟨rfl, rfl⟩ := Prod.mk.inj (Except.ok.inj returns)
    exact tracks.put (kept.trans runs) carried (wrote.shaped shaped) (follows.wrote wrote)
  | read behavior writer =>
    obtain ⟨_, strand, carries, shaped, follows⟩ := tracks side.peer
    rw [perform] at returns
    obtain ⟨⟨result, channel⟩, ran, returns⟩ := bind_eq_ok.mp returns
    obtain ⟨rfl, rfl⟩ := Prod.mk.inj (Except.ok.inj returns)
    have returned := (tryRead_returned carries shaped ran).1
    cases result with
    | error errno =>
      obtain rfl : channel = connection.channel side.peer := returned
      rw [put_same]
      cases behavior <;> exact tracks
    | ok delivery =>
      cases behavior with
      | recv => exact tracks.receive shaped follows returned
      | peek =>
        obtain rfl : channel = connection.channel side.peer := returned.peek rfl
        rw [put_same]
        exact tracks
  | setPassCred isPassCred =>
    obtain ⟨rfl, rfl⟩ := Prod.mk.inj (Except.ok.inj returns)
    exact tracks
  | shutdown => cases keeps
  | close => cases keeps

theorem Talks.tracks (talks : Talks bufSize isSeqpacket ring connection histories) :
    Tracks isSeqpacket connection histories := by
  induction talks with
  | new => exact newPair_tracks
  | call _ keeps returns ih => exact ih.perform keeps returns

/-- Both directions of an open pair are intact after any calls, and a read that fails or peeks
leaves the pair as it was. -/
theorem talks_intact (talks : Talks bufSize isSeqpacket ring connection histories) :
    (∀ side, (connection.channel side).Intact isSeqpacket (histories side)) ∧
    ∀ turns side behavior writer result after,
      connection.perform bufSize isSeqpacket turns side (.read behavior writer) = .ok (.delivered result, after) →
      behavior = .peek ∨ (∃ errno, result = .error errno) → after = connection := by
  have tracks := talks.tracks
  constructor
  · intro side
    obtain ⟨_, strand, carries, shaped, follows⟩ := tracks side
    refine ⟨⟨strand.bytes, carries.holds, ?_⟩, carries.ranged⟩
    cases isSeqpacket with
    | false => exact follows.streams
    | true => exact follows.packets shaped
  · intro turns side behavior writer result after returns idle
    obtain ⟨_, strand, carries, shaped, _⟩ := tracks side.peer
    rw [perform] at returns
    obtain ⟨⟨other, channel⟩, ran, returns⟩ := bind_eq_ok.mp returns
    obtain ⟨same, rfl⟩ := Prod.mk.inj (Except.ok.inj returns)
    obtain rfl : other = result := Response.delivered.inj same
    have returned := (tryRead_returned carries shaped ran).1
    have kept : channel = connection.channel side.peer := by
      cases other with
      | error errno => exact returned
      | ok delivery =>
        rcases idle with peek | ⟨errno, failed⟩
        · exact returned.peek peek
        · cases failed
    rw [kept, put_same]

theorem Talks.run {calls : List (Side × Call φ κ)} {state : Connection φ κ × (Side → History φ)}
    (talks : Talks bufSize isSeqpacket ring connection histories) (keeps : ∀ call ∈ calls, call.2.keepsOpen = true)
    (ran : run record bufSize isSeqpacket turns (connection, histories) calls = .ok state) :
    Talks bufSize isSeqpacket ring state.1 state.2 := by
  refine ensures_iff.mp (meets_foldlM (fun state => Talks bufSize isSeqpacket ring state.1 state.2)
    (fun _ call member talks => ?_) talks) state ran
  exact (ensures_result _).bind fun _ returns => talks.call (keeps call member) returns

def twoFiles : List (Side × Call Nat Nat) :=
  [(.client, .write ⟨[97, 98], none⟩ ⟨[1], none⟩ 7), (.client, .write ⟨[99, 100], none⟩ ⟨[2], none⟩ 7),
    (.server, .read .recv ⟨1, none, []⟩), (.server, .read .recv ⟨10, none, []⟩)]

theorem twoFiles_talks : ∃ (connection : Connection Nat Nat) (histories : Side → History Nat),
    Talks 65536 false freshRing connection histories ∧
    histories .client =
      ⟨[⟨[97, 98], [1]⟩, ⟨[99, 100], [2]⟩], [⟨1, [97], [1]⟩, ⟨10, [98, 99, 100], [2]⟩]⟩ := by
  have seen : (run record 65536 false 4 (newPair freshRing, fun _ => ⟨[], []⟩) twoFiles).map
      (fun state => state.2 .client) =
      .ok ⟨[⟨[97, 98], [1]⟩, ⟨[99, 100], [2]⟩], [⟨1, [97], [1]⟩, ⟨10, [98, 99, 100], [2]⟩]⟩ := by
    decide +kernel
  cases ran : run record 65536 false 4 (newPair freshRing, fun _ => ⟨[], []⟩) twoFiles with
  | error panic =>
    rw [ran] at seen
    cases seen
  | ok state =>
    rw [ran] at seen
    exact ⟨state.1, state.2, Talks.new.run (by decide) ran, Except.ok.inj seen⟩

/-- The second read returns bytes of both writes: the file of the first is gone by then. -/
theorem twoFiles_shared : ∃ (connection : Connection Nat Nat) (histories : Side → History Nat),
    Talks 65536 false freshRing connection histories ∧
    ∃ first second, (histories .client).accepted = [first, second] ∧ first.files ≠ [] ∧ second.files ≠ [] ∧
      (histories .client).Shares 0 1 ∧ (histories .client).Shares 1 1 := by
  obtain ⟨connection, histories, talks, same⟩ := twoFiles_talks
  refine ⟨connection, histories, talks, ?_⟩
  rw [same]
  refine ⟨_, _, rfl, by decide, by decide, ⟨1, ?_, ?_⟩, ⟨2, ?_, ?_⟩⟩
  · exact ⟨by decide, by decide⟩
  · exact ⟨by decide, by decide⟩
  · exact ⟨by decide, by decide⟩
  · exact ⟨by decide, by decide⟩

/-- Each of the two reads has got the file of the write whose first byte it took. -/
theorem twoFiles_intact : ∃ (connection : Connection Nat Nat) (histories : Side → History Nat),
    Talks 65536 false freshRing connection histories ∧
      (connection.channel .client).Intact false (histories .client) ∧
    histories .client =
      ⟨[⟨[97, 98], [1]⟩, ⟨[99, 100], [2]⟩], [⟨1, [97], [1]⟩, ⟨10, [98, 99, 100], [2]⟩]⟩ := by
  obtain ⟨connection, histories, talks, same⟩ := twoFiles_talks
  exact ⟨connection, histories, talks, (talks_intact talks).1 .client, same⟩

end Connection

end Kei.Unix
