import Kei.Unix.Receive

/-! What a whole read and a whole write do to the bytes and the pieces of a channel. -/

namespace Kei.Unix

open Library Checked Kei.Spsc UserWriter List

variable {φ κ : Type}

theorem AuxiliaryData.generateControl_recv (data : AuxiliaryData φ κ) (isPassCred : Bool) :
    (data.generateControl .recv isPassCred).2 = { data with files := [] } := by
  rcases data with ⟨_ | ⟨file, files⟩, cred⟩ <;> rfl

theorem drop_set_self {α : Type} {values : List α} {index : Nat} {old value : α}
    (found : values[index]? = some old) :
    (values.set index value).drop index = value :: values.drop (index + 1) := by
  obtain ⟨bound, _⟩ := List.getElem?_eq_some_iff.mp found
  rw [drop_set, if_neg (Nat.lt_irrefl _), Nat.sub_self, drop_eq_getElem_cons bound, set_cons_zero]

namespace Channel

variable {channel : Channel φ κ} {strand rest : Strand φ κ} {isSeqpacket isShutdown : Bool} {count len : Nat}
  {last : Option (AuxiliaryData φ κ)} {received : Received}

theorem Carries.consume (carries : channel.Carries strand)
    (takes : Takes isShutdown strand.gap strand.pieces count len last rest) :
    ∃ ring, channel.ring.commitRead len = .ok ring ∧ Holds ring rest.bytes ∧
      ring.head = channel.ring.head + BitVec.ofNat 64 len := by
  obtain ⟨ran, holds⟩ := carries.holds.commitRead takes.len_le
  exact ⟨_, ran, takes.bytes_eq ▸ holds, rfl⟩

theorem Carries.small (carries : channel.Carries strand) : strand.bytes.length < 2 ^ 64 :=
  carries.holds.length_le.trans_lt channel.ring.capacity_lt

theorem consumeAux_ok {base : BitVec 64} {aux : RangedAuxiliaryData φ κ} (found : channel.allAux[count]? = some aux)
    (data : AuxiliaryData φ κ) (allAux : List (RangedAuxiliaryData φ κ))
    (same : allAux = if (aux.stop - base).toNat ≤ len then channel.allAux.drop (count + 1)
      else ⟨data, base + BitVec.ofNat 64 len, aux.stop⟩ :: channel.allAux.drop (count + 1)) :
    channel.consumeAux base (count + 1) len { aux with data := data } =
      .ok { channel with allAux := allAux, hasAux := !allAux.isEmpty } := by
  unfold consumeAux
  rw [Nat.add_sub_cancel, drop_set_self found]
  simp only [List.head?_cons, Checked.unwrap, bind_ok, tail_cons, ← same, pure_eq_ok]

theorem Carries.finishRead (carries : channel.Carries strand)
    (takes : Takes isShutdown strand.gap strand.pieces count len last rest) (position : received.auxPos = count)
    (total : received.readTotLen + received.truncLen = len)
    (reached : ∀ aux, 0 < count → channel.allAux[count - 1]? = some aux →
      (aux.start - channel.ring.head).toNat ≤ received.readTotLen)
    (moved : isSeqpacket = true ∨ received.readTotLen ≠ 0) (isPassCred : Bool) (behavior : ReceiveBehavior) :
    ∃ after, channel.finishRead isSeqpacket isPassCred behavior received =
        .ok (.ok ⟨received.readTotLen, ((last.getD .empty).generateControl behavior isPassCred).1, received.writer⟩,
          after) ∧
      (behavior = .recv → after.Carries rest ∧ after.isShutdown = channel.isShutdown) ∧
      (behavior = .peek → after = channel) := by
  obtain ⟨ring, committed, holds, head⟩ := carries.consume takes
  have checked : Checked.assert (isSeqpacket || received.readTotLen != 0) = .ok () := by
    rw [Checked.assert, if_pos (by rcases moved with rfl | moved <;> simp [*])]
  unfold Channel.finishRead
  rw [position, total]
  cases count with
  | zero =>
    obtain ⟨same, rfl⟩ := takes.place_zero channel.ring.head
    cases behavior with
    | recv =>
      refine ⟨{ channel with ring := ring }, ?_, fun _ => ⟨⟨holds, ?_, carries.hasAux⟩, rfl⟩, by simp⟩
      · simp [committed, checked, bind_ok, pure_eq_ok]
      · rw [carries.allAux, ← same, head]
    | peek =>
      refine ⟨channel, ?_, by simp, fun _ => rfl⟩
      simp [checked, bind_ok, pure_eq_ok]
  | succ count =>
    obtain ⟨aux, found, rfl, _, left⟩ := takes.place_succ channel.ring.head carries.small
    rw [← carries.allAux] at found left
    have reached := reached aux (Nat.succ_pos _) found
    have mark : Checked.assert (decide ((aux.start - channel.ring.head).toNat ≤ received.readTotLen)) = .ok () := by
      rw [Checked.assert, if_pos (by simpa using reached)]
    cases behavior with
    | recv =>
      refine ⟨{ channel with
        ring := ring
        allAux := place ring.head rest.gap rest.pieces
        hasAux := !(place ring.head rest.gap rest.pieces).isEmpty }, ?_, fun _ =>
          ⟨⟨holds, rfl, rfl⟩, rfl⟩, by simp⟩
      have consumed := @consumeAux_ok _ _ { channel with ring := ring } count len channel.ring.head aux found
        { aux.data with files := [] } _ ((congrArg (place · rest.gap rest.pieces) head).trans left)
      simp only [if_true, committed, bind_ok, pure_eq_ok, Nat.le_add_left, ge_iff_le, Nat.add_sub_cancel, found,
        Checked.unwrap, mark, AuxiliaryData.generateControl_recv, consumed, checked, Option.getD_some]
    | peek =>
      refine ⟨channel, ?_, by simp, fun _ => rfl⟩
      simp only [reduceCtorEq, if_false, bind_ok, pure_eq_ok, Nat.le_add_left, ge_iff_le, if_true, Nat.add_sub_cancel,
        found, Checked.unwrap, mark, checked, Option.getD_some]

end Channel

def filesOf : List (ControlMessage φ κ) → List φ
  | [] => []
  | .cred _ :: rest => filesOf rest
  | .files files :: rest => files ++ filesOf rest

theorem filesOf_generateControl (data : AuxiliaryData φ κ) (behavior : ReceiveBehavior) (isPassCred : Bool) :
    filesOf (data.generateControl behavior isPassCred).1 = data.files := by
  rcases data with ⟨_ | ⟨file, files⟩, cred⟩ <;> cases isPassCred <;>
    simp [AuxiliaryData.generateControl, filesOf]

/-- What the strands of a socket of either kind look like: only empty messages have no bytes, and
every byte of a seqpacket socket belongs to a message. -/
def Strand.Shaped (strand : Strand φ κ) : Bool → Prop
  | false => ∀ piece ∈ strand.pieces, piece.bytes ≠ []
  | true => strand.gap = [] ∧ ∀ piece ∈ strand.pieces, piece.after = []

theorem Strand.Shaped.unread {strand : Strand φ κ} (shaped : strand.Shaped false) (marked : strand.pieces ≠ []) :
    strand.bytes ≠ [] := by
  obtain ⟨piece, pieces, same⟩ := exists_cons_of_ne_nil marked
  have own := shaped piece (by rw [same]; exact mem_cons_self)
  rw [Strand.bytes, same, flatMap_cons, Piece.all]
  simp [own]

structure Reads (channel : Channel φ κ) (strand : Strand φ κ) (isSeqpacket : Bool) (behavior : ReceiveBehavior)
    (writer : UserWriter) (delivery : Channel.Delivery φ κ) (after : Channel φ κ) : Prop where
  takes : ∃ count len last rest, Takes channel.isShutdown strand.gap strand.pieces count len last rest ∧
    filesOf delivery.ctrlMsgs = (last.getD .empty).files ∧
    (∃ extra, delivery.writer.copied = writer.copied ++ strand.bytes.take delivery.len ++ extra) ∧
    (if isSeqpacket then
      channel.isShutdown = true ∧ count = 0 ∧ delivery.len = 0 ∨
      ∃ piece pieces, strand.pieces = piece :: pieces ∧ count = 1 ∧ len = piece.bytes.length ∧
        last = some piece.data ∧ delivery.len = min writer.avail piece.bytes.length
    else delivery.len = len) ∧
    (behavior = .recv → after.Carries rest ∧ after.isShutdown = channel.isShutdown)
  peek : behavior = .peek → after = channel

namespace Channel

variable {channel : Channel φ κ} {strand : Strand φ κ} {isSeqpacket isPassCred : Bool} {writer : UserWriter}
  {bytes : List UInt8} {turns : Nat}

def Returned (channel : Channel φ κ) (strand : Strand φ κ) (isSeqpacket : Bool) (behavior : ReceiveBehavior)
    (writer : UserWriter) : Except Errno (Delivery φ κ) × Channel φ κ → Prop
  | (.error _, after) => after = channel
  | (.ok delivery, after) => Reads channel strand isSeqpacket behavior writer delivery after

theorem Carries.hasAux_iff (carries : channel.Carries strand) : channel.hasAux = true ↔ strand.pieces ≠ [] := by
  rw [carries.hasAux, carries.allAux]
  cases strand.pieces with
  | nil => simp [place]
  | cons piece pieces => simp [place]

theorem entered (enter : 0 < writer.avail ∨ isSeqpacket = true) : (writer.avail == 0 && !isSeqpacket) = false := by
  rcases enter with some | rfl
  · have : writer.avail ≠ 0 := by omega
    simp [this]
  · simp

variable [DecidableEq κ]

section

variable (carries : channel.Carries strand)
include carries

theorem Carries.tryRead_empty (empty : writer.avail = 0) (turns : Nat) (isPassCred : Bool)
    (behavior : ReceiveBehavior) :
    ∃ outcome, channel.tryRead turns false isPassCred behavior writer = .ok outcome ∧
      Returned channel strand false behavior writer outcome := by
  have ran : channel.tryRead turns false isPassCred behavior writer =
      .ok (if channel.ring.isEmpty then .error .eagain else .ok ⟨0, [], writer⟩, channel) := by
    unfold tryRead
    simp [empty, pure_eq_ok]
  refine ⟨_, ran, ?_⟩
  cases channel.ring.isEmpty with
  | true => rfl
  | false =>
    refine ⟨⟨0, 0, none, ⟨strand.gap, strand.pieces⟩, .gap (Nat.zero_le _), rfl, ⟨[], by simp⟩,
      rfl, fun _ => ?_⟩,
      fun _ => rfl⟩
    exact ⟨carries, rfl⟩

theorem Carries.tryRead_plain (shaped : strand.Shaped isSeqpacket) (plain : strand.pieces = [])
    (enter : 0 < writer.avail ∨ isSeqpacket = true) (turns : Nat) (isPassCred : Bool) (behavior : ReceiveBehavior) :
    ∃ outcome, channel.tryRead turns isSeqpacket isPassCred behavior writer = .ok outcome ∧
      Returned channel strand isSeqpacket behavior writer outcome ∧
      ∀ errno, outcome.1 = .error errno ↔
        readWith channel.isShutdown (writer.write strand.gap).1 = .error errno := by
  have noAux : channel.hasAux = false := by
    by_contra some
    exact carries.hasAux_iff.mp (by simpa using some) plain
  have bytes : strand.bytes = strand.gap := by rw [Strand.bytes, plain, flatMap_nil, append_nil]
  have picked : pickFallible channel.ring channel.ring.head
      (channel.ring.head + BitVec.ofNat 64 channel.ring.len) writer = .ok (writer.write strand.gap) := by
    have inside : 0 + strand.bytes.length ≤ strand.bytes.length := by omega
    have pick := carries.holds.pick inside writer
    rw [drop_zero, take_length, ← carries.holds.len] at pick
    rw [← bytes, ← pick]
    congr 1 <;> rw [show channel.ring.head + BitVec.ofNat 64 0 = channel.ring.head from BitVec.add_zero _]
  unfold tryRead
  dsimp only
  rw [if_neg (by simp [entered enter]), if_pos (by simp [noAux]), picked, bind_ok]
  cases read : readWith channel.isShutdown (writer.write strand.gap).1 with
  | error errno => exact ⟨(.error errno, channel), rfl, rfl, by simp⟩
  | ok readLen =>
    obtain ⟨written, ended⟩ := readWith_ok read
    obtain ⟨least, after, _⟩ := write_eq_ok written
    have takes :
      Takes channel.isShutdown strand.gap strand.pieces 0 readLen none ⟨strand.gap.drop readLen, strand.pieces⟩ :=
      .gap (by omega)
    obtain ⟨ring, committed, holds, head⟩ := carries.consume takes
    have same := (takes.place_zero channel.ring.head).1
    have facts : ∀ (ctrl : List (ControlMessage φ κ)) (final : Channel φ κ), filesOf ctrl = [] →
        (behavior = .recv → final.Carries ⟨strand.gap.drop readLen, strand.pieces⟩ ∧
          final.isShutdown = channel.isShutdown) → (behavior = .peek → final = channel) →
        Returned channel strand isSeqpacket behavior writer
          (.ok ⟨readLen, ctrl, (writer.write strand.gap).2⟩, final) := by
      intro ctrl final noFiles recv peek
      refine ⟨⟨0, readLen, none, _, takes, noFiles, ⟨[], ?_⟩, ?_, recv⟩, peek⟩
      · rw [after, advance, append_nil, bytes]
      · cases isSeqpacket with
        | false => rfl
        | true =>
          have none : strand.bytes = [] := by rw [bytes, shaped.1]
          have zero : readLen = 0 := by rw [least, ← bytes, none]; simp
          exact .inl ⟨ended.resolve_left (by omega), rfl, zero⟩
    have noFiles : filesOf (if isPassCred then
        ((AuxiliaryData.empty : AuxiliaryData φ κ).generateControl behavior isPassCred).1 else []) = [] := by
      split
      · exact filesOf_generateControl _ _ _
      · rfl
    cases behavior with
    | recv =>
      refine ⟨_, by simp only [if_true, committed, bind_ok, pure_eq_ok]; rfl,
        facts _ _ noFiles (fun _ => ?_) (by simp), by simp⟩
      refine ⟨⟨holds, ?_, carries.hasAux⟩, rfl⟩
      rw [carries.allAux, ← same, head]
    | peek =>
      exact ⟨_, by simp only [reduceCtorEq, if_false, bind_ok, pure_eq_ok],
        facts _ _ noFiles (by simp) fun _ => rfl, by simp⟩

theorem Carries.tryRead_marked {behavior : ReceiveBehavior} (marked : strand.pieces ≠ [])
    (enter : 0 < writer.avail ∨ isSeqpacket = true) :
    channel.tryRead turns isSeqpacket isPassCred behavior writer =
      channel.receive isSeqpacket isPassCred (writer.avail == 0) channel.ring.head turns 0 0 writer >>= fun
        | .error errno => .ok (.error errno, channel)
        | .ok received => channel.finishRead isSeqpacket isPassCred behavior received := by
  unfold tryRead
  simp only [entered enter, carries.hasAux_iff.mpr marked, Bool.false_eq_true, if_false, Bool.not_true]
  rfl

theorem Carries.tryRead_stream (shaped : strand.Shaped false) (marked : strand.pieces ≠ [])
    (room : 0 < writer.avail) {result : Except Errno Received}
    (received : channel.receive false isPassCred false channel.ring.head turns 0 0 writer = .ok result)
    (behavior : ReceiveBehavior) :
    ∃ outcome, channel.tryRead turns false isPassCred behavior writer = .ok outcome ∧
      Returned channel strand false behavior writer outcome ∧ ∀ errno, outcome.1 = .error errno →
        result = .error errno := by
  have filled : (writer.avail == 0) = false := by simp; omega
  rw [carries.tryRead_marked marked (.inl room), filled, received, bind_ok]
  cases result with
  | error errno => exact ⟨_, rfl, rfl, by simp⟩
  | ok stopped =>
    obtain ⟨⟨count, len, last, rest, position, total, takes, ⟨extra, copied⟩, _⟩, trunc, progress⟩ :=
      carries.start.receive_stops shaped received
    rw [Nat.zero_add] at position total
    have moved := progress (.inr ⟨room, shaped.unread marked⟩)
    have reached : ∀ aux, 0 < count → channel.allAux[count - 1]? = some aux →
        (aux.start - channel.ring.head).toNat ≤ stopped.readTotLen := by
      intro aux positive found
      obtain ⟨before, rfl⟩ : ∃ before, count = before + 1 := ⟨count - 1, by omega⟩
      obtain ⟨own, same, _, bound, _⟩ := takes.place_succ channel.ring.head carries.small
      rw [Nat.add_sub_cancel, carries.allAux, same] at found
      obtain rfl := Option.some.inj found
      omega
    obtain ⟨after, ran, recv, peek⟩ := carries.finishRead takes position (by omega) reached
      (.inr (by omega)) isPassCred behavior
    refine ⟨_, ran, ⟨⟨count, len, last, rest, takes, filesOf_generateControl _ _ _, ⟨extra, ?_⟩,
      total, recv⟩, peek⟩, by simp⟩
    rw [copied, total]
    rfl

end

omit [DecidableEq κ] in
theorem write_none (none : min writer.avail bytes.length = 0) : writer.write bytes = (.ok 0, writer) := by
  have clear : faultWithin writer.fault (min writer.avail bytes.length) = Option.none := by
    rw [none]
    cases writer.fault <;> simp [faultWithin]
  rw [write_ok clear, none, take_zero]
  rcases writer with ⟨avail, _ | fault, copied⟩ <;> simp [advance]

theorem At.turn_packet {piece : Piece φ κ} {pieces : List (Piece φ κ)}
    (at_ : channel.At 0 0 [] (piece :: pieces) none) :
    channel.receive true isPassCred (writer.avail == 0) channel.ring.head (turns + 1) 0 0 writer =
      match writer.write piece.bytes with
      | (.error errno, _) => .ok (.error errno)
      | (.ok readLen, after) => .ok (.ok ⟨1, readLen, piece.bytes.length - readLen, after⟩) := by
  have inside : piece.bytes.length ≤ ([] ++ (piece :: pieces).flatMap Piece.all).length := by
    simp only [nil_append, flatMap_cons, Piece.all, length_append]
    omega
  have first : ([] ++ (piece :: pieces).flatMap Piece.all).take piece.bytes.length = piece.bytes := by
    rw [nil_append, flatMap_cons, Piece.all, append_assoc, take_left]
  obtain ⟨aux, next, data, _⟩ := at_.nextAux_piece
  have truncated : ∀ readLen, (if readLen < piece.bytes.length then piece.bytes.length - readLen else 0) =
      piece.bytes.length - readLen := by
    intro readLen
    split <;> omega
  rw [receive, next]
  simp only [gt_iff_lt, Nat.lt_irrefl, if_false, pure_eq_ok, bind_ok, Bool.not_true, Bool.false_eq_true,
    Option.isNone_some, Bool.or_false, Option.isSome_some, if_true, at_.pick inside, first, Nat.zero_add, truncated]
  by_cases full : writer.avail = 0
  · simp [full, @write_none writer piece.bytes (by omega)]
  · by_cases empty : piece.bytes = []
    · simp [empty, @write_none writer [] (by simp)]
    · have positive := length_pos_iff.mpr empty
      have entered : (!(writer.avail == 0) && decide (0 < piece.bytes.length)) = true := by simp [full, positive]
      rw [if_pos entered]
      cases copied : writer.write piece.bytes with
      | mk picked after =>
        cases picked with
        | error errno => rfl
        | ok readLen =>
          have least := (@write_eq_ok writer piece.bytes readLen (by rw [copied])).1
          have some : readLen > 0 := by omega
          simp [readWith, some]

theorem Carries.tryRead_packet (carries : channel.Carries strand) (shaped : strand.Shaped true)
    (marked : strand.pieces ≠ []) (turns : Nat) (isPassCred : Bool) (behavior : ReceiveBehavior)
    (writer : UserWriter) :
    ∃ outcome, channel.tryRead (turns + 1) true isPassCred behavior writer = .ok outcome ∧
      Returned channel strand true behavior writer outcome ∧ outcome.1 ≠ .error .eagain := by
  obtain ⟨piece, pieces, same⟩ := exists_cons_of_ne_nil marked
  have at_ := carries.start
  rw [shaped.1, same] at at_
  rw [carries.tryRead_marked marked (.inr rfl), at_.turn_packet]
  cases copied : writer.write piece.bytes with
  | mk picked after =>
    cases picked with
    | error errno =>
      refine ⟨(.error errno, channel), rfl, rfl, ?_⟩
      have other := writer.write_ne_eagain piece.bytes
      rw [copied] at other
      simpa using other
    | ok readLen =>
      obtain ⟨least, advanced, _⟩ := @write_eq_ok writer piece.bytes readLen (by rw [copied])
      rw [copied] at advanced
      have takes : Takes channel.isShutdown strand.gap strand.pieces 1 piece.bytes.length (some piece.data)
          ⟨piece.after, pieces⟩ := by
        have whole := @Takes.whole φ κ channel.isShutdown [] piece pieces
        rw [length_nil, Nat.zero_add] at whole
        rwa [shaped.1, same]
      have reached : ∀ aux, 0 < 1 → channel.allAux[1 - 1]? = some aux →
          (aux.start - channel.ring.head).toNat ≤ readLen := by
        intro aux _ found
        rw [carries.allAux, shaped.1, same] at found
        obtain rfl := Option.some.inj found
        simp
      obtain ⟨final, ran, recv, peek⟩ := @Carries.finishRead φ κ channel strand _ true _ _ _ _
        ⟨1, readLen, piece.bytes.length - readLen, after⟩ carries takes rfl (by dsimp only; omega)
          reached (.inl rfl)
        isPassCred behavior
      refine ⟨_, ran, ⟨⟨1, piece.bytes.length, _, _, takes, filesOf_generateControl _ _ _,
        ⟨[], ?_⟩, ?_, recv⟩, peek⟩, by simp⟩
      · have prefixed : strand.bytes.take readLen = piece.bytes.take readLen := by
          rw [Strand.bytes, shaped.1, same, nil_append, flatMap_cons, Piece.all, append_assoc,
            take_append_of_le_length (by omega)]
        dsimp only at advanced ⊢
        rw [advanced, advance, prefixed, append_nil]
      · exact .inr ⟨piece, pieces, same, rfl, rfl, rfl, least⟩

end Channel

end Kei.Unix
