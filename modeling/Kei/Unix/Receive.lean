import Kei.Unix.Strand

/-! The receive loop: one turn takes the bytes up to the next change of auxiliary data, and the
loop either stops or goes round at the end of the data for ever. -/

namespace Kei.Unix

open Library Checked Kei.Spsc Piece Option
open List hiding all

variable {φ κ : Type}

namespace Channel

variable {channel : Channel φ κ} {isPassCred : Bool} {auxPos readTotLen turns : Nat} {gap : List UInt8}
  {piece : Piece φ κ} {pieces later : List (Piece φ κ)} {prev last : Option (AuxiliaryData φ κ)}
  {writer : UserWriter}
  {bytes after : List UInt8} {next : AuxiliaryData φ κ} {step : Nat}

structure At (channel : Channel φ κ) (auxPos readTotLen : Nat) (gap : List UInt8) (pieces : List (Piece φ κ))
    (prev : Option (AuxiliaryData φ κ)) : Prop where
  holds : ∃ seen, Holds channel.ring (seen ++ (gap ++ pieces.flatMap all)) ∧ seen.length = readTotLen
  ahead : channel.allAux.drop auxPos = place (channel.ring.head + BitVec.ofNat 64 readTotLen) gap pieces
  prev : auxPos = 0 ∧ prev = none ∨
    ∃ place aux, auxPos = place + 1 ∧ channel.allAux[place]? = some aux ∧ prev = some aux.data ∧ 0 < readTotLen

theorem Carries.start {strand : Strand φ κ} (carries : channel.Carries strand) :
    channel.At 0 0 strand.gap strand.pieces none where
  holds := ⟨[], carries.holds, rfl⟩
  ahead := by
    rw [drop_zero, carries.allAux]
    congr 1
    exact (BitVec.add_zero _).symm
  prev := .inl ⟨rfl, rfl⟩

section

variable (at_ : channel.At auxPos readTotLen gap pieces prev)
include at_

theorem At.small : readTotLen + (gap ++ pieces.flatMap all).length < 2 ^ 64 := by
  obtain ⟨seen, holds, rfl⟩ := at_.holds
  have fits := holds.length_le
  have capacity := channel.ring.capacity_lt
  rw [length_append] at fits
  omega

theorem At.front :
    channel.allAux[auxPos]? = (place (channel.ring.head + BitVec.ofNat 64 readTotLen) gap pieces).head? := by
  rw [← at_.ahead, head?_drop]

theorem At.pick {len : Nat} (inside : len ≤ (gap ++ pieces.flatMap all).length) (writer : UserWriter) :
    pickFallible channel.ring (channel.ring.head + BitVec.ofNat 64 readTotLen)
        (channel.ring.head + BitVec.ofNat 64 readTotLen + BitVec.ofNat 64 len) writer =
      .ok (writer.write ((gap ++ pieces.flatMap all).take len)) := by
  obtain ⟨seen, holds, rfl⟩ := at_.holds
  rw [holds.pick (by rw [length_append]; omega), drop_left]

theorem At.nextAux_gap (plain : gap ≠ [] ∨ pieces = []) :
    channel.nextAux auxPos (channel.ring.head + BitVec.ofNat 64 readTotLen) = (gap.length, none) := by
  have small := at_.small
  unfold nextAux
  rw [at_.front]
  cases pieces with
  | nil =>
    obtain ⟨seen, holds, length⟩ := at_.holds
    have len := holds.len
    simp only [flatMap_nil, append_nil, length_append] at len small
    have tail : channel.ring.tail = channel.ring.head + BitVec.ofNat 64 (readTotLen + gap.length) := by
      rw [RingBuffer.tail_eq, len, length]
    simp only [place, head?_nil, tail]
    rw [toNat_sub_of_le _ (Nat.le_add_right _ _) small, Nat.add_sub_cancel_left]
  | cons piece pieces =>
    have positive : 0 < gap.length := by
      rcases plain with some | absurd
      · exact length_pos_iff.mpr some
      · cases absurd
    rw [length_append] at small
    have apart : channel.ring.head + BitVec.ofNat 64 (readTotLen + gap.length) ≠
        channel.ring.head + BitVec.ofNat 64 readTotLen := by
      intro same
      have zero := toNat_sub_of_le channel.ring.head (Nat.le_add_right readTotLen gap.length) (by omega)
      rw [same, sub_self] at zero
      simp at zero
      omega
    simp only [place, head?_cons, add_ofNat]
    rw [if_neg apart, toNat_sub_of_le _ (Nat.le_add_right _ _) (by omega), Nat.add_sub_cancel_left]

end

theorem At.nextAux_piece (at_ : channel.At auxPos readTotLen [] (piece :: pieces) prev) :
    ∃ aux, channel.nextAux auxPos (channel.ring.head + BitVec.ofNat 64 readTotLen) =
      (piece.bytes.length, some aux) ∧ aux.data = piece.data ∧ channel.allAux[auxPos]? = some aux := by
  have small := at_.small
  have front := at_.front
  simp only [nil_append, flatMap_cons, all, length_append] at small
  simp only [place, head?_cons, length_nil, add_ofNat, Nat.add_zero] at front
  refine ⟨_, ?_, rfl, front⟩
  unfold nextAux
  simp only [front]
  rw [if_true, toNat_sub_of_le _ (Nat.le_add_right _ _) (by omega), Nat.add_sub_cancel_left]

/-- One turn of the loop: the bytes up to the next change of auxiliary data, the data they are with, by how
much the place in the queue moves, and what is ahead then. -/
inductive Turn : List UInt8 → List (Piece φ κ) → Option (AuxiliaryData φ κ) → List UInt8 →
    AuxiliaryData φ κ → Nat →
    List UInt8 → List (Piece φ κ) → Option (AuxiliaryData φ κ) → Prop
  | gap {gap : List UInt8} {pieces : List (Piece φ κ)} {prev : Option (AuxiliaryData φ κ)}
    (plain : gap ≠ [] ∨ pieces = []) : Turn gap pieces prev gap .empty 0 [] pieces prev
  | piece {piece : Piece φ κ} {pieces : List (Piece φ κ)} {prev : Option (AuxiliaryData φ κ)}
    (filled : piece.bytes ≠ []) :
    Turn [] (piece :: pieces) prev piece.bytes piece.data 1 piece.after pieces (some piece.data)

theorem exists_turn (gap : List UInt8) (prev : Option (AuxiliaryData φ κ))
    (filled : ∀ piece ∈ pieces, piece.bytes ≠ []) :
    ∃ bytes next step after later last, Turn gap pieces prev bytes next step after later last := by
  by_cases plain : gap ≠ [] ∨ pieces = []
  · exact ⟨_, _, _, _, _, _, .gap plain⟩
  · obtain ⟨rfl, more⟩ : gap = [] ∧ pieces ≠ [] := by simpa [not_or] using plain
    obtain ⟨piece, pieces, rfl⟩ := exists_cons_of_ne_nil more
    exact ⟨_, _, _, _, _, _, .piece (filled piece mem_cons_self)⟩

section

variable (turn : Turn gap pieces prev bytes next step after later last)
include turn

theorem Turn.bytes_eq : gap ++ pieces.flatMap all = bytes ++ (after ++ later.flatMap all) := by
  cases turn with
  | gap => rfl
  | piece => rw [nil_append, flatMap_cons, all, append_assoc]

theorem Turn.moves (some : gap ++ pieces.flatMap all ≠ []) : 0 < bytes.length := by
  refine length_pos_iff.mpr ?_
  cases turn with
  | gap plain =>
    rcases plain with plain | rfl
    · exact plain
    · simpa using some
  | piece filled => exact filled

theorem Turn.measure : gap = [] ∧ pieces = [] ∨
    2 * later.length + (if after = [] then 0 else 1) < 2 * pieces.length + (if gap = [] then 0 else 1) := by
  cases turn with
  | gap plain => by_cases none : gap = [] <;> simp_all
  | piece =>
    simp only [length_cons, if_true]
    split <;> omega

theorem Turn.filled (filled : ∀ piece ∈ pieces, piece.bytes ≠ []) : ∀ piece ∈ later, piece.bytes ≠ [] := by
  cases turn with
  | gap => exact filled
  | piece => exact (forall_mem_cons.mp filled).2

variable (at_ : channel.At auxPos readTotLen gap pieces prev)
include at_

theorem At.nextAux_turn : ∃ front, channel.nextAux auxPos (channel.ring.head + BitVec.ofNat 64 readTotLen) =
      (bytes.length, front) ∧ (front.map (·.data)).getD .empty = next ∧
    (if front.isSome then auxPos + 1 else auxPos) = auxPos + step ∧
    (decide (bytes.length > 0) || front.isNone) = true := by
  cases turn with
  | gap plain => exact ⟨none, at_.nextAux_gap plain, rfl, rfl, Bool.or_true _⟩
  | piece filled =>
    obtain ⟨aux, next, data, _⟩ := at_.nextAux_piece
    exact ⟨some aux, next, data, rfl, by simpa [length_pos_iff] using filled⟩

theorem At.pass : channel.At (auxPos + step) (readTotLen + bytes.length) after later last := by
  obtain ⟨seen, holds, length⟩ := at_.holds
  refine ⟨⟨seen ++ bytes, ?_, by rw [length_append, length]⟩, ?_, ?_⟩
  · rwa [append_assoc, ← turn.bytes_eq]
  · cases turn with
    | gap =>
      have dropped := place_drop (channel.ring.head + BitVec.ofNat 64 readTotLen) (Nat.le_refl gap.length) pieces
      rw [Nat.add_zero, at_.ahead, ← dropped, add_ofNat, drop_length]
    | piece => rw [← tail_drop, at_.ahead, place, tail_cons, length_nil, add_ofNat, add_ofNat, Nat.zero_add]
  · cases turn with
    | gap =>
      rcases at_.prev with first | ⟨place, aux, later, found, same, _⟩
      · exact .inl first
      · exact .inr ⟨place, aux, later, found, same, by omega⟩
    | piece filled =>
      obtain ⟨aux, _, data, found⟩ := at_.nextAux_piece
      have positive := length_pos_iff.mpr filled
      exact .inr ⟨auxPos, aux, rfl, found, by rw [data], by omega⟩

end

variable [DecidableEq κ]

theorem At.continues (at_ : channel.At auxPos readTotLen gap pieces prev)
    (auxFront : Option (RangedAuxiliaryData φ κ)) :
    channel.continues isPassCred auxPos auxFront =
      .ok ((prev.getD .empty).isSubsetOf ((auxFront.map (·.data)).getD .empty) isPassCred) := by
  rcases at_.prev with ⟨rfl, rfl⟩ | ⟨place, aux, rfl, found, rfl, _⟩
  · cases auxFront with
    | none => simp [Channel.continues, AuxiliaryData.isSubsetOf, AuxiliaryData.empty, pure_eq_ok]
    | some aux => rfl
  · rw [Channel.continues, found]
    rfl

def outcome (isShutdown : Bool) (writer : UserWriter) (bytes : List UInt8) (auxPos nextPos readTotLen : Nat)
    (rest : Nat → UserWriter → Checked (Except Errno Received)) : Checked (Except Errno Received) :=
  match readWith isShutdown (writer.write bytes).1 with
  | .error errno =>
    .ok (if readTotLen > 0 then .ok ⟨auxPos, readTotLen, 0, (writer.write bytes).2⟩ else .error errno)
  | .ok readLen =>
    if readLen < bytes.length then .ok (.ok ⟨nextPos, readTotLen + readLen, 0, (writer.write bytes).2⟩)
    else rest (readTotLen + readLen) (writer.write bytes).2

theorem At.receive_turn (at_ : channel.At auxPos readTotLen gap pieces prev)
    (turn : Turn gap pieces prev bytes next step after later last) :
    channel.receive false isPassCred false channel.ring.head (turns + 1) auxPos readTotLen writer =
    if readTotLen > 0 ∧ (prev.getD .empty).isSubsetOf next isPassCred = false then
      .ok (.ok ⟨auxPos, readTotLen, 0, writer⟩)
    else outcome channel.isShutdown writer bytes auxPos (auxPos + step) readTotLen
      (channel.receive false isPassCred false channel.ring.head turns (auxPos + step)) := by
  obtain ⟨front, aux, data, place, asks⟩ := at_.nextAux_turn turn
  have inside : bytes.length ≤ (gap ++ pieces.flatMap all).length := by
    rw [turn.bytes_eq, length_append]
    omega
  have picked := at_.pick inside writer
  rw [turn.bytes_eq, take_left] at picked
  rw [receive, aux]
  simp only [at_.continues, picked, data, place, asks, Bool.not_false, Bool.and_self, if_true, Bool.false_eq_true,
    if_false, bind_ok, pure_eq_ok, outcome]
  by_cases started : readTotLen > 0
  · cases (prev.getD .empty).isSubsetOf next isPassCred <;>
      cases readWith channel.isShutdown (writer.write bytes).1 <;> simp [started]
  · cases readWith channel.isShutdown (writer.write bytes).1 <;> simp [started]

end Channel

theorem readWith_ok {isShutdown : Bool} {picked : Except Errno Nat} {readLen : Nat}
    (ran : readWith isShutdown picked = .ok readLen) : picked = .ok readLen ∧
      (0 < readLen ∨ isShutdown = true) := by
  cases picked with
  | error errno => cases ran
  | ok len =>
    rw [readWith] at ran
    split at ran
    case isTrue positive =>
      obtain rfl := Except.ok.inj ran
      exact ⟨rfl, .inl positive⟩
    case isFalse zero =>
      split at ran
      case isTrue shut =>
        obtain rfl := Except.ok.inj ran
        exact ⟨congrArg _ (by omega), .inr shut⟩
      case isFalse => cases ran

namespace UserWriter

variable {writer : UserWriter} {bytes : List UInt8} {len : Nat}

theorem write_eq_ok (ran : (writer.write bytes).1 = .ok len) :
    len = min writer.avail bytes.length ∧ (writer.write bytes).2 = writer.advance (bytes.take len) ∧
      faultWithin writer.fault len = none := by
  cases found : faultWithin writer.fault (min writer.avail bytes.length) with
  | some before =>
    rw [write_fault found] at ran
    cases ran
  | none =>
    rw [write_ok found] at ran ⊢
    obtain rfl := Except.ok.inj ran
    exact ⟨rfl, rfl, found⟩

theorem write_ne_eagain (writer : UserWriter) (bytes : List UInt8) : (writer.write bytes).1 ≠ .error .eagain := by
  unfold write
  dsimp only
  split <;> simp

theorem readWith_eagain_iff (room : 0 < writer.avail) (bytes : List UInt8) :
    readWith false (writer.write bytes).1 = .error .eagain ↔ bytes = [] := by
  have other := writer.write_ne_eagain bytes
  cases found : faultWithin writer.fault (min writer.avail bytes.length) with
  | some before =>
    have inside : before < bytes.length := by
      have := (Option.filter_eq_some_iff.mp found).2
      simp at this
      omega
    rw [write_fault found] at other ⊢
    exact iff_of_false other (ne_nil_of_length_pos (by omega))
  | none =>
    rw [write_ok found, readWith, ← length_eq_zero_iff]
    split
    · exact iff_of_false (by simp) (by omega)
    · exact iff_of_true rfl (by omega)

theorem copied_write (writer : UserWriter) (bytes : List UInt8) :
    ∃ extra, (writer.write bytes).2.copied = writer.copied ++ extra := by
  cases found : faultWithin writer.fault (min writer.avail bytes.length) with
  | some before =>
    rw [write_fault found]
    exact ⟨_, rfl⟩
  | none =>
    rw [write_ok found]
    exact ⟨_, rfl⟩

end UserWriter

theorem AuxiliaryData.files_of_isSubsetOf [DecidableEq κ] {data other : AuxiliaryData φ κ} {isPassCred : Bool}
    (subset : data.isSubsetOf other isPassCred = true) : data.files = [] := by
  unfold isSubsetOf at subset
  split at subset
  · contradiction
  · rename_i empty
    simpa using empty

theorem Takes.extend {isShutdown : Bool} {pieces : List (Piece φ κ)} {count len : Nat}
    {last : Option (AuxiliaryData φ κ)} {rest : Strand φ κ} (takes : Takes isShutdown [] pieces count len last rest)
    (gap : List UInt8) : Takes isShutdown gap pieces count (gap.length + len) last rest := by
  cases takes with
  | gap inside =>
    obtain rfl : len = 0 := by simpa using inside
    have whole : Takes isShutdown gap pieces 0 gap.length none ⟨gap.drop gap.length, pieces⟩ :=
      .gap (Nat.le_refl _)
    rwa [drop_length] at whole
  | part inside began =>
    rw [length_nil, Nat.zero_add]
    exact .part inside began
  | whole =>
    rw [length_nil, Nat.zero_add]
    exact .whole
  | next quiet takes =>
    rw [length_nil, Nat.zero_add]
    exact .next quiet takes

namespace Channel

variable {channel : Channel φ κ} {isPassCred : Bool} {auxPos readTotLen turns : Nat} {gap : List UInt8}
  {piece : Piece φ κ} {pieces : List (Piece φ κ)} {prev : Option (AuxiliaryData φ κ)} {writer : UserWriter}

structure Stops (channel : Channel φ κ) (auxPos readTotLen : Nat) (gap : List UInt8) (pieces : List (Piece φ κ))
    (prev : Option (AuxiliaryData φ κ)) (writer : UserWriter) (received : Received) : Prop where
  takes : ∃ count len last rest, received.auxPos = auxPos + count ∧ received.readTotLen = readTotLen + len ∧
    Takes channel.isShutdown gap pieces count len last rest ∧
    (∃ extra, received.writer.copied = writer.copied ++ (gap ++ pieces.flatMap all).take len ++ extra) ∧
    (0 < count ∨ 0 < len → 0 < readTotLen → ∀ data, prev = some data → data.files = [])
  truncLen : received.truncLen = 0
  progress : 0 < readTotLen ∨ 0 < writer.avail ∧ gap ++ pieces.flatMap all ≠ [] → 0 < received.readTotLen

theorem stops_here (started : 0 < readTotLen) {after : UserWriter}
    (copied : ∃ extra, after.copied = writer.copied ++ extra) :
    channel.Stops auxPos readTotLen gap pieces prev writer ⟨auxPos, readTotLen, 0, after⟩ where
  takes := by
    obtain ⟨extra, same⟩ := copied
    refine ⟨0, 0, none, _, rfl, rfl, .gap (Nat.zero_le _), ⟨extra, by simpa using same⟩, ?_⟩
    intro moved
    omega
  truncLen := rfl
  progress _ := started

theorem outcome_cases (isShutdown : Bool) (writer : UserWriter) (bytes : List UInt8)
    (auxPos nextPos readTotLen : Nat) (rest : Nat → UserWriter → Checked (Except Errno Received)) :
    (∃ errno, readWith isShutdown (writer.write bytes).1 = .error errno ∧
      outcome isShutdown writer bytes auxPos nextPos readTotLen rest =
        .ok (if readTotLen > 0 then .ok ⟨auxPos, readTotLen, 0, (writer.write bytes).2⟩ else .error errno)) ∨
    (∃ len, len = min writer.avail bytes.length ∧ len < bytes.length ∧ (0 < len ∨ isShutdown = true) ∧
      outcome isShutdown writer bytes auxPos nextPos readTotLen rest =
        .ok (.ok ⟨nextPos, readTotLen + len, 0, writer.advance (bytes.take len)⟩)) ∨
    (bytes.length ≤ writer.avail ∧ faultWithin writer.fault bytes.length = none ∧
      (0 < bytes.length ∨ isShutdown = true) ∧
      outcome isShutdown writer bytes auxPos nextPos readTotLen rest =
        rest (readTotLen + bytes.length) (writer.advance bytes)) := by
  unfold outcome
  split
  case h_1 errno failed => exact .inl ⟨errno, failed, rfl⟩
  case h_2 readLen read =>
    obtain ⟨picked, began⟩ := readWith_ok read
    obtain ⟨least, after, clear⟩ := UserWriter.write_eq_ok picked
    rw [after]
    split
    case isTrue short => exact .inr (.inl ⟨readLen, least, short, began, rfl⟩)
    case isFalse full =>
      obtain rfl : readLen = bytes.length := by omega
      rw [take_length]
      exact .inr (.inr ⟨by omega, clear, began, rfl⟩)

theorem outcome_ok {isShutdown : Bool} {bytes : List UInt8} {nextPos : Nat} {received : Received}
    {rest : Nat → UserWriter → Checked (Except Errno Received)}
    (ran : outcome isShutdown writer bytes auxPos nextPos readTotLen rest = .ok (.ok received)) :
    (0 < readTotLen ∧ received = ⟨auxPos, readTotLen, 0, (writer.write bytes).2⟩) ∨
    (∃ len, len = min writer.avail bytes.length ∧ len < bytes.length ∧ (0 < len ∨ isShutdown = true) ∧
      received = ⟨nextPos, readTotLen + len, 0, writer.advance (bytes.take len)⟩) ∨
    rest (readTotLen + bytes.length) (writer.advance bytes) = .ok (.ok received) := by
  rcases outcome_cases isShutdown writer bytes auxPos nextPos readTotLen rest with
    ⟨errno, _, same⟩ | ⟨len, least, short, began, same⟩ | ⟨_, _, _, same⟩
  · rw [same] at ran
    split at ran
    case isTrue started => exact .inl ⟨started, (Except.ok.inj (Except.ok.inj ran)).symm⟩
    case isFalse => cases Except.ok.inj ran
  · rw [same] at ran
    exact .inr (.inl ⟨len, least, short, began, (Except.ok.inj (Except.ok.inj ran)).symm⟩)
  · rw [same] at ran
    exact .inr (.inr ran)

section

variable {bytes after : List UInt8} {next : AuxiliaryData φ κ} {step count len : Nat} {later : List (Piece φ κ)}
  {data : Option (AuxiliaryData φ κ)} (turn : Turn gap pieces prev bytes next step after later data)
  {isShutdown : Bool}
include turn

theorem Turn.part (short : len < bytes.length) (began : 0 < len ∨ isShutdown = true) :
    ∃ last rest, Takes isShutdown gap pieces step len last rest := by
  cases turn with
  | gap => exact ⟨none, _, .gap short.le⟩
  | @piece piece =>
    have part := @Takes.part φ κ isShutdown [] piece later len short began
    rw [length_nil, Nat.zero_add] at part
    exact ⟨_, _, part⟩

theorem Turn.takes {last : Option (AuxiliaryData φ κ)} {rest : Strand φ κ}
    (takes : Takes isShutdown after later count len last rest)
    (silent : 0 < bytes.length → 0 < count ∨ 0 < len → ∀ own, data = some own → own.files = []) :
    ∃ last rest, Takes isShutdown gap pieces (step + count) (bytes.length + len) last rest := by
  cases turn with
  | gap =>
    rw [Nat.zero_add]
    exact ⟨last, rest, takes.extend gap⟩
  | @piece piece _ _ filled =>
    by_cases still : count = 0 ∧ len = 0
    · obtain ⟨rfl, rfl⟩ := still
      have whole := @Takes.whole φ κ isShutdown [] piece later
      rw [length_nil, Nat.zero_add] at whole
      exact ⟨_, _, whole⟩
    · have next := @Takes.next φ κ isShutdown [] piece later count len last rest
        (silent (length_pos_iff.mpr filled) (by omega) _ rfl) takes
      rw [length_nil, Nat.zero_add, Nat.add_comm count] at next
      exact ⟨_, _, next⟩

end

variable [DecidableEq κ]

theorem quiet_of_subset {next : AuxiliaryData φ κ}
    (goes : ¬(readTotLen > 0 ∧ (prev.getD .empty).isSubsetOf next isPassCred = false)) :
    0 < readTotLen → ∀ data, prev = some data → data.files = [] := by
  rintro started data rfl
  have subset : data.isSubsetOf next isPassCred = true := by
    by_contra other
    exact goes ⟨started, by simpa using other⟩
  exact AuxiliaryData.files_of_isSubsetOf subset

theorem At.receive_stops (at_ : channel.At auxPos readTotLen gap pieces prev)
    (filled : ∀ piece ∈ pieces, piece.bytes ≠ []) {received : Received}
    (ran : channel.receive false isPassCred false channel.ring.head turns auxPos readTotLen writer =
      .ok (.ok received)) :
    channel.Stops auxPos readTotLen gap pieces prev writer received := by
  induction turns generalizing auxPos readTotLen gap pieces prev writer with
  | zero => cases ran
  | succ turns ih =>
    obtain ⟨bytes, next, step, after, later, data, turn⟩ := exists_turn gap prev filled
    rw [at_.receive_turn turn] at ran
    split at ran
    case isTrue ends =>
      obtain rfl := Except.ok.inj (Except.ok.inj ran)
      exact stops_here ends.1 ⟨[], by simp⟩
    case isFalse goes =>
      have quiet := quiet_of_subset goes
      rcases outcome_ok ran with ⟨started, rfl⟩ | ⟨len, least, short, began, rfl⟩ | ran
      · exact stops_here started (writer.copied_write bytes)
      · obtain ⟨last, rest, takes⟩ := turn.part short began
        refine ⟨⟨step, len, last, rest, rfl, rfl, takes, ⟨[], ?_⟩, fun _ => quiet⟩, rfl, ?_⟩
        · rw [UserWriter.advance, turn.bytes_eq, take_append_of_le_length short.le, append_nil]
        · rintro (started | ⟨room, _⟩)
          · exact Nat.add_pos_left started _
          · exact Nat.add_pos_right _ (by omega)
      · obtain ⟨⟨count, len, _, _, pos, tot, takes, ⟨extra, copied⟩, silent⟩, trunc, progress⟩ :=
          ih (at_.pass turn) (turn.filled filled) ran
        obtain ⟨last, rest, joined⟩ := turn.takes takes fun own moved => silent moved (by omega)
        refine ⟨⟨step + count, bytes.length + len, last, rest, by omega, by omega, joined, ⟨extra, ?_⟩,
          fun _ => quiet⟩, trunc, fun start => progress (.inl ?_)⟩
        · rw [copied, UserWriter.advance, turn.bytes_eq, take_length_add_append, append_assoc writer.copied]
        · rcases start with started | ⟨_, some⟩
          · exact Nat.add_pos_left started _
          · exact Nat.add_pos_right _ (turn.moves some)

theorem At.receive_ne_eagain (at_ : channel.At auxPos readTotLen gap pieces prev)
    (filled : ∀ piece ∈ pieces, piece.bytes ≠ []) (runs : channel.isShutdown = false)
    (start : 0 < readTotLen ∨ 0 < writer.avail ∧ gap ++ pieces.flatMap all ≠ []) :
    channel.receive false isPassCred false channel.ring.head turns auxPos readTotLen writer ≠
      .ok (.error .eagain) := by
  induction turns generalizing auxPos readTotLen gap pieces prev writer with
  | zero => simp [receive]
  | succ turns ih =>
    obtain ⟨bytes, next, step, after, later, last, turn⟩ := exists_turn gap prev filled
    rw [at_.receive_turn turn]
    split
    case isTrue => simp
    case isFalse =>
      rcases outcome_cases channel.isShutdown writer bytes auxPos (auxPos + step) readTotLen
          (channel.receive false isPassCred false channel.ring.head turns (auxPos + step)) with
        ⟨errno, failed, same⟩ | ⟨len, _, _, _, same⟩ | ⟨_, _, began, same⟩ <;> rw [same]
      · rcases start with started | ⟨room, some⟩
        · simp [started]
        · have moves := turn.moves some
          rintro ended
          split at ended
          · cases ended
          · cases ended
            rw [runs, UserWriter.readWith_eagain_iff room] at failed
            simp [failed] at moves
      · simp
      · simp only [runs, Bool.false_eq_true, or_false] at began
        exact ih (at_.pass turn) (turn.filled filled) (.inl (by omega))

end Channel

end Kei.Unix
