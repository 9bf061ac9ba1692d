import Kei.Unix.ReadWrite

/-! What a whole write does: the accepted bytes go to the end of the strand, with their files and
credentials if they have any. -/

namespace Kei.Unix

open Library Checked Kei.Spsc List

variable {φ κ : Type}

def addAfter (bytes : List UInt8) : List (Piece φ κ) → List (Piece φ κ)
  | [] => []
  | [piece] => [{ piece with after := piece.after ++ bytes }]
  | piece :: next :: rest => piece :: addAfter bytes (next :: rest)

namespace Strand

def addPlain (strand : Strand φ κ) (bytes : List UInt8) : Strand φ κ :=
  if strand.pieces.isEmpty then ⟨strand.gap ++ bytes, []⟩ else ⟨strand.gap, addAfter bytes strand.pieces⟩

def addPiece (strand : Strand φ κ) (data : AuxiliaryData φ κ) (bytes : List UInt8) : Strand φ κ :=
  ⟨strand.gap, strand.pieces ++ [⟨data, bytes, []⟩]⟩

end Strand

variable {pieces : List (Piece φ κ)}

theorem flatMap_addAfter (bytes : List UInt8) (some : pieces ≠ []) :
    (addAfter bytes pieces).flatMap Piece.all = pieces.flatMap Piece.all ++ bytes := by
  fun_induction addAfter bytes pieces with
  | case1 => contradiction
  | case2 piece => simp [Piece.all]
  | case3 piece next rest ih =>
    rw [flatMap_cons, ih (by simp)]
    simp

theorem place_addAfter (bytes : List UInt8) (position : BitVec 64) (gap : List UInt8) (pieces : List (Piece φ κ)) :
    place position gap (addAfter bytes pieces) = place position gap pieces := by
  fun_induction addAfter bytes pieces generalizing position gap with
  | case1 => rfl
  | case2 piece => rfl
  | case3 piece next rest ih =>
    rw [place, ih]
    rfl

theorem place_append (position : BitVec 64) (gap : List UInt8) (pieces : List (Piece φ κ)) (piece : Piece φ κ) :
    place position gap (pieces ++ [piece]) = place position gap pieces ++
      [⟨piece.data, position + BitVec.ofNat 64 (gap ++ pieces.flatMap Piece.all).length,
        position + BitVec.ofNat 64 (gap ++ pieces.flatMap Piece.all).length +
          BitVec.ofNat 64 piece.bytes.length⟩] := by
  induction pieces generalizing position gap with
  | nil => simp [place]
  | cons first pieces ih =>
    have sum : (gap ++ (first :: pieces).flatMap Piece.all).length =
        gap.length + first.bytes.length + (first.after ++ pieces.flatMap Piece.all).length := by
      simp only [flatMap_cons, Piece.all, length_append]
      omega
    rw [cons_append, place, place, ih, sum, add_ofNat, add_ofNat]
    rfl

theorem Strand.bytes_addPlain (strand : Strand φ κ) (bytes : List UInt8) :
    (strand.addPlain bytes).bytes = strand.bytes ++ bytes := by
  unfold addPlain
  split
  case isTrue none =>
    have none : strand.pieces = [] := by simpa using none
    simp [Strand.bytes, none]
  case isFalse some =>
    have some : strand.pieces ≠ [] := by simpa using some
    rw [Strand.bytes, flatMap_addAfter bytes some, Strand.bytes, append_assoc]

theorem Strand.place_addPlain (strand : Strand φ κ) (bytes : List UInt8) (position : BitVec 64) :
    place position (strand.addPlain bytes).gap (strand.addPlain bytes).pieces =
      place position strand.gap strand.pieces := by
  unfold addPlain
  split
  case isTrue none =>
    have none : strand.pieces = [] := by simpa using none
    rw [none]
    rfl
  case isFalse => exact place_addAfter bytes position strand.gap strand.pieces

theorem Strand.bytes_addPiece (strand : Strand φ κ) (data : AuxiliaryData φ κ) (bytes : List UInt8) :
    (strand.addPiece data bytes).bytes = strand.bytes ++ bytes := by
  simp [addPiece, Strand.bytes, Piece.all]

theorem mem_addAfter {bytes : List UInt8} {piece : Piece φ κ}
    (member : piece ∈ addAfter bytes pieces) : ∃ before ∈ pieces, piece.bytes = before.bytes := by
  fun_induction addAfter bytes pieces with
  | case1 => cases member
  | case2 last =>
    obtain rfl := mem_singleton.mp member
    exact ⟨last, mem_singleton_self last, rfl⟩
  | case3 first next rest ih =>
    rcases mem_cons.mp member with rfl | later
    · exact ⟨piece, mem_cons_self, rfl⟩
    · obtain ⟨before, listed, same⟩ := ih later
      exact ⟨before, mem_cons_of_mem _ listed, same⟩

namespace Channel

variable {channel : Channel φ κ} {strand : Strand φ κ} {isSeqpacket needPassCred : Bool} {reader : UserReader}
  {auxData : AuxiliaryData φ κ} {current : κ} {bufSize : Nat} {bytes : List UInt8} {ring : RingBuffer UInt8}

def Accepted (ring : RingBuffer UInt8) (bytes data : List UInt8) : Except Errno Nat × RingBuffer UInt8 → Prop
  | (.error _, after) => after.head = ring.head ∧ Holds after bytes
  | (.ok len, after) => after.head = ring.head ∧ Holds after (bytes ++ data.take len) ∧ len ≤ data.length

theorem writeFallible_accepted (holds : Holds ring bytes) (reader : UserReader) :
    ∃ outcome, writeFallible ring reader = .ok outcome ∧ Accepted ring bytes reader.data outcome ∧
      ∀ len, outcome.1 = .ok len → len = min reader.data.length (ring.capacity - bytes.length) := by
  obtain ⟨after, ran, head, holds⟩ := holds.write reader
  refine ⟨_, ran, ?_⟩
  cases faulted : (reader.read (ring.capacity - bytes.length)).2.1 with
  | true =>
    rw [faulted, if_pos rfl, append_nil] at holds
    exact ⟨⟨head, holds⟩, by simp⟩
  | false =>
    have clear : faultWithin reader.fault (min reader.data.length (ring.capacity - bytes.length)) = none := by
      simpa [UserReader.read] using faulted
    have written : (reader.read (ring.capacity - bytes.length)).1 =
        reader.data.take (min reader.data.length (ring.capacity - bytes.length)) := by
      rw [UserReader.read]
      simp only [clear, Option.getD_none]
    have length : (reader.read (ring.capacity - bytes.length)).1.length =
        min reader.data.length (ring.capacity - bytes.length) := by
      rw [written, length_take]
      omega
    rw [faulted, if_neg (by simp), written] at holds
    rw [length]
    refine ⟨⟨head, holds, by omega⟩, ?_⟩
    intro len same
    exact (Except.ok.inj same).symm

theorem writeWith_accepted (isShutdown : Bool) {data : List UInt8} (holds : Holds ring bytes)
    {write : Checked (Except Errno Nat × RingBuffer UInt8)} {written : Except Errno Nat × RingBuffer UInt8}
    (ran : write = .ok written) (accepted : Accepted ring bytes data written) :
    ∃ outcome, writeWith isShutdown ring write = .ok outcome ∧ Accepted ring bytes data outcome ∧
      ∀ len, outcome.1 = .ok len → 0 < len ∧ written.1 = .ok len := by
  unfold writeWith
  split
  case isTrue => exact ⟨_, rfl, ⟨rfl, holds⟩, by simp⟩
  case isFalse =>
    subst ran
    rcases written with ⟨_ | len, after⟩
    · exact ⟨_, rfl, accepted, by simp⟩
    · obtain ⟨head, grown, bound⟩ := accepted
      by_cases zero : len = 0
      · subst zero
        rw [take_zero, append_nil] at grown
        exact ⟨(.error .eagain, after), rfl, ⟨head, grown⟩, by simp⟩
      · refine ⟨(.ok len, after), by simp [bind_ok, zero, pure_eq_ok], ⟨head, grown, bound⟩, ?_⟩
        intro other same
        obtain rfl := Except.ok.inj same
        exact ⟨by omega, rfl⟩

theorem Carries.writePayload (carries : channel.Carries strand) (isSeqpacket : Bool) (reader : UserReader) :
    ∃ outcome, channel.writePayload isSeqpacket reader = .ok outcome ∧
      Accepted channel.ring strand.bytes reader.data outcome ∧
      ∀ len, outcome.1 = .ok len → (reader.data ≠ [] → 0 < len) ∧
        (isSeqpacket = true → len = reader.data.length) := by
  unfold Channel.writePayload
  by_cases empty : reader.data = []
  · refine ⟨(.ok 0, channel.ring), by simp [empty, pure_eq_ok],
      ⟨rfl, by simpa using carries.holds, by simp⟩, ?_⟩
    intro len same
    obtain rfl := Except.ok.inj same
    exact ⟨fun some => absurd empty some, fun _ => by rw [empty]; rfl⟩
  · rw [if_neg (by simpa using empty), carries.holds.freeLen, bind_ok]
    by_cases short : (isSeqpacket && decide (channel.ring.capacity - strand.bytes.length < reader.data.length)) = true
    · rw [if_pos short]
      have nothing : Accepted channel.ring strand.bytes reader.data (.ok 0, channel.ring) :=
        ⟨rfl, by simpa using carries.holds, Nat.zero_le _⟩
      obtain ⟨outcome, ran, accepted, positive⟩ :=
        writeWith_accepted channel.isShutdown carries.holds rfl nothing
      refine ⟨outcome, ran, accepted, fun len same => ?_⟩
      obtain ⟨some, zero⟩ := positive len same
      have zero := Except.ok.inj zero
      omega
    · rw [if_neg short]
      obtain ⟨written, ran, accepted, least⟩ := writeFallible_accepted carries.holds reader
      obtain ⟨outcome, ran, accepted, positive⟩ :=
        writeWith_accepted channel.isShutdown carries.holds ran accepted
      refine ⟨outcome, ran, accepted, fun len same => ?_⟩
      obtain ⟨some, whole⟩ := positive len same
      have least := least len whole
      refine ⟨fun _ => some, ?_⟩
      rintro rfl
      have enough : ¬channel.ring.capacity - strand.bytes.length < reader.data.length := by simpa using short
      omega

inductive Wrote (strand : Strand φ κ) (isSeqpacket : Bool) (data : List UInt8) (files : List φ) :
    Except Errno Nat → Strand φ κ → Prop
  | failed (errno : Errno) : Wrote strand isSeqpacket data files (.error errno) strand
  | empty (stream : isSeqpacket = false) (none : data = []) : Wrote strand isSeqpacket data files (.ok 0) strand
  | plain {len : Nat} (stream : isSeqpacket = false) (some : 0 < len) (bound : len ≤ data.length)
    (none : files = []) : Wrote strand isSeqpacket data files (.ok len) (strand.addPlain (data.take len))
  | marked {len : Nat} {aux : AuxiliaryData φ κ} (some : isSeqpacket = false → 0 < len)
      (bound : len ≤ data.length)
    (whole : isSeqpacket = true → len = data.length) (own : aux.files = files) :
    Wrote strand isSeqpacket data files (.ok len) (strand.addPiece aux (data.take len))

theorem Carries.tryWrite (carries : channel.Carries strand) : ∃ result left after next,
      channel.tryWrite bufSize isSeqpacket needPassCred reader auxData current = .ok (result, left, after) ∧
      Wrote strand isSeqpacket reader.data auxData.files result next ∧ after.Carries next ∧
      after.isShutdown = channel.isShutdown := by
  unfold Channel.tryWrite
  dsimp only
  split
  · exact ⟨_, _, _, strand, rfl, .failed _, carries, rfl⟩
  by_cases nothing : (reader.data.isEmpty && !isSeqpacket) = true
  · rw [if_pos nothing]
    obtain ⟨none, stream⟩ : reader.data = [] ∧ isSeqpacket = false := by simpa using nothing
    exact ⟨_, _, _, strand, rfl, .empty stream none, carries, rfl⟩
  rw [if_neg nothing]
  split
  · exact ⟨_, _, _, strand, rfl, .failed _, carries, rfl⟩
  by_cases fast : (auxData.isEmpty && !isSeqpacket && !needPassCred) = true
  · rw [if_pos fast]
    obtain ⟨⟨noAux, stream⟩, _⟩ : (auxData.isEmpty = true ∧ isSeqpacket = false) ∧
      needPassCred = false := by
      simpa using fast
    have noFiles : auxData.files = [] := by
      have both : auxData.files = [] ∧ auxData.cred = none := by simpa [AuxiliaryData.isEmpty] using noAux
      exact both.1
    obtain ⟨written, ran, accepted, _⟩ := writeFallible_accepted carries.holds reader
    obtain ⟨⟨result, ring⟩, ran, accepted, positive⟩ :=
      writeWith_accepted channel.isShutdown carries.holds ran accepted
    rw [ran, bind_ok]
    cases result with
    | error errno =>
      obtain ⟨head, holds⟩ := accepted
      exact ⟨_, _, _, strand, rfl, .failed _, ⟨holds, by rw [head]; exact carries.allAux, carries.hasAux⟩, rfl⟩
    | ok len =>
      obtain ⟨head, holds, bound⟩ := accepted
      refine ⟨_, _, _, _, rfl, .plain stream (positive len rfl).1 bound noFiles, ⟨?_, ?_, carries.hasAux⟩, rfl⟩
      · rw [Strand.bytes_addPlain]
        exact holds
      · rw [head, Strand.place_addPlain]
        exact carries.allAux
  rw [if_neg fast]
  obtain ⟨⟨result, ring⟩, ran, accepted, amount⟩ := carries.writePayload isSeqpacket reader
  rw [ran, bind_ok]
  cases result with
  | error errno =>
    obtain ⟨head, holds⟩ := accepted
    exact ⟨_, _, _, strand, rfl, .failed _, ⟨holds, by rw [head]; exact carries.allAux, rfl⟩, rfl⟩
  | ok len =>
    obtain ⟨head, holds, bound⟩ := accepted
    obtain ⟨some, whole⟩ := amount len rfl
    have length : (reader.data.take len).length = len := by rw [length_take]; omega
    refine ⟨_, _, _, strand.addPiece (if needPassCred then auxData.fillCred current else auxData)
      (reader.data.take len), rfl, .marked (fun stream => some ?_) bound whole ?_, ⟨?_, ?_, by simp⟩, rfl⟩
    · intro none
      exact nothing (by simp [none, stream])
    · split <;> rfl
    · rw [Strand.bytes_addPiece]
      exact holds
    · have tail := channel.ring.tail_eq
      rw [carries.holds.len] at tail
      dsimp only
      rw [head, carries.allAux, Strand.addPiece, place_append, tail, length]
      rfl

section Wrote

variable {data : List UInt8} {files : List φ} {result : Except Errno Nat} {next : Strand φ κ}
  (wrote : Wrote strand isSeqpacket data files result next)

include wrote

theorem Wrote.filled (some : isSeqpacket = false ∨ data ≠ []) (shaped : strand.Shaped false) :
    next.Shaped false := by
  cases wrote with
  | failed => exact shaped
  | empty => exact shaped
  | plain =>
    intro piece member
    unfold Strand.addPlain at member
    split at member
    case isTrue => cases member
    case isFalse =>
      obtain ⟨before, listed, same⟩ := mem_addAfter member
      rw [same]
      exact shaped before listed
  | @marked len aux positive bound whole own =>
    have filled : data.take len ≠ [] := by
      rw [← length_pos_iff, length_take]
      cases isSeqpacket with
      | false =>
        have := positive rfl
        omega
      | true =>
        have := length_pos_iff.mpr (some.resolve_left Bool.noConfusion)
        have := whole rfl
        omega
    exact forall_mem_append.mpr ⟨shaped, forall_mem_singleton.mpr filled⟩

theorem Wrote.shaped (shaped : strand.Shaped isSeqpacket) : next.Shaped isSeqpacket := by
  cases isSeqpacket with
  | false => exact wrote.filled (.inl rfl) shaped
  | true =>
    cases wrote with
    | failed => exact shaped
    | marked => exact ⟨shaped.1, forall_mem_append.mpr ⟨shaped.2, forall_mem_singleton.mpr rfl⟩⟩
    | plain stream => cases stream
    | empty stream => cases stream

end Wrote

end Channel

theorem Takes.shaped {isShutdown isSeqpacket : Bool} {strand rest : Strand φ κ} {count len : Nat}
    {last : Option (AuxiliaryData φ κ)} (takes : Takes isShutdown strand.gap strand.pieces count len last rest)
    (shaped : strand.Shaped isSeqpacket) : rest.Shaped isSeqpacket := by
  rcases strand with ⟨gap, pieces⟩
  dsimp only at takes
  induction takes with
  | @gap gap pieces len inside =>
    cases isSeqpacket with
    | false => exact shaped
    | true =>
      obtain ⟨rfl, bare⟩ : gap = [] ∧ ∀ piece ∈ pieces, piece.after = [] := shaped
      exact ⟨drop_nil, bare⟩
  | @part gap piece pieces len inside began =>
    cases isSeqpacket with
    | false =>
      obtain ⟨_, others⟩ := forall_mem_cons.mp shaped
      refine forall_mem_cons.mpr ⟨?_, others⟩
      rw [← length_pos_iff, length_drop]
      omega
    | true => exact ⟨rfl, forall_mem_cons.mpr ⟨shaped.2 piece mem_cons_self,
        (forall_mem_cons.mp shaped.2).2⟩⟩
  | @whole gap piece pieces =>
    cases isSeqpacket with
    | false => exact (forall_mem_cons.mp shaped).2
    | true => exact ⟨shaped.2 piece mem_cons_self, (forall_mem_cons.mp shaped.2).2⟩
  | @next gap piece pieces count len last rest quiet takes ih =>
    cases isSeqpacket with
    | false => exact ih (forall_mem_cons.mp shaped).2
    | true => exact ih ⟨shaped.2 piece mem_cons_self, (forall_mem_cons.mp shaped.2).2⟩

end Kei.Unix
