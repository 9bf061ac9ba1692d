import Kei.Unix.Connected
import Kei.Spsc.Fifo

/-! Copies between the ring and user buffers: a copy in two parts is one copy of the whole, and
bytes that a fault leaves in the free slots are not seen. -/

namespace Kei.Unix

open Library Checked Kei.Spsc Cyclic List Option Nat

structure Holds (ring : RingBuffer UInt8) (bytes : List UInt8) : Prop where
  len : ring.len = bytes.length
  view : bytes <+: ring.view

namespace UserWriter

theorem faultWithin_map_sub {fault : Option Nat} {done : Nat} (passed : faultWithin fault done = none) (len : Nat) :
    faultWithin (fault.map (· - done)) len = (faultWithin fault (done + len)).map (· - done) := by
  cases fault with
  | none => rfl
  | some before =>
    simp only [faultWithin, filter_some, map_some] at *
    have passed : ¬before < done := by simpa using passed
    by_cases within : before < done + len
    · rw [if_pos (by simpa using (by omega : before - done < len)), if_pos (by simpa using within)]
      rfl
    · rw [if_neg (by simpa using (by omega : ¬before - done < len)), if_neg (by simpa using within)]
      rfl

theorem faultWithin_mono {fault : Option Nat} {len more before : Nat} (found : faultWithin fault len = some before)
    (order : len ≤ more) : faultWithin fault more = some before := by
  rw [faultWithin, filter_eq_some_iff] at *
  exact ⟨found.1, by simpa using (by simpa using found.2 : before < len).trans_le order⟩

theorem advance_advance (writer : UserWriter) (first second : List UInt8) :
    (writer.advance first).advance second = writer.advance (first ++ second) := by
  cases writer with
  | mk avail fault copied =>
    have same : fault.map ((fun left => left - second.length) ∘ fun left => left - first.length) =
        fault.map fun left => left - (first.length + second.length) :=
      map_congr fun left _ => Nat.sub_sub left _ _
    simp only [advance, length_append, append_assoc, Option.map_map, Nat.sub_sub, same]

theorem write_fault {writer : UserWriter} {bytes : List UInt8} {before : Nat}
    (found : faultWithin writer.fault (min writer.avail bytes.length) = some before) :
    writer.write bytes = (.error .efault, writer.advance (bytes.take before)) := by
  simp only [write, found]

theorem write_ok {writer : UserWriter} {bytes : List UInt8}
    (found : faultWithin writer.fault (min writer.avail bytes.length) = none) :
    writer.write bytes = (.ok (min writer.avail bytes.length),
      writer.advance (bytes.take (min writer.avail bytes.length))) := by
  simp only [write, found]

theorem faultWithin_past {fault : Option Nat} {len more before : Nat} (clear : faultWithin fault len = none)
    (found : faultWithin fault more = some before) : len ≤ before := by
  by_contra early
  have within : faultWithin fault len = some before :=
    filter_eq_some_iff.mpr ⟨(filter_eq_some_iff.mp found).1, by simpa using early⟩
  rw [clear] at within
  cases within

theorem write_append (writer : UserWriter) (first second : List UInt8) :
    writer.write (first ++ second) = match writer.write first with
      | (.error errno, writer) => (.error errno, writer)
      | (.ok readLen, writer) => match writer.write second with
        | (.error errno, writer) => (.error errno, writer)
        | (.ok more, writer) => (.ok (readLen + more), writer) := by
  obtain ⟨done, front⟩ : ∃ done, done = min writer.avail first.length := ⟨_, rfl⟩
  have lens : min writer.avail (first ++ second).length = done + min (writer.avail - done) second.length := by
    rw [length_append]
    omega
  have taken : (first.take done).length = done := by
    rw [length_take]
    omega
  cases found : faultWithin writer.fault done with
  | some before =>
    have within : before < done := by simpa using (filter_eq_some_iff.mp found).2
    have whole := faultWithin_mono found (le_trans (le_add_right _ _) (le_of_eq lens.symm))
    rw [front] at found
    rw [write_fault found, write_fault whole, take_append_of_le_length (by omega)]
  | none =>
    have rest := faultWithin_map_sub found (min (writer.avail - done) second.length)
    rw [← lens] at rest
    have split : ∀ count, count ≤ min (writer.avail - done) second.length →
        (first ++ second).take (done + count) = first.take done ++ second.take count := by
      intro count bound
      rcases le_total first.length writer.avail with room | full
      · rw [front, min_eq_right room, take_length, take_length_add_append]
      · obtain rfl : count = 0 := by omega
        rw [add_zero, take_append_of_le_length (by omega), take_zero, append_nil]
    have ran := write_ok (by rw [← front]; exact found)
    rw [← front] at ran
    rw [ran]
    have avail : (writer.advance (first.take done)).avail = writer.avail - done := by rw [advance, taken]
    have fault : (writer.advance (first.take done)).fault = writer.fault.map (· - done) := by rw [advance, taken]
    cases later : faultWithin writer.fault (min writer.avail (first ++ second).length) with
    | some before =>
      have past := faultWithin_past found later
      have within : before < min writer.avail (first ++ second).length := by
        simpa using (filter_eq_some_iff.mp later).2
      rw [later, map_some, ← fault, ← avail] at rest
      simp only [write_fault rest, write_fault later]
      have cut := split (before - done) (by omega)
      rw [Nat.add_sub_cancel' past] at cut
      rw [advance_advance, cut]
    | none =>
      rw [later, map_none, ← fault, ← avail] at rest
      simp only [write_ok rest, write_ok later]
      rw [advance_advance, avail, lens, split _ (le_refl _)]

end UserWriter

namespace Holds

variable {ring : RingBuffer UInt8} {bytes : List UInt8}

theorem represents (holds : Holds ring bytes) :
    ring.Represents ⟨bytes, ring.view.drop bytes.length, [], []⟩ where
  len := holds.len
  view := by
    obtain ⟨beyond, same⟩ := holds.view
    rw [← same, drop_left]

theorem of_represents {fifo : Fifo UInt8} (represents : ring.Represents fifo) : Holds ring fifo.queue where
  len := represents.len
  view := ⟨fifo.beyond, represents.view.symm⟩

section

variable (holds : Holds ring bytes)
include holds

theorem length_le : bytes.length ≤ ring.capacity := by
  rw [← ring.length_view]
  exact holds.view.length_le

theorem freeLen : ring.freeLen = .ok (ring.capacity - bytes.length) := by
  rw [RingBuffer.freeLen, holds.len, sub_ok holds.length_le]

theorem commitRead {len : Nat} (enough : len ≤ bytes.length) :
    ring.commitRead len = .ok (ring.advanceHead ring.head len) ∧
      Holds (ring.advanceHead ring.head len) (bytes.drop len) := by
  constructor
  · rw [RingBuffer.commitRead, Checked.assert, holds.len, if_pos (by simpa using enough)]
    rfl
  · exact of_represents (holds.represents.dequeue enough)

theorem pick {skip len : Nat} (inside : skip + len ≤ bytes.length) (writer : UserWriter) :
    pickFallible ring (ring.head + BitVec.ofNat 64 skip)
        (ring.head + BitVec.ofNat 64 skip + BitVec.ofNat 64 len) writer =
      .ok (writer.write ((bytes.drop skip).take len)) := by
  have capacity := ring.capacity_lt
  have fits := holds.length_le
  have filled := ring.filled
  generalize place : ring.head + BitVec.ofNat 64 skip = start
  have length : (start + BitVec.ofNat 64 len - start).toNat = len := by
    rw [add_sub_cancel_left, BitVec.toNat_ofNat, mod_eq_of_lt (by omega)]
  have before := ring.offset_lt start
  have around : readAround ring.segment (ring.offset start) len = (bytes.drop skip).take len := by
    obtain ⟨beyond, same⟩ := holds.view
    have total := congrArg List.length same
    rw [length_append, ring.length_view] at total
    rw [readAround_eq (by omega) (by omega), ← place, RingBuffer.offset_add, ← ring.filled, rotate_mod,
      ← rotate_rotate]
    show (ring.view.rotate skip).take len = _
    rw [← same, rotate_eq_drop_append_take (by rw [length_append]; omega),
      take_append_of_le_length (by rw [length_drop, length_append]; omega),
      drop_append_of_le_length (by omega), take_append_of_le_length (by rw [length_drop]; omega)]
  have read := ring.readSlice_around before (by omega : len ≤ ring.capacity)
  unfold pickFallible
  simp only [length]
  split at read
  case isTrue wraps =>
    obtain ⟨first, second, ranFirst, ranSecond, joined⟩ := read
    rw [if_pos wraps, ranFirst, bind_ok, ← around, joined, UserWriter.write_append]
    rcases writer.write first with ⟨_ | readLen, after⟩
    · rfl
    · simp only [ranSecond, bind_ok]
      rcases after.write second with ⟨_ | more, final⟩
      · rfl
      · rfl
  case isFalse short =>
    rw [if_neg short, read, bind_ok, around]
    rfl

theorem lay {written : RingBuffer UInt8} {items : List UInt8} (room : items.length ≤ ring.capacity - bytes.length)
    (head : written.head = ring.head) (tail : written.tail = ring.tail)
    (segment : written.segment = writeAround ring.segment (ring.offset ring.tail) items) :
    Holds written bytes ∧ ∃ after, written.commitWrite items.length = .ok after ∧ after.head = ring.head ∧
      Holds after (bytes ++ items) := by
  have fits := holds.length_le
  have filled := ring.filled
  have before := ring.offset_lt ring.tail
  have free : (ring.view.drop bytes.length).length = ring.capacity - bytes.length := by
    rw [length_drop, ring.length_view]
  have represents := holds.represents
  have laid := represents.laid (by rw [free]; exact room) head segment
  have seen : Holds written bytes := by
    refine ⟨by rw [RingBuffer.len, head, tail]; exact holds.len, ?_⟩
    obtain ⟨beyond, same⟩ := holds.view
    rw [laid, overlay, ← same, holds.len, take_left, append_assoc]
    exact ⟨_, rfl⟩
  have capacity : written.capacity = ring.capacity := by
    apply RingBuffer.capacity_eq_of_segment
    rw [segment, length_writeAround (by omega) (by omega)]
  refine ⟨seen, written.advanceTail ring.tail items.length, ?_, head, ?_⟩
  · rw [RingBuffer.commitWrite, seen.freeLen, bind_ok, Checked.assert, capacity, if_pos (by simpa using room), tail]
    rfl
  · exact of_represents (represents.enqueue (by rw [free]; exact room) head tail laid)

end

theorem read_read {reader : UserReader} {room : Nat} (unharmed : (reader.read room).2.1 = false) (more : Nat) :
    (reader.read room).1 ++ ((reader.read room).2.2.read more).1 = (reader.read (room + more)).1 ∧
      ((reader.read room).2.2.read more).2.1 = (reader.read (room + more)).2.1 := by
  have clear : faultWithin reader.fault (min reader.data.length room) = none := by
    simpa [UserReader.read] using unharmed
  have rest := UserWriter.faultWithin_map_sub clear (min (reader.data.length - min reader.data.length room) more)
  have lens : min reader.data.length room + min (reader.data.length - min reader.data.length room) more =
      min reader.data.length (room + more) := by omega
  rw [lens] at rest
  simp only [UserReader.read, clear, getD_none, length_drop, rest]
  cases found : faultWithin reader.fault (min reader.data.length (room + more)) with
  | none =>
    refine ⟨?_, rfl⟩
    rw [map_none, getD_none, getD_none, ← lens, take_add]
  | some before =>
    refine ⟨?_, rfl⟩
    have past := UserWriter.faultWithin_past clear found
    rw [map_some, getD_some, getD_some, ← take_add, Nat.add_sub_cancel' past]

theorem length_read_le (reader : UserReader) (room : Nat) :
    (reader.read room).1.length ≤ min reader.data.length room := by
  simp only [UserReader.read, length_take]
  cases found : faultWithin reader.fault (min reader.data.length room) with
  | none => exact min_le_left _ _
  | some before =>
    have within : before < min reader.data.length room := by simpa using (filter_eq_some_iff.mp found).2
    rw [getD_some]
    omega

theorem faulted_of_le {reader : UserReader} {room more : Nat} (order : room ≤ more)
    (faulted : (reader.read room).2.1 = true) : (reader.read more).2.1 = true := by
  simp only [UserReader.read, isSome_iff_exists] at *
  obtain ⟨before, found⟩ := faulted
  exact ⟨before, UserWriter.faultWithin_mono found (by omega)⟩

theorem write (holds : Holds ring bytes) (reader : UserReader) :
    ∃ after, writeFallible ring reader = .ok (
        if (reader.read (ring.capacity - bytes.length)).2.1 then .error .efault
        else .ok (reader.read (ring.capacity - bytes.length)).1.length, after) ∧
      after.head = ring.head ∧
      Holds after (bytes ++ if (reader.read (ring.capacity - bytes.length)).2.1 then []
        else (reader.read (ring.capacity - bytes.length)).1) := by
  have filled := ring.filled
  have before := ring.offset_lt ring.tail
  have fits := holds.length_le
  unfold writeFallible
  rw [holds.freeLen, bind_ok]
  dsimp only
  generalize free : ring.capacity - bytes.length = room
  split
  case isFalse short =>
    have bound := length_read_le reader room
    obtain ⟨written, ran, head, tail, segment⟩ :=
      @RingBuffer.writeSlice_ok _ ring (ring.offset ring.tail) (reader.read room).1 (by omega)
    have segment : written.segment = writeAround ring.segment (ring.offset ring.tail)
        (reader.read room).1 := by
      rw [segment, writeAround, if_neg (by omega)]
    obtain ⟨seen, after, committed, sameHead, grown⟩ := holds.lay (by omega) head tail segment
    rw [ran, bind_ok]
    cases (reader.read room).2.1 with
    | true => exact ⟨written, rfl, head, by simpa using seen⟩
    | false =>
      refine ⟨after, ?_, sameHead, by simpa using grown⟩
      simp only [Bool.false_eq_true, if_false, committed, bind_ok, pure_eq_ok]
  case isTrue wraps =>
    generalize edge : ring.capacity - ring.offset ring.tail = front
    have bound := length_read_le reader front
    obtain ⟨first, ran, head, tail, segment⟩ := @RingBuffer.writeSlice_ok _ ring (ring.offset ring.tail)
      (reader.read front).1 (by omega)
    have capacity : first.capacity = ring.capacity := by
      apply RingBuffer.capacity_eq_of_segment
      rw [segment, length_overlay (by omega)]
    rw [ran, bind_ok, capacity, edge]
    cases faulted : (reader.read front).2.1 with
    | true =>
      have alone : first.segment = writeAround ring.segment (ring.offset ring.tail)
          (reader.read front).1 := by
        rw [segment, writeAround, if_neg (by omega)]
      have seen := (holds.lay (by omega) head tail alone).1
      rw [faulted_of_le (by omega) faulted]
      exact ⟨first, rfl, head, by simpa using seen⟩
    | false =>
      obtain ⟨joined, same⟩ := read_read faulted (room - front)
      have rooms : front + (room - front) = room := by omega
      rw [rooms] at joined same
      have total := length_read_le reader room
      have lens := congrArg List.length joined
      rw [length_append] at lens
      obtain ⟨second, ranAgain, headAgain, tailAgain, segmentAgain⟩ := @RingBuffer.writeSlice_ok _ first 0
        ((reader.read front).2.2.read (room - front)).1 (by omega)
      have whole : second.segment = writeAround ring.segment (ring.offset ring.tail) (reader.read room).1 := by
        rw [segmentAgain, segment, ← joined]
        apply overlay_overlay (by omega) (by omega)
        have clear : faultWithin reader.fault (min reader.data.length front) = none := by
          simpa [UserReader.read] using faulted
        rcases le_total front reader.data.length with reaches | exhausted
        · left
          simp only [UserReader.read, clear, getD_none, length_take]
          omega
        · right
          rw [min_eq_left exhausted] at clear
          simp [UserReader.read, min_eq_left exhausted, clear]
      obtain ⟨seen, after, committed, sameHead, grown⟩ :=
        holds.lay (by omega) (headAgain.trans head) (tailAgain.trans tail) whole
      simp only [Bool.false_eq_true, if_false, ranAgain, bind_ok, same]
      cases (reader.read room).2.1 with
      | true => exact ⟨second, rfl, headAgain.trans head, by simpa using seen⟩
      | false =>
        refine ⟨after, ?_, sameHead, by simpa using grown⟩
        simp only [Bool.false_eq_true, if_false, lens, committed, bind_ok, pure_eq_ok]

end Holds

end Kei.Unix
