import Kei.Spsc.RingBuffer
import Mathlib.Data.BitVec

/-! The ring buffer as a bounded queue. The ring, seen from the head, is the queue followed by
the free slots, and the counters say no more than where one ends and the other begins. -/

namespace Kei.Spsc

open Library Checked Cyclic List

/-- A bounded queue: the items in it, what the free slots hold, and the items that ever went in and came out. -/
structure Fifo (α : Type) where
  queue : List α
  beyond : List α
  pushed : List α
  taken : List α

namespace Fifo

variable {α : Type}

def enqueue (fifo : Fifo α) (items : List α) : Fifo α where
  queue := fifo.queue ++ items
  beyond := fifo.beyond.drop items.length
  pushed := fifo.pushed ++ items
  taken := fifo.taken

def dequeue (fifo : Fifo α) (count : Nat) : Fifo α where
  queue := fifo.queue.drop count
  beyond := fifo.beyond ++ fifo.queue.take count
  pushed := fifo.pushed
  taken := fifo.taken ++ fifo.queue.take count

def perform (fifo : Fifo α) : Request α → Checked (Response α × Fifo α)
  | .push item =>
    if fifo.beyond.length < 1 then .ok (.refused, fifo) else .ok (.done, fifo.enqueue [item])
  | .pushSlice items =>
    if fifo.beyond.length < items.length then .ok (.refused, fifo) else .ok (.done, fifo.enqueue items)
  | .fill position item =>
    if position < fifo.beyond.length then .ok (.done, { fifo with beyond := fifo.beyond.set position item })
    else .error .assertFailed
  | .commitWrite len =>
    if len ≤ fifo.beyond.length then .ok (.done, fifo.enqueue (fifo.beyond.take len)) else .error .assertFailed
  | .pop =>
    if fifo.queue.length < 1 then .ok (.refused, fifo) else .ok (.items (fifo.queue.take 1), fifo.dequeue 1)
  | .popSlice nitems =>
    if fifo.queue.length < nitems then .ok (.refused, fifo)
    else .ok (.items (fifo.queue.take nitems), fifo.dequeue nitems)
  | .skip count => if count ≤ fifo.queue.length then .ok (.done, fifo.dequeue count) else .error .assertFailed
  | .clear => .ok (.done, fifo.dequeue fifo.queue.length)
  | .commitRead len => if len ≤ fifo.queue.length then .ok (.done, fifo.dequeue len) else .error .assertFailed

def run : Fifo α → List (Request α) → Checked (List (Response α) × Fifo α) := feed perform

def Conserves (fifo : Fifo α) : Prop := fifo.pushed = fifo.taken ++ fifo.queue

variable {fifo after : Fifo α}

variable (conserves : fifo.Conserves)
include conserves

theorem enqueue_conserves (items : List α) : (fifo.enqueue items).Conserves := by
  show fifo.pushed ++ items = fifo.taken ++ (fifo.queue ++ items)
  rw [conserves, append_assoc]

theorem dequeue_conserves (count : Nat) : (fifo.dequeue count).Conserves := by
  show fifo.pushed = fifo.taken ++ fifo.queue.take count ++ fifo.queue.drop count
  rw [append_assoc, take_append_drop]
  exact conserves

theorem perform_conserves (request : Request α) :
    Ensures (fifo.perform request) fun (_, after) => after.Conserves := by
  cases request with
  | push item => exact meets_ite (fun _ => conserves) fun _ => enqueue_conserves conserves _
  | pushSlice items => exact meets_ite (fun _ => conserves) fun _ => enqueue_conserves conserves _
  | fill position item => exact meets_ite (fun _ => conserves) fun _ => trivial
  | commitWrite len => exact meets_ite (fun _ => enqueue_conserves conserves _) fun _ => trivial
  | pop => exact meets_ite (fun _ => conserves) fun _ => dequeue_conserves conserves _
  | popSlice nitems => exact meets_ite (fun _ => conserves) fun _ => dequeue_conserves conserves _
  | skip count => exact meets_ite (fun _ => dequeue_conserves conserves _) fun _ => trivial
  | clear => exact dequeue_conserves conserves _
  | commitRead len => exact meets_ite (fun _ => dequeue_conserves conserves _) fun _ => trivial

theorem run_conserves (requests : List (Request α)) :
    Ensures (fifo.run requests) fun (_, after) => after.Conserves :=
  feed_meets Conserves (fun _ request kept => perform_conserves kept request) conserves requests

end Fifo

namespace RingBuffer

variable {α : Type} {rb : RingBuffer α} {fifo : Fifo α}

theorem offset_eq (rb : RingBuffer α) (counter : BitVec 64) : rb.offset counter = counter.toNat % rb.capacity := by
  obtain ⟨exponent, _, power⟩ := rb.powerOfTwo
  unfold offset
  rw [power, Nat.and_two_pow_sub_one_eq_mod]

theorem capacity_pos (rb : RingBuffer α) : 0 < rb.capacity := by
  obtain ⟨exponent, _, power⟩ := rb.powerOfTwo
  rw [power]
  exact Nat.two_pow_pos _

theorem capacity_lt (rb : RingBuffer α) : rb.capacity < 2 ^ 64 := by
  obtain ⟨exponent, small, power⟩ := rb.powerOfTwo
  rw [power]
  exact Nat.pow_lt_pow_right (by omega) small

theorem offset_lt (rb : RingBuffer α) (counter : BitVec 64) : rb.offset counter < rb.capacity := by
  rw [offset_eq]
  exact Nat.mod_lt _ rb.capacity_pos

theorem offset_add (rb : RingBuffer α) (counter : BitVec 64) (count : Nat) :
    rb.offset (counter + BitVec.ofNat 64 count) = (rb.offset counter + count) % rb.capacity := by
  have divides : rb.capacity ∣ 2 ^ 64 := by
    obtain ⟨exponent, small, power⟩ := rb.powerOfTwo
    rw [power]
    exact Nat.pow_dvd_pow 2 (by omega)
  rw [offset_eq, offset_eq, BitVec.toNat_add, BitVec.toNat_ofNat, Nat.mod_mod_of_dvd _ divides, Nat.add_mod,
    Nat.mod_mod_of_dvd _ divides, ← Nat.add_mod, Nat.mod_add_mod]

theorem tail_eq (rb : RingBuffer α) : rb.tail = rb.head + BitVec.ofNat 64 rb.len := by
  unfold len
  rw [BitVec.ofNat_toNat, BitVec.setWidth_eq, add_sub_cancel]

variable {count : Nat}

theorem len_advanceTail (room : rb.len + count < 2 ^ 64) :
    (rb.advanceTail rb.tail count).len = rb.len + count := by
  show (rb.tail + BitVec.ofNat 64 count - rb.head).toNat = (rb.tail - rb.head).toNat + count
  rw [add_sub_right_comm, BitVec.toNat_add, BitVec.toNat_ofNat, Nat.add_mod_mod]
  exact Nat.mod_eq_of_lt room

theorem len_advanceHead (enough : count ≤ rb.len) :
    (rb.advanceHead rb.head count).len = rb.len - count := by
  have small : rb.len < 2 ^ 64 := (rb.tail - rb.head).isLt
  have split : rb.tail - rb.head = BitVec.ofNat 64 (rb.len - count) + BitVec.ofNat 64 count := by
    rw [← BitVec.ofNat_add, Nat.sub_add_cancel enough]
    unfold len
    rw [BitVec.ofNat_toNat, BitVec.setWidth_eq]
  show (rb.tail - (rb.head + BitVec.ofNat 64 count)).toNat = rb.len - count
  rw [sub_add_eq_sub_sub, split, add_sub_cancel_right, BitVec.toNat_ofNat, Nat.mod_eq_of_lt (by omega)]

def view (rb : RingBuffer α) : List α := rb.segment.rotate (rb.offset rb.head)

theorem length_view (rb : RingBuffer α) : rb.view.length = rb.capacity := by
  rw [view, length_rotate, rb.filled]

structure Represents (rb : RingBuffer α) (fifo : Fifo α) : Prop where
  len : rb.len = fifo.queue.length
  view : rb.view = fifo.queue ++ fifo.beyond

theorem Represents.capacity (represents : rb.Represents fifo) :
    fifo.queue.length + fifo.beyond.length = rb.capacity := by
  rw [← length_append, ← represents.view, length_view]

theorem Represents.freeLen (represents : rb.Represents fifo) : rb.freeLen = .ok fifo.beyond.length := by
  have := represents.capacity
  unfold RingBuffer.freeLen
  rw [represents.len, sub_ok (by omega)]
  congr 1
  omega

theorem Represents.dequeue (represents : rb.Represents fifo) (enough : count ≤ fifo.queue.length) :
    (rb.advanceHead rb.head count).Represents (fifo.dequeue count) where
  len := by
    rw [len_advanceHead (by rw [represents.len]; exact enough), represents.len]
    show _ = (fifo.queue.drop count).length
    rw [length_drop]
  view := by
    have rotated : (rb.advanceHead rb.head count).view = rb.view.rotate count := by
      show rb.segment.rotate (rb.offset (rb.head + BitVec.ofNat 64 count)) = _
      rw [offset_add, ← rb.filled, rotate_mod, RingBuffer.view, rotate_rotate]
    rw [rotated, represents.view, rotate_eq_drop_append_take (by rw [length_append]; omega),
      drop_append_of_le_length enough, take_append_of_le_length enough, append_assoc]
    rfl

variable {written : RingBuffer α}

theorem Represents.enqueue {items : List α} (represents : rb.Represents fifo)
    (room : items.length ≤ fifo.beyond.length) (sameHead : written.head = rb.head) (sameTail : written.tail = rb.tail)
    (laid : written.view = overlay rb.view rb.len items) :
    (written.advanceTail rb.tail items.length).Represents (fifo.enqueue items) where
  len := by
    have small := rb.capacity_lt
    have := represents.capacity
    have same : written.len = rb.len := by rw [RingBuffer.len, RingBuffer.len, sameHead, sameTail]
    rw [← sameTail, len_advanceTail (by rw [same, represents.len]; omega), same, represents.len]
    exact length_append.symm
  view := by
    show written.view = _
    rw [laid, represents.view, represents.len, overlay, take_left, append_assoc,
      drop_append, drop_of_length_le (by omega), Nat.add_sub_cancel_left]
    simp [Fifo.enqueue]

theorem Represents.tail_offset (represents : rb.Represents fifo) :
    rb.offset rb.tail = (rb.offset rb.head + fifo.queue.length) % rb.segment.length := by
  rw [tail_eq, offset_add, represents.len, rb.filled]

theorem writeSlice_ok {offset : Nat} {items : List α} (fits : offset + items.length ≤ rb.capacity) :
    ∃ written, rb.writeSlice offset items = .ok written ∧ written.head = rb.head ∧ written.tail = rb.tail ∧
      written.segment = overlay rb.segment offset items := by
  unfold writeSlice
  rw [dif_pos fits]
  exact ⟨_, rfl, rfl, rfl, rfl⟩

theorem readSlice_around {offset count : Nat} (inside : offset < rb.capacity) (few : count ≤ rb.capacity) :
    if offset + count > rb.capacity then ∃ first second,
      rb.readSlice offset (rb.capacity - offset) = .ok first ∧
      rb.readSlice 0 (count - (rb.capacity - offset)) = .ok second ∧
      readAround rb.segment offset count = first ++ second
    else rb.readSlice offset count = .ok (readAround rb.segment offset count) := by
  have filled := rb.filled
  unfold readAround readSlice
  rw [filled]
  split
  · refine ⟨_, _, ?_, ?_, rfl⟩
    · rw [slice_ok (by omega) (by omega), take_of_length_le (by rw [length_drop]; omega)]
    · rw [slice_ok (by omega) (by omega), drop_zero, Nat.zero_add, Nat.sub_zero]
  · rw [slice_ok (by omega) (by omega), Nat.add_sub_cancel_left]

theorem capacity_eq_of_segment (same : written.segment.length = rb.segment.length) :
    written.capacity = rb.capacity := by
  rw [← written.filled, ← rb.filled, same]

theorem Represents.laid {items : List α} (represents : rb.Represents fifo)
    (room : items.length ≤ fifo.beyond.length) (sameHead : written.head = rb.head)
    (segment : written.segment = writeAround rb.segment (rb.offset rb.tail) items) :
    written.view = overlay rb.view rb.len items := by
  have total := represents.capacity
  have inside : rb.offset rb.head < rb.segment.length := by rw [rb.filled]; exact rb.offset_lt _
  have bound : fifo.queue.length + items.length ≤ rb.segment.length := by rw [rb.filled]; omega
  have sameOffset : written.offset written.head = rb.offset rb.head := by
    have same : written.capacity = rb.capacity := by
      refine capacity_eq_of_segment ?_
      rw [segment, length_writeAround (by rw [rb.filled]; exact (rb.offset_lt _).le) (by omega)]
    rw [sameHead, offset_eq, offset_eq, same]
  unfold RingBuffer.view
  rw [sameOffset, segment, represents.tail_offset, rotate_writeAround inside bound, represents.len]

theorem Represents.pushSlice (represents : rb.Represents fifo) (items : List α) :
    if fifo.beyond.length < items.length then rb.pushSlice items = .ok (rb, none)
    else ∃ after, rb.pushSlice items = .ok (after, some ()) ∧ after.Represents (fifo.enqueue items) ∧
      after.segment = writeAround rb.segment (rb.offset rb.tail) items := by
  unfold RingBuffer.pushSlice
  rw [represents.freeLen, bind_ok]
  split
  · rfl
  rename_i room
  have room : items.length ≤ fifo.beyond.length := by omega
  have total := represents.capacity
  have inside := rb.offset_lt rb.tail
  have filled := rb.filled
  dsimp only
  by_cases around : rb.offset rb.tail + items.length > rb.capacity
  · rw [if_pos around]
    obtain ⟨first, firstRan, firstHead, firstTail, firstSegment⟩ :=
      @writeSlice_ok _ rb (rb.offset rb.tail) (items.take (rb.capacity - rb.offset rb.tail)) (by
        rw [length_take]; omega)
    have firstLength : first.segment.length = rb.segment.length := by
      rw [firstSegment, length_overlay (by rw [length_take]; omega)]
    obtain ⟨second, secondRan, secondHead, secondTail, secondSegment⟩ :=
      @writeSlice_ok _ first 0 (items.drop (rb.capacity - rb.offset rb.tail)) (by
        rw [length_drop, capacity_eq_of_segment firstLength]; omega)
    rw [firstRan, bind_ok, secondRan, bind_ok]
    have segment : second.segment = writeAround rb.segment (rb.offset rb.tail) items := by
      rw [secondSegment, firstSegment, writeAround, if_pos (by rw [filled]; exact around), filled]
    have head := secondHead.trans firstHead
    exact ⟨_, rfl, represents.enqueue room head (secondTail.trans firstTail) (represents.laid room head segment),
      segment⟩
  · rw [if_neg around]
    obtain ⟨written, ran, head, tail, segment⟩ := @writeSlice_ok _ rb (rb.offset rb.tail) items (by omega)
    have segment : written.segment = writeAround rb.segment (rb.offset rb.tail) items := by
      rw [segment, writeAround, if_neg (by rw [filled]; exact around)]
    rw [ran, bind_ok]
    exact ⟨_, rfl, represents.enqueue room head tail (represents.laid room head segment), segment⟩

end RingBuffer

end Kei.Spsc
