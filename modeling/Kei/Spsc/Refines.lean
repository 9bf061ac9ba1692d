import Kei.Spsc.Fifo

/-! Every step of the ring buffer is a step of the bounded queue, and the slots that the two
sides touch are kept apart. -/

namespace Kei.Spsc

open Library Checked Cyclic List Nat

namespace RingBuffer

variable {α : Type} {rb : RingBuffer α} {fifo : Fifo α}

theorem perform_push (item : α) : rb.perform (.push item) = rb.perform (.pushSlice [item]) := by
  have inside := rb.offset_lt rb.tail
  rw [perform, perform, RingBuffer.push, RingBuffer.pushSlice, isFull]
  cases rb.freeLen with
  | error _ => rfl
  | ok free =>
    simp only [bind_ok, pure_eq_ok, length_singleton, beq_iff_eq, lt_one_iff,
      if_neg (show ¬rb.offset rb.tail + 1 > rb.capacity by omega)]

theorem perform_pop : rb.perform .pop = rb.perform (.popSlice 1) := by
  have inside := rb.offset_lt rb.head
  have within : rb.offset rb.head < rb.segment.length := by rw [rb.filled]; exact inside
  have first : rb.readSlice (rb.offset rb.head) 1 = .ok [rb.segment[rb.offset rb.head]] := by
    rw [readSlice, slice_ok (by omega) (by omega), Nat.add_sub_cancel_left, drop_eq_getElem_cons within,
      take_succ_cons, take_zero]
  rw [perform, perform, RingBuffer.pop, RingBuffer.popSlice, isEmpty]
  simp only [beq_iff_eq, lt_one_iff, first, index_getElem? (List.getElem?_eq_getElem within), bind_ok,
    if_neg (show ¬rb.offset rb.head + 1 > rb.capacity by omega)]
  split <;> rfl

section

variable (represents : rb.Represents fifo)
include represents

theorem Represents.fill (position : Nat) (item : α) : if position < fifo.beyond.length then
      ∃ after, rb.fill position item = .ok after ∧
        after.Represents { fifo with beyond := fifo.beyond.set position item } ∧
        after.segment = writeAround rb.segment (rb.offset (rb.tail + BitVec.ofNat 64 position)) [item]
    else rb.fill position item = .error .assertFailed := by
  unfold RingBuffer.fill
  rw [represents.freeLen, bind_ok]
  split
  · rename_i room
    have total := represents.capacity
    have filled := rb.filled
    have inside := rb.offset_lt (rb.tail + BitVec.ofNat 64 position)
    have slot : rb.offset (rb.tail + BitVec.ofNat 64 position) =
        (rb.offset rb.head + (fifo.queue.length + position)) % rb.segment.length := by
      rw [offset_add, represents.tail_offset, rb.filled, mod_add_mod, add_assoc]
    obtain ⟨written, ran, head, tail, segment⟩ :=
      @writeSlice_ok _ rb (rb.offset (rb.tail + BitVec.ofNat 64 position)) [item] inside
    simp only [assert, room, decide_true, if_true, bind_ok, ran]
    have around : written.segment =
        writeAround rb.segment (rb.offset (rb.tail + BitVec.ofNat 64 position)) [item] := by
      rw [segment, writeAround, if_neg (by rw [filled, length_singleton]; omega)]
    have sameCapacity : written.capacity = rb.capacity := by
      refine capacity_eq_of_segment ?_
      rw [segment, length_overlay (by rw [filled]; exact inside)]
    refine ⟨written, rfl, ⟨?_, ?_⟩, around⟩
    · rw [RingBuffer.len, head, tail]
      exact represents.len
    · have laid : written.view = overlay rb.view (fifo.queue.length + position) [item] := by
        rw [RingBuffer.view, head, offset_eq, sameCapacity, ← offset_eq, around, slot,
          rotate_writeAround (by rw [filled]; exact rb.offset_lt _)
            (by rw [filled, length_singleton]; omega)]
        rfl
      rw [laid, represents.view]
      refine ext_getElem? fun index => ?_
      rw [getElem?_overlay (by rw [length_append, length_singleton]; omega)]
      simp only [List.getElem?_append, List.getElem?_set, length_singleton]
      grind
  · rename_i full
    simp [assert, full, bind, Except.bind]

theorem Represents.popSlice (nitems : Nat) :
    if fifo.queue.length < nitems then rb.popSlice nitems = .ok (rb, none)
    else rb.popSlice nitems = .ok (rb.advanceHead rb.head nitems, some (fifo.queue.take nitems)) ∧
      (rb.advanceHead rb.head nitems).Represents (fifo.dequeue nitems) := by
  unfold RingBuffer.popSlice
  rw [represents.len]
  split
  · rfl
  rename_i enough
  have enough : nitems ≤ fifo.queue.length := by omega
  have total := represents.capacity
  have filled := rb.filled
  have inside := rb.offset_lt rb.head
  have items : readAround rb.segment (rb.offset rb.head) nitems = fifo.queue.take nitems := by
    rw [readAround_eq (by omega) (by omega)]
    show rb.view.take nitems = _
    rw [represents.view, take_append_of_le_length enough]
  have read := rb.readSlice_around inside (enough.trans (by omega))
  dsimp only
  split at read
  case isTrue around =>
    obtain ⟨first, second, ranFirst, ranSecond, joined⟩ := read
    rw [if_pos around, ranFirst, bind_ok, ranSecond, bind_ok, ← joined, items]
    exact ⟨rfl, represents.dequeue enough⟩
  case isFalse around =>
    rw [if_neg around, read, bind_ok, items]
    exact ⟨rfl, represents.dequeue enough⟩

theorem Represents.clear : rb.clear.Represents (fifo.dequeue fifo.queue.length) := by
  have same : rb.clear = rb.advanceHead rb.head fifo.queue.length := by
    rw [RingBuffer.clear, resetHead, advanceHead, ← represents.len, ← tail_eq]
  rw [same]
  exact represents.dequeue le_rfl

theorem Represents.commitWrite {len : Nat} (room : len ≤ fifo.beyond.length) :
    (rb.advanceTail rb.tail len).Represents (fifo.enqueue (fifo.beyond.take len)) := by
  have length : (fifo.beyond.take len).length = len := by rw [length_take]; omega
  have laid : rb.view = overlay rb.view rb.len (fifo.beyond.take len) := by
    rw [represents.view, represents.len, overlay, take_left, append_assoc, drop_append,
      drop_of_length_le (by omega), length, Nat.add_sub_cancel_left, nil_append, take_append_drop]
  have enqueued := represents.enqueue (by omega) rfl rfl laid
  rwa [length] at enqueued

end

theorem agree_checked {condition : Prop} [Decidable condition] {after : RingBuffer α} {next : Fifo α}
    (kept : condition → after.Represents next) :
    Agree Represents (do return (.done, ← (do assert condition; return after)))
      (if condition then .ok ((.done : Response α), next) else .error .assertFailed) := by
  split
  · rename_i holds
    exact .returns (by simp [assert, holds, bind_ok, pure_eq_ok]) rfl (kept holds)
  · rename_i fails
    exact .panics (by simp [assert, fails, bind, Except.bind]) rfl

theorem pushSlice_refines (represents : rb.Represents fifo) (items : List α) :
    Agree Represents (rb.perform (.pushSlice items)) (fifo.perform (.pushSlice items)) := by
  have outcome := represents.pushSlice items
  simp only [perform, Fifo.perform]
  by_cases full : fifo.beyond.length < items.length
  · rw [if_pos full] at outcome ⊢
    exact .returns (by rw [outcome]; rfl) rfl represents
  · rw [if_neg full] at outcome ⊢
    obtain ⟨after, ran, next, -⟩ := outcome
    exact .returns (by rw [ran]; rfl) rfl next

theorem popSlice_refines (represents : rb.Represents fifo) (nitems : Nat) :
    Agree Represents (rb.perform (.popSlice nitems)) (fifo.perform (.popSlice nitems)) := by
  have outcome := represents.popSlice nitems
  simp only [perform, Fifo.perform]
  by_cases few : fifo.queue.length < nitems
  · rw [if_pos few] at outcome ⊢
    exact .returns (by rw [outcome]; rfl) rfl represents
  · rw [if_neg few] at outcome ⊢
    obtain ⟨ran, next⟩ := outcome
    exact .returns (by rw [ran]; rfl) rfl next

theorem perform_refines (represents : rb.Represents fifo) (request : Request α) :
    Agree Represents (rb.perform request) (fifo.perform request) := by
  cases request with
  | push item =>
    rw [perform_push]
    exact pushSlice_refines represents [item]
  | pushSlice items => exact pushSlice_refines represents items
  | fill position item =>
    have outcome := represents.fill position item
    simp only [perform, Fifo.perform]
    by_cases room : position < fifo.beyond.length
    · rw [if_pos room] at outcome ⊢
      obtain ⟨after, ran, next, -⟩ := outcome
      exact .returns (by rw [ran]; rfl) rfl next
    · rw [if_neg room] at outcome ⊢
      exact .panics (by rw [outcome]; rfl) rfl
  | commitWrite len =>
    simp only [perform, Fifo.perform, RingBuffer.commitWrite, represents.freeLen, bind_ok]
    exact agree_checked represents.commitWrite
  | pop =>
    rw [perform_pop]
    exact popSlice_refines represents 1
  | popSlice nitems => exact popSlice_refines represents nitems
  | skip count =>
    simp only [perform, Fifo.perform, RingBuffer.skip, represents.len]
    exact agree_checked represents.dequeue
  | clear => exact .returns rfl rfl represents.clear
  | commitRead len =>
    simp only [perform, Fifo.perform, RingBuffer.commitRead, represents.len]
    exact agree_checked represents.dequeue

/-! Which slots a step touches. -/

def around (rb : RingBuffer α) (counter : BitVec 64) (count : Nat) : List Nat :=
  (List.range count).map fun index => (rb.offset counter + index) % rb.capacity

def unread (rb : RingBuffer α) : List Nat := rb.around rb.head rb.len

def writes (rb : RingBuffer α) : Request α → List Nat
  | .push _ => if rb.len + 1 ≤ rb.capacity then rb.around rb.tail 1 else []
  | .pushSlice items => if rb.len + items.length ≤ rb.capacity then rb.around rb.tail items.length else []
  | .fill position _ =>
    if rb.len + position < rb.capacity then rb.around (rb.tail + BitVec.ofNat 64 position) 1 else []
  | _ => []

def reads (rb : RingBuffer α) : Request α → List Nat
  | .pop => if 1 ≤ rb.len then rb.around rb.head 1 else []
  | .popSlice nitems => if nitems ≤ rb.len then rb.around rb.head nitems else []
  | _ => []

/-- A step changes no slot but those it is listed to write, and none of these is unread. What it hands over
are the contents of the slots it is listed to read, and all of these are unread. -/
structure Disciplined (rb : RingBuffer α) (request : Request α) : Prop where
  writes_free : ∀ slot ∈ rb.writes request, slot ∉ rb.unread
  reads_unread : ∀ slot ∈ rb.reads request, slot ∈ rb.unread
  frame : ∀ after response, rb.perform request = .ok (response, after) →
    ∀ slot, slot ∉ rb.writes request → after.segment[slot]? = rb.segment[slot]?
  handed : ∀ after items, rb.perform request = .ok (.items items, after) →
    items.map some = (rb.reads request).map fun slot => rb.segment[slot]?

theorem around_free {position count : Nat} (room : rb.len + position + count ≤ rb.capacity) :
    ∀ slot ∈ rb.around (rb.tail + BitVec.ofNat 64 position) count, slot ∉ rb.unread := by
  intro slot written read
  obtain ⟨later, laterBound, rfl⟩ := mem_map.mp written
  obtain ⟨earlier, earlierBound, same⟩ := mem_map.mp read
  rw [mem_range] at laterBound earlierBound
  rw [offset_add, tail_eq, offset_add, mod_add_mod, add_assoc _ position, mod_add_mod,
    add_assoc] at same
  have equal := Nat.ModEq.add_left_cancel' (rb.offset rb.head) (show Nat.ModEq rb.capacity _ _ from same)
  rw [Nat.ModEq, mod_eq_of_lt (by omega), mod_eq_of_lt (by omega)] at equal
  omega

theorem around_tail_free {count : Nat} (room : rb.len + count ≤ rb.capacity) :
    ∀ slot ∈ rb.around rb.tail count, slot ∉ rb.unread := by
  have here : rb.tail + BitVec.ofNat 64 0 = rb.tail := by simp
  have free := @around_free _ rb 0 count room
  rwa [here] at free

theorem around_head_unread {count : Nat} (enough : count ≤ rb.len) :
    ∀ slot ∈ rb.around rb.head count, slot ∈ rb.unread := by
  intro slot read
  obtain ⟨index, bound, rfl⟩ := mem_map.mp read
  exact mem_map.mpr ⟨index, mem_range.mpr (by have := mem_range.mp bound; omega), rfl⟩

theorem writeAround_frame {items : List α} {counter : BitVec 64} (bound : items.length ≤ rb.capacity) {slot : Nat}
    (outside : slot ∉ rb.around counter items.length) :
    (writeAround rb.segment (rb.offset counter) items)[slot]? = rb.segment[slot]? := by
  have inside := rb.offset_lt counter
  have filled := rb.filled
  by_cases within : slot < rb.capacity
  · rw [getElem?_writeAround (by omega) (by omega) (by omega)]
    refine if_neg fun near => outside (mem_map.mpr ⟨_, mem_range.mpr near, ?_⟩)
    unfold distance
    rw [filled]
    split
    · rw [Nat.add_sub_cancel' ‹_›, Nat.mod_eq_of_lt within]
    · rw [show rb.offset counter + (slot + rb.capacity - rb.offset counter) = slot + rb.capacity by omega,
        add_mod_right, mod_eq_of_lt within]
  · rw [List.getElem?_eq_none (by rw [length_writeAround (by omega) (by omega)]; omega),
      List.getElem?_eq_none (by omega)]

theorem Represents.read_contents (represents : rb.Represents fifo) {count : Nat}
    (enough : count ≤ fifo.queue.length) :
    (fifo.queue.take count).map some = (rb.around rb.head count).map fun slot => rb.segment[slot]? := by
  have total := represents.capacity
  refine ext_getElem? fun index => ?_
  by_cases within : index < count
  · have seen : rb.view[index]? = fifo.queue[index]? := by
      rw [represents.view, List.getElem?_append_left (by omega)]
    rw [RingBuffer.view, List.getElem?_rotate (by rw [rb.filled]; omega), rb.filled, add_comm] at seen
    simp only [around, map_map, List.getElem?_map, List.getElem?_take_of_lt within,
      List.getElem?_range within, Option.map_some, Function.comp_apply, seen]
    rw [List.getElem?_eq_getElem (by omega), Option.map_some]
  · rw [List.getElem?_eq_none (by rw [length_map, length_take]; omega),
      List.getElem?_eq_none (by rw [around, length_map, length_map, length_range]; omega)]

section Shapes

variable {request : Request α} {after : RingBuffer α} {items : List α} {counter : BitVec 64} {count : Nat}

theorem disciplined_of_same (noWrites : rb.writes request = []) (noReads : rb.reads request = [])
    (same : ∀ after response, rb.perform request = .ok (response, after) →
      after.segment = rb.segment ∧ ∀ items, response ≠ .items items) : rb.Disciplined request where
  writes_free := by simp [noWrites]
  reads_unread := by simp [noReads]
  frame := fun after response ran slot _ => by rw [(same after response ran).1]
  handed := fun after items ran => absurd rfl ((same after _ ran).2 items)

theorem disciplined_of_checked {condition : Bool} (noWrites : rb.writes request = [])
    (noReads : rb.reads request = [])
    (ran : rb.perform request = do return (.done, ← (do assert condition; return after)))
    (same : after.segment = rb.segment) : rb.Disciplined request := by
  refine disciplined_of_same noWrites noReads fun next response performed => ?_
  obtain ⟨_, checked, returned⟩ := bind_eq_ok.mp (ran.symm.trans performed)
  obtain ⟨_, _, checked⟩ := bind_eq_ok.mp checked
  simp only [pure_eq_ok, Except.ok.injEq, Prod.mk.injEq] at checked returned
  rw [← returned.2, ← returned.1, ← checked]
  exact ⟨same, by simp⟩

theorem disciplined_of_refused (noWrites : rb.writes request = []) (noReads : rb.reads request = [])
    (ran : rb.perform request = .ok (.refused, rb)) : rb.Disciplined request := by
  refine disciplined_of_same noWrites noReads fun after response performed => ?_
  rw [ran] at performed
  injection performed with pair
  injection pair with responded same
  exact ⟨by rw [same], fun items => by simp [← responded]⟩

theorem disciplined_of_written (writes : rb.writes request = rb.around counter items.length)
    (noReads : rb.reads request = []) (free : ∀ slot ∈ rb.around counter items.length, slot ∉ rb.unread)
    (bound : items.length ≤ rb.capacity) (ran : rb.perform request = .ok (.done, after))
    (segment : after.segment = writeAround rb.segment (rb.offset counter) items) :
    rb.Disciplined request where
  writes_free := by rwa [writes]
  reads_unread := by simp [noReads]
  frame := fun next response performed slot outside => by
    rw [ran] at performed
    injection performed with pair
    injection pair with _ same
    rw [← same, segment]
    exact writeAround_frame bound (by rwa [writes] at outside)
  handed := fun next handed performed => by simp [ran] at performed

theorem disciplined_of_handed (represents : rb.Represents fifo) (noWrites : rb.writes request = [])
    (reads : rb.reads request = rb.around rb.head count) (enough : count ≤ fifo.queue.length)
    (ran : rb.perform request = .ok (.items (fifo.queue.take count), rb.advanceHead rb.head count)) :
    rb.Disciplined request where
  writes_free := by simp [noWrites]
  reads_unread := by
    rw [reads]
    exact around_head_unread (by rw [represents.len]; exact enough)
  frame := fun next response performed slot _ => by
    rw [ran] at performed
    injection performed with pair
    injection pair with _ same
    rw [← same]
    rfl
  handed := fun next handed performed => by
    rw [ran] at performed
    injection performed with pair
    injection pair with responded
    injection responded with items
    rw [← items, reads]
    exact represents.read_contents enough

theorem Disciplined.congr {whole : Request α} (disciplined : rb.Disciplined whole)
    (writes : rb.writes request = rb.writes whole) (reads : rb.reads request = rb.reads whole)
    (ran : rb.perform request = rb.perform whole) : rb.Disciplined request where
  writes_free := by rw [writes]; exact disciplined.writes_free
  reads_unread := by rw [reads]; exact disciplined.reads_unread
  frame := by rw [ran, writes]; exact disciplined.frame
  handed := by rw [ran, reads]; exact disciplined.handed

end Shapes

theorem pushSlice_disciplined (represents : rb.Represents fifo) (items : List α) :
    rb.Disciplined (.pushSlice items) := by
  have total := represents.capacity
  have lens := represents.len
  have outcome := represents.pushSlice items
  by_cases full : fifo.beyond.length < items.length
  · rw [if_pos full] at outcome
    exact disciplined_of_refused (if_neg (by omega)) rfl (by rw [perform, outcome]; rfl)
  · rw [if_neg full] at outcome
    obtain ⟨after, ran, -, segment⟩ := outcome
    exact disciplined_of_written (if_pos (by omega)) rfl (around_tail_free (by omega)) (by omega)
      (by rw [perform, ran]; rfl) segment

theorem popSlice_disciplined (represents : rb.Represents fifo) (nitems : Nat) :
    rb.Disciplined (.popSlice nitems) := by
  have lens := represents.len
  have outcome := represents.popSlice nitems
  by_cases few : fifo.queue.length < nitems
  · rw [if_pos few] at outcome
    exact disciplined_of_refused rfl (if_neg (by omega)) (by rw [perform, outcome]; rfl)
  · rw [if_neg few] at outcome
    exact disciplined_of_handed represents rfl (if_pos (by omega)) (by omega) (by rw [perform, outcome.1]; rfl)

theorem perform_disciplined (represents : rb.Represents fifo) (request : Request α) : rb.Disciplined request := by
  have total := represents.capacity
  have lens := represents.len
  cases request with
  | push item => exact (pushSlice_disciplined represents [item]).congr rfl rfl (perform_push item)
  | pushSlice items => exact pushSlice_disciplined represents items
  | fill position item =>
    have outcome := represents.fill position item
    by_cases room : position < fifo.beyond.length
    · rw [if_pos room] at outcome
      obtain ⟨after, ran, -, segment⟩ := outcome
      have writes : rb.writes (.fill position item) =
          rb.around (rb.tail + BitVec.ofNat 64 position) [item].length := if_pos (by omega)
      exact disciplined_of_written writes rfl (around_free (by rw [length_singleton]; omega))
        (by rw [length_singleton]; omega) (by rw [perform, ran]; rfl) segment
    · rw [if_neg room] at outcome
      refine disciplined_of_same (if_neg (by omega)) rfl fun after response ran => ?_
      simp [perform, outcome, bind, Except.bind] at ran
  | commitWrite len =>
    refine @disciplined_of_checked _ _ _ (rb.advanceTail rb.tail len) (len ≤ fifo.beyond.length) rfl rfl ?_ rfl
    rw [perform, RingBuffer.commitWrite, represents.freeLen, bind_ok]
  | pop => exact (popSlice_disciplined represents 1).congr rfl rfl perform_pop
  | popSlice nitems => exact popSlice_disciplined represents nitems
  | skip count => exact disciplined_of_checked rfl rfl rfl rfl
  | clear =>
    refine disciplined_of_same rfl rfl fun after response ran => ?_
    simp only [perform, Except.ok.injEq, Prod.mk.injEq] at ran
    rw [← ran.2, ← ran.1]
    exact ⟨rfl, by simp⟩
  | commitRead len => exact disciplined_of_checked rfl rfl rfl rfl

def contents (rb : RingBuffer α) : Fifo α where
  queue := rb.view.take rb.len
  beyond := rb.view.drop rb.len
  pushed := rb.view.take rb.len
  taken := []

theorem contents_represents (fits : rb.len ≤ rb.capacity) : rb.Represents rb.contents where
  len := by
    show rb.len = (rb.view.take rb.len).length
    rw [length_take, length_view]
    omega
  view := (take_append_drop rb.len rb.view).symm

/-- Whatever the counters start from and however the steps of the two sides are interleaved, the buffer runs
as the bounded queue does. When the run comes to an end, what went in is what came out and what is left,
lengths add up to the capacity, and the next step keeps to its slots. -/
theorem run_refines_fifo (rb : RingBuffer α) (fits : rb.len ≤ rb.capacity) (requests : List (Request α)) :
    (∃ after fifo responses free, rb.run requests = .ok (responses, after) ∧
        rb.contents.run requests = .ok (responses, fifo) ∧ after.Represents fifo ∧ fifo.Conserves ∧
        after.freeLen = .ok free ∧ after.len + free = after.capacity ∧
        ∀ request, after.Disciplined request) ∨
      ∃ panic, rb.run requests = .error panic ∧ rb.contents.run requests = .error panic := by
  rcases feed_agree (fun request represents => perform_refines represents request) (contents_represents fits)
    requests with ⟨ran, specified, represents⟩ | ⟨ran, specified⟩
  · left
    have start : rb.contents.Conserves := rfl
    have conserves := (Fifo.run_conserves start requests).of_ok specified
    refine ⟨_, _, _, _, ran, specified, represents, conserves, represents.freeLen, ?_, ?_⟩
    · rw [represents.len]
      exact represents.capacity
    · exact perform_disciplined represents
  · exact Or.inr ⟨_, ran, specified⟩

def wrapping : RingBuffer Nat where
  segment := [7, 7]
  capacity := 2
  tail := BitVec.ofNat 64 (2 ^ 64 - 1)
  head := BitVec.ofNat 64 (2 ^ 64 - 1)
  powerOfTwo := ⟨1, by decide, rfl⟩
  filled := rfl

theorem run_refines_fifo_wrapping : ∃ after fifo,
    wrapping.run [.pushSlice [1, 2], .push 3, .popSlice 2] = .ok ([.done, .refused, .items [1, 2]], after) ∧
      after.Represents fifo ∧ fifo.Conserves := by
  have responses : (wrapping.run [.pushSlice [1, 2], .push 3, .popSlice 2]).map Prod.fst =
      .ok [.done, .refused, .items [1, 2]] := by decide +kernel
  rcases run_refines_fifo wrapping (by decide) [.pushSlice [1, 2], .push 3, .popSlice 2] with
    ⟨after, fifo, _, _, ran, _, represents, conserves, _⟩ | ⟨_, ran, _⟩
  · rw [ran] at responses
    injection responses with same
    exact ⟨after, fifo, by rw [ran, ← same], represents, conserves⟩
  · rw [ran] at responses
    injection responses

end RingBuffer

end Kei.Spsc
