import Kei.Library.Cyclic
import Kei.Library.Stream
import Mathlib.Algebra.Order.Ring.Nat

/-! The ring buffer between one producer and one consumer. Each call of either side is one
atomic step. -/

namespace Kei.Spsc

open Library

/-- The counters run freely and wrap. The segment is seen as its items. -/
structure RingBuffer (α : Type) where
  segment : List α
  capacity : Nat
  tail : BitVec 64
  head : BitVec 64
  powerOfTwo : ∃ exponent, exponent < 64 ∧ capacity = 2 ^ exponent
  filled : segment.length = capacity

namespace RingBuffer

variable {α : Type}

variable (rb : RingBuffer α)

def len : Nat := (rb.tail - rb.head).toNat

def freeLen : Checked Nat := Checked.sub rb.capacity rb.len

def isEmpty : Bool := rb.len == 0

def isFull : Checked Bool := do
  let free ← rb.freeLen
  return free == 0

def advanceTail (tail : BitVec 64) (len : Nat) : RingBuffer α :=
  { rb with tail := tail + BitVec.ofNat 64 len }

def advanceHead (head : BitVec 64) (len : Nat) : RingBuffer α :=
  { rb with head := head + BitVec.ofNat 64 len }

def resetHead : RingBuffer α := { rb with head := rb.tail }

def offset (counter : BitVec 64) : Nat := counter.toNat &&& (rb.capacity - 1)

def writeSlice (offset : Nat) (items : List α) : Checked (RingBuffer α) :=
  if fits : offset + items.length ≤ rb.capacity then
    .ok { rb with
      segment := Cyclic.overlay rb.segment offset items
      filled := (Cyclic.length_overlay (by rw [rb.filled]; exact fits)).trans rb.filled }
  else .error .sliceOutOfRange

def readSlice (offset count : Nat) : Checked (List α) :=
  Checked.slice rb.segment offset (offset + count)

def push (item : α) : Checked (RingBuffer α × Option Unit) := do
  if ← rb.isFull then return (rb, none)
  else
    let tail := rb.tail
    let written ← rb.writeSlice (rb.offset tail) [item]
    return (written.advanceTail tail 1, some ())

def pushSlice (items : List α) : Checked (RingBuffer α × Option Unit) := do
  let free ← rb.freeLen
  if free < items.length then return (rb, none)
  else
    let tail := rb.tail
    let offset := rb.offset tail
    if offset + items.length > rb.capacity then
      let first ← rb.writeSlice offset (items.take (rb.capacity - offset))
      let second ← first.writeSlice 0 (items.drop (rb.capacity - offset))
      return (second.advanceTail tail items.length, some ())
    else
      let written ← rb.writeSlice offset items
      return (written.advanceTail tail items.length, some ())

def commitWrite (len : Nat) : Checked (RingBuffer α) := do
  let free ← rb.freeLen
  Checked.assert (len ≤ free)
  return rb.advanceTail rb.tail len

def pop : Checked (RingBuffer α × Option α) :=
  if rb.isEmpty then .ok (rb, none)
  else do
    let head := rb.head
    let item ← Checked.index rb.segment (rb.offset head)
    return (rb.advanceHead head 1, some item)

def popSlice (nitems : Nat) : Checked (RingBuffer α × Option (List α)) :=
  if rb.len < nitems then .ok (rb, none)
  else do
    let head := rb.head
    let offset := rb.offset head
    if offset + nitems > rb.capacity then
      let first ← rb.readSlice offset (rb.capacity - offset)
      let second ← rb.readSlice 0 (nitems - (rb.capacity - offset))
      return (rb.advanceHead head nitems, some (first ++ second))
    else
      let items ← rb.readSlice offset nitems
      return (rb.advanceHead head nitems, some items)

def skip (count : Nat) : Checked (RingBuffer α) := do
  Checked.assert (rb.len ≥ count)
  return rb.advanceHead rb.head count

def clear : RingBuffer α := rb.resetHead

def commitRead (len : Nat) : Checked (RingBuffer α) := do
  Checked.assert (len ≤ rb.len)
  return rb.advanceHead rb.head len

/-- A producer that commits its writes has put the items into the segment itself, in the free slots after
the tail. This is one such write, and no write of the producer goes elsewhere. -/
def fill (position : Nat) (item : α) : Checked (RingBuffer α) := do
  let free ← rb.freeLen
  Checked.assert (position < free)
  rb.writeSlice (rb.offset (rb.tail + BitVec.ofNat 64 position)) [item]

end RingBuffer

inductive Request (α : Type)
  | push (item : α)
  | pushSlice (items : List α)
  | fill (position : Nat) (item : α)
  | commitWrite (len : Nat)
  | pop
  | popSlice (nitems : Nat)
  | skip (count : Nat)
  | clear
  | commitRead (len : Nat)

inductive Response (α : Type)
  | done
  | items (items : List α)
  | refused
  deriving DecidableEq

namespace RingBuffer

variable {α : Type}

def perform (rb : RingBuffer α) : Request α → Checked (Response α × RingBuffer α)
  | .push item => do
    let (rb, accepted) ← rb.push item
    return (if accepted.isSome then .done else .refused, rb)
  | .pushSlice items => do
    let (rb, accepted) ← rb.pushSlice items
    return (if accepted.isSome then .done else .refused, rb)
  | .fill position item => do return (.done, ← rb.fill position item)
  | .commitWrite len => do return (.done, ← rb.commitWrite len)
  | .pop => do
    let (rb, item) ← rb.pop
    return (item.elim .refused fun item => .items [item], rb)
  | .popSlice nitems => do
    let (rb, items) ← rb.popSlice nitems
    return (items.elim .refused .items, rb)
  | .skip count => do return (.done, ← rb.skip count)
  | .clear => .ok (.done, rb.clear)
  | .commitRead len => do return (.done, ← rb.commitRead len)

def run : RingBuffer α → List (Request α) → Checked (List (Response α) × RingBuffer α) := feed perform

end RingBuffer

end Kei.Spsc
