import Kei.FrameAllocator.Chunk
import Kei.Library.Shelves

/-! The set of free buddy chunks: one list of head frames per order, linked through the
frames' metadata slots. -/

namespace Kei.FrameAllocator

open Library

/-- The lists of an order that the set does not have are never reached. -/
structure BuddySet (maxOrder : Nat) where
  totalSize : Nat
  lists : Nat → List Nat

namespace BuddySet

variable {maxOrder : Nat}

def newEmpty (maxOrder : Nat) : BuddySet maxOrder := ⟨0, fun _ => []⟩

/-- Merge the chunk with its buddy as long as the buddy is in the list of its order. The first
argument counts the lists that are left. -/
def coalesce (maxOrder : Nat) : Nat → Nat → Slots → (Nat → List Nat) → Nat →
    Checked (Slots × (Nat → List Nat) × Nat)
  | 0, _, slots, lists, chunk => .ok (slots, lists, chunk)
  | left + 1, index, slots, lists, chunk =>
    if index + 1 ≥ maxOrder then .ok (slots, lists, chunk)
    else do
      let buddyAddr ← FreeChunk.buddy slots chunk
      if buddyAddr ∈ lists index then
        let (merged, lower) ← FreeChunk.mergeFree slots chunk buddyAddr
        coalesce maxOrder left (index + 1) merged (Shelves.take lists index buddyAddr) lower
      else .ok (slots, lists, chunk)

def insertChunk (slots : Slots) (set : BuddySet maxOrder) (addr order : Nat) :
    Checked (Slots × BuddySet maxOrder) := do
  Checked.assert (order < maxOrder)
  let slots ← FreeChunk.fromUnused slots addr order
  let (slots, lists, chunk) ← coalesce maxOrder (maxOrder - order) order slots set.lists addr
  let finalOrder ← FreeChunk.order slots chunk
  return (slots, ⟨set.totalSize + sizeOfOrder order, Shelves.push lists finalOrder chunk⟩)

def firstNonEmpty (lists : Nat → List Nat) : Nat → Nat → Option Nat
  | 0, _ => none
  | left + 1, index => if (lists index).isEmpty then firstNonEmpty lists left (index + 1) else some index

/-- Halve the chunk the given number of times, down to `order`. The right halves stay in the set. -/
def splitDown (order : Nat) : Nat → Slots → (Nat → List Nat) → Nat →
    Checked (Slots × (Nat → List Nat) × Nat)
  | 0, slots, lists, chunk => .ok (slots, lists, chunk)
  | halvings + 1, slots, lists, chunk => do
    let (slots, leftSub, rightSub) ← FreeChunk.splitFree slots chunk
    let rightOrder ← FreeChunk.order slots rightSub
    Checked.assert (rightOrder == order + halvings)
    splitDown order halvings slots (Shelves.push lists (order + halvings) rightSub) leftSub

def allocChunk (slots : Slots) (set : BuddySet maxOrder) (order : Nat) :
    Checked (Slots × BuddySet maxOrder × Option Nat) :=
  match firstNonEmpty set.lists (maxOrder - order) order with
  | none => .ok (slots, set, none)
  | some nonEmpty => do
    let head ← Checked.unwrap (set.lists nonEmpty).head?
    let headOrder ← FreeChunk.order slots head
    Checked.assert (headOrder == nonEmpty)
    let lists := Function.update set.lists nonEmpty (set.lists nonEmpty).tail
    let (slots, lists, chunk) ← splitDown order (nonEmpty - order) slots lists head
    let totalSize ← Checked.sub set.totalSize (sizeOfOrder order)
    return (slots.resetAsUnused chunk, ⟨totalSize, lists⟩, some chunk)

end BuddySet

end Kei.FrameAllocator
