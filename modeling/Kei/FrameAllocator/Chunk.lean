import Mathlib.Algebra.Group.Nat.Defs
import Kei.Library.Checked

/-! Buddy chunks: their orders, how a range is cut into them, and the metadata slot of
their head frames. Addresses and sizes are in bytes. -/

namespace Kei.FrameAllocator

open Library Checked

def pageSize : Nat := 4096

def sizeOfOrder (order : Nat) : Nat := 2 ^ order * pageSize

/-- The order of the least power of two that is not below the number of pages, one for no page at all. -/
def greaterOrderOf (size : Nat) : Nat :=
  let pages := size / pageSize
  if pages ≤ 1 then 0 else Nat.log2 (pages - 1) + 1

/-- The bit length of the number of pages less one. Below a page the bit length is zero and the
subtraction overflows. -/
def lesserOrderOf (size : Nat) : Checked Nat :=
  let pages := size / pageSize
  sub (if pages = 0 then 0 else Nat.log2 pages + 1) 1

def trailingZeros : Nat → Nat → Nat
  | 0, _ => 0
  | width + 1, value => if value % 2 = 1 then 0 else trailingZeros width (value / 2) + 1

def maxOrderFrom (addr : Nat) : Checked Nat :=
  sub (trailingZeros 64 addr) (trailingZeros 64 pageSize)

def splitChunks : Nat → Nat → Nat → Checked (List (Nat × Nat))
  | 0, _, _ => .error .hang
  | turns + 1, addr, size =>
    if size = 0 then .ok []
    else do
      let order := min (← maxOrderFrom addr) (← lesserOrderOf size)
      let rest ← sub size (sizeOfOrder order)
      let chunks ← splitChunks turns (addr + sizeOfOrder order) rest
      return (addr, order) :: chunks

def splitToChunks (addr size : Nat) : Checked (List (Nat × Nat)) := do
  assert (addr % pageSize == 0)
  assert (size % pageSize == 0)
  splitChunks (size / pageSize + 1) addr size

def splitToOrder (addr order splitOrder : Nat) : Checked (List Nat) := do
  assert (addr % sizeOfOrder order == 0)
  let width ← sub order splitOrder
  return (List.range (2 ^ width)).map fun index => addr + sizeOfOrder splitOrder * index

/-- The metadata slots: the order kept in the head frame of a free chunk, nothing for an unused frame. -/
abbrev Slots := Nat → Option Nat

namespace Slots

/-- `UniqueFrame::from_unused`, with the failure that its callers turn into a panic. -/
def claim (slots : Slots) (addr order : Nat) : Checked Slots :=
  match slots addr with
  | none => .ok (Function.update slots addr (some order))
  | some _ => .error .unwrapNone

def resetAsUnused (slots : Slots) (addr : Nat) : Slots := Function.update slots addr none

end Slots

/-! A free chunk in hand is the address of its head frame. -/

namespace FreeChunk

def fromUnused (slots : Slots) (addr order : Nat) : Checked Slots := do
  assert (addr % sizeOfOrder order == 0)
  let claimed ← slots.claim addr order
  assert ((List.range (2 ^ order - 1)).all fun index =>
    (claimed (addr + pageSize * (index + 1))).isNone)
  return claimed

def order (slots : Slots) (chunk : Nat) : Checked Nat := unwrap (slots chunk)

def buddy (slots : Slots) (chunk : Nat) : Checked Nat := do
  let order ← order slots chunk
  return chunk ^^^ sizeOfOrder order

def splitFree (slots : Slots) (chunk : Nat) : Checked (Slots × Nat × Nat) := do
  let order ← order slots chunk
  let newOrder ← sub order 1
  let right := chunk ^^^ sizeOfOrder newOrder
  let slots ← Slots.claim (Function.update slots chunk (some newOrder)) right newOrder
  return (slots, chunk, right)

def mergeFree (slots : Slots) (chunk buddy : Nat) : Checked (Slots × Nat) := do
  let lower := if chunk > buddy then buddy else chunk
  let upper := if chunk > buddy then chunk else buddy
  let lowerOrder ← order slots lower
  let upperOrder ← order slots upper
  let slots := slots.resetAsUnused upper
  assert (lowerOrder == upperOrder)
  assert (lower ^^^ sizeOfOrder lowerOrder == upper)
  return (Function.update slots lower (some (lowerOrder + 1)), lower)

end FreeChunk

end Kei.FrameAllocator
