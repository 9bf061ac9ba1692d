import Kei.Library.Checked
import Mathlib.Algebra.Order.Ring.Nat

/-! The memory regions that the boot loader reports, and how they are made into a map without
overlaps. -/

namespace Kei.Boot

open Library Checked

def usizeMax : Nat := 18446744073709551615

def pageSize : Nat := 4096

inductive MemoryRegionType
  | badMemory
  | unknown
  | nonVolatileSleep
  | reserved
  | kernel
  | module
  | framebuffer
  | reclaimable
  | usable
  deriving DecidableEq, Repr

namespace MemoryRegionType

def discriminant : MemoryRegionType → Nat
  | badMemory => 0
  | unknown => 1
  | nonVolatileSleep => 2
  | reserved => 3
  | kernel => 4
  | module => 5
  | framebuffer => 6
  | reclaimable => 7
  | usable => 8

theorem discriminant_injective : Function.Injective discriminant := by
  intro one other same
  cases one <;> cases other <;> first | rfl | contradiction

instance : LinearOrder MemoryRegionType := LinearOrder.lift' discriminant discriminant_injective

end MemoryRegionType

structure MemoryRegion where
  base : Nat
  len : Nat
  typ : MemoryRegionType
  deriving DecidableEq, Repr

def alignDown (address : Nat) : Nat := address / pageSize * pageSize

def alignUp (address : Nat) : Checked Nat := do
  let padded ← add usizeMax address (pageSize - 1)
  pure (padded / pageSize * pageSize)

namespace MemoryRegion

def bad : MemoryRegion := ⟨0, 0, .badMemory⟩

/-- The address after the region, `end` in the source. -/
def regionEnd (region : MemoryRegion) : Checked Nat := add usizeMax region.base region.len

def asAligned (region : MemoryRegion) : Checked MemoryRegion := do
  match region.typ with
  | .usable =>
    let base ← alignUp region.base
    let stop := alignDown (← region.regionEnd)
    pure ⟨base, ← sub stop base, region.typ⟩
  | _ =>
    let base := alignDown region.base
    let stop ← alignUp (← region.regionEnd)
    pure ⟨base, ← sub stop base, region.typ⟩

end MemoryRegion

/-- The slots of the array are `regions`, as many as its parameter `LEN`. -/
structure MemoryRegionArray where
  regions : List MemoryRegion
  count : Nat
  deriving DecidableEq, Repr

namespace MemoryRegionArray

def deref (array : MemoryRegionArray) : Checked (List MemoryRegion) := slice array.regions 0 array.count

def new (len : Nat) : MemoryRegionArray := ⟨List.replicate len .bad, 0⟩

def push (array : MemoryRegionArray) (region : MemoryRegion) : Option MemoryRegionArray :=
  if array.count ≥ array.regions.length then none
  else some ⟨array.regions.set array.count region, array.count + 1⟩

def restrictiveType (regions : List MemoryRegion) (curRight : Nat) : Checked MemoryRegionType := do
  let types ← regions.filterMapM fun region => do
    let stop ← region.regionEnd
    pure (if region.base ≤ curRight ∧ curRight < stop then some region.typ else none)
  pure (types.min?.getD .unknown)

def rightBoundary (regions : List MemoryRegion) (curRight : Nat) : Checked Nat := do
  let bounds ← regions.filterMapM fun region =>
    if region.base > curRight then pure (some region.base)
    else do
      let stop ← region.regionEnd
      pure (if stop > curRight then some stop else none)
  unwrap bounds.min?

/-- The `while` loop; each turn fills a slot of the result. -/
def sweep (regions : List MemoryRegion) (maxAddr : Nat) :
    Nat → MemoryRegionArray → Nat → Checked MemoryRegionArray
  | 0, _, _ => .error .hang
  | turns + 1, result, curRight =>
    if curRight < maxAddr then do
      let typ ← restrictiveType regions curRight
      let right ← rightBoundary regions curRight
      let len ← sub right curRight
      let result ← unwrap (result.push ⟨curRight, len, typ⟩)
      sweep regions maxAddr turns result right
    else pure result

/-- One turn of the loop that merges neighbours of one type within the result. -/
def mergeOne (count : Nat) (state : List MemoryRegion × Nat) (i : Nat) : Checked (List MemoryRegion × Nat) := do
  let (regions, mergedCount) := state
  let region ← index (← slice regions 0 count) i
  let place ← sub mergedCount 1
  let last ← index regions place
  if region.typ = last.typ then
    let len ← add usizeMax last.len region.len
    pure (← store regions place ⟨last.base, len, last.typ⟩, mergedCount)
  else pure (← store regions mergedCount region, mergedCount + 1)

def intoNonOverlapping (array : MemoryRegionArray) : Checked MemoryRegionArray := do
  let ends ← (← array.deref).mapM MemoryRegion.regionEnd
  let maxAddr := alignDown (ends.max?.getD 0)
  let regions ← array.regions.mapM MemoryRegion.asAligned
  let self ← deref ⟨regions, array.count⟩
  let result ← sweep self maxAddr (regions.length + 1) (new regions.length) 0
  let (regions, mergedCount) ← (List.range' 1 (result.count - 1)).foldlM (mergeOne result.count) (result.regions, 1)
  pure ⟨regions, mergedCount⟩

def collect (len : Nat) (regions : List MemoryRegion) : Option MemoryRegionArray := regions.foldlM push (new len)

end MemoryRegionArray

end Kei.Boot
