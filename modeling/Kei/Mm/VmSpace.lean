import Kei.Library.Stream
import Kei.Mm.Aarch64
import Kei.Mm.Cursor

/-! User address spaces and their cursors (`mm/vm_space.rs`) on aarch64. Left out are the TLB
flusher, the set of CPUs and the reference counts of frames. `maxPaddr` is the end of the
physical memory that has metadata, which is found out at boot. -/

namespace Kei.Mm

open Library Checked PteTrait

structure UFrame (maxPaddr : Nat) where
  number : Nat
  below : number * basePageSize < maxPaddr
  deriving DecidableEq

structure IoMem where
  paddr : Nat
  size : Nat
  deriving DecidableEq

inductive MappedItem (maxPaddr : Nat)
  | trackedFrame (frame : UFrame maxPaddr)
  | untrackedIoMem (paddr level : Nat)
  deriving DecidableEq

structure VmItem (maxPaddr : Nat) where
  prop : PageProperty
  mappedItem : MappedItem maxPaddr
  deriving DecidableEq

inductive VmQueriedItem (maxPaddr : Nat)
  | mappedRam (frame : UFrame maxPaddr) (prop : PageProperty)
  | mappedIoMem (paddr : Nat) (prop : PageProperty)
  deriving DecidableEq

variable {maxPaddr : Nat}

namespace UFrame

def paddr (frame : UFrame maxPaddr) : Nat := frame.number * basePageSize

def mapLevel (_ : UFrame maxPaddr) : Nat := 1

def fromRaw (maxPaddr paddr : Nat) : Checked (UFrame maxPaddr) :=
  if below : paddr < maxPaddr then
    .ok ⟨paddr / basePageSize, Nat.lt_of_le_of_lt (Nat.div_mul_le_self _ _) below⟩
  else .error .assertFailed

end UFrame

namespace VmItem

def newTracked (frame : UFrame maxPaddr) (prop : PageProperty) : VmItem maxPaddr := ⟨prop, .trackedFrame frame⟩

def newUntrackedIo (paddr : Nat) (prop : PageProperty) : VmItem maxPaddr := ⟨prop, .untrackedIoMem paddr 1⟩

end VmItem

namespace VmQueriedItem

def fromItem (item : VmItem maxPaddr) : Checked (VmQueriedItem maxPaddr) :=
  match item.mappedItem with
  | .trackedFrame frame => .ok (.mappedRam frame item.prop)
  | .untrackedIoMem paddr level => do
    assert (level = 1)
    return .mappedIoMem paddr item.prop

def prop : VmQueriedItem maxPaddr → PageProperty
  | .mappedRam _ prop => prop
  | .mappedIoMem _ prop => prop

end VmQueriedItem

def itemRawInfo (item : VmItem maxPaddr) : Nat × Nat × PageProperty :=
  match item.mappedItem with
  | .trackedFrame frame => (frame.paddr, frame.mapLevel,
      { item.prop with privFlags := { item.prop.privFlags with avail1 := false } })
  | .untrackedIoMem paddr level => (paddr, level,
      { item.prop with privFlags := { item.prop.privFlags with avail1 := true } })

def itemFromRaw (paddr level : Nat) (prop : PageProperty) : Checked (VmItem maxPaddr) := do
  assert (level = 1)
  if prop.privFlags.avail1 then return .newUntrackedIo paddr prop
  else return .newTracked (← UFrame.fromRaw maxPaddr paddr) prop

def userPtConfig (maxPaddr : Nat) : PageTableConfig (VmItem maxPaddr) where
  topLevelIndexRange := (0, 256)
  topLevelCanUnmap := true
  nrLevels := 4
  addressWidth := 48
  vaSignExt := true
  highestTranslationLevel := 1
  itemRawInfo := itemRawInfo
  itemFromRaw := itemFromRaw

/-- Memory with the kernel's page table. The free frames are those of the frame allocator: they
are given out once, hold no table yet and lie where entries can point to. -/
structure Machine where
  memory : Memory PageTableEntry
  kernelRoot : Nat
  fresh : ∀ {paddr}, paddr ∈ memory.free → memory.nodes paddr = none ∧ PageTableEntry.Addressable paddr
  distinct : memory.free.Nodup

def sharedTable (memory : Memory PageTableEntry) (kernelRoot i : Nat) : Checked Nat := do
  let rootEntry ← memory.entry kernelRoot i
  let rootNode ← memory.node kernelRoot
  match toRepr rootEntry.pte rootNode.level with
  | .pageTable pt _ => do
    let node ← memory.node pt
    assert (node.level = rootNode.level - 1)
    return pt
  | _ => .error .assertFailed

def createUserPageTable (memory : Memory PageTableEntry) (kernelRoot : Nat) :
    Checked (Nat × Memory PageTableEntry) := do
  let (newRoot, memory) ← memory.alloc 4
  let memory ← (List.range' 256 256).foldlM (fun memory i => do
    let pt ← sharedTable memory kernelRoot i
    memory.writePte newRoot i (fromRepr (.pageTable pt PageTableFlags.empty) 4)) memory
  return (newRoot, memory)

structure VmSpace where
  memory : Memory PageTableEntry
  root : Nat
  iomems : List IoMem

namespace VmSpace

def new (machine : Machine) : Checked VmSpace := do
  let (root, memory) ← createUserPageTable machine.memory machine.kernelRoot
  return ⟨memory, root, []⟩

def cursorMut (maxPaddr : Nat) (space : VmSpace) (start stop : Nat) :
    Checked (Except PageTableError Cursor × VmSpace) := do
  let (result, memory) ← Cursor.new (userPtConfig maxPaddr) space.memory space.root start stop
  return (result, { space with memory := memory })

def query (maxPaddr : Nat) (space : VmSpace) (cursor : Cursor) :
    Checked (Except PageTableError ((Nat × Nat) × Option (VmQueriedItem maxPaddr)) × Cursor) := do
  let (result, cursor) ← cursor.query (userPtConfig maxPaddr) space.memory
  match result with
  | .error error => return (.error error, cursor)
  | .ok (range, none) => return (.ok (range, none), cursor)
  | .ok (range, some item) => return (.ok (range, some (← VmQueriedItem.fromItem item)), cursor)

def findNext (maxPaddr : Nat) (space : VmSpace) (cursor : Cursor) (len : Nat) :
    Checked (Option Nat × VmSpace × Cursor) := do
  let (found, memory, cursor) ← cursor.findNext (userPtConfig maxPaddr) space.memory len
  return (found, { space with memory := memory }, cursor)

def map (space : VmSpace) (cursor : Cursor) (frame : UFrame maxPaddr) (prop : PageProperty) :
    Checked (VmSpace × Cursor) := do
  let (memory, cursor) ← cursor.map (userPtConfig maxPaddr) space.memory (.newTracked frame prop)
  return ({ space with memory := memory }, cursor)

def pageStarts (start stop : Nat) : List Nat :=
  (List.range ((stop - start + (basePageSize - 1)) / basePageSize)).map (start + · * basePageSize)

def mapIoPages (maxPaddr : Nat) (prop : PageProperty) :
    List Nat → Memory PageTableEntry → Cursor → Checked (Memory PageTableEntry × Cursor)
  | [], memory, cursor => .ok (memory, cursor)
  | paddr :: rest, memory, cursor => do
    let (memory, cursor) ← cursor.map (userPtConfig maxPaddr) memory (.newUntrackedIo paddr prop)
    mapIoPages maxPaddr prop rest memory cursor

def ioPages (ioMem : IoMem) (len offset : Nat) : Checked (List Nat) := do
  let paddrBegin ← add usizeMax ioMem.paddr offset
  let paddrEnd ← if ioMem.size - offset < len then add usizeMax ioMem.paddr ioMem.size
    else do add usizeMax (← add usizeMax ioMem.paddr len) offset
  return pageStarts paddrBegin paddrEnd

def mapIomem (maxPaddr : Nat) (space : VmSpace) (cursor : Cursor) (ioMem : IoMem) (prop : PageProperty)
    (len offset : Nat) :
    Checked (VmSpace × Cursor) := do
  assert (len % basePageSize = 0)
  assert (offset % basePageSize = 0)
  if offset ≥ ioMem.size then
    return (space, cursor)
  let pages ← ioPages ioMem len offset
  let (memory, cursor) ← mapIoPages maxPaddr prop pages space.memory cursor
  let iomems := if ioMem ∈ space.iomems then space.iomems else space.iomems ++ [ioMem]
  return ({ space with memory := memory, iomems := iomems }, cursor)

def onProperty (op : PageFlags → CachePolicy → PageFlags × CachePolicy) (prop : PageProperty) : PageProperty :=
  { prop with flags := (op prop.flags prop.cache).1, cache := (op prop.flags prop.cache).2 }

def protectNext (maxPaddr : Nat) (space : VmSpace) (cursor : Cursor) (len : Nat)
    (op : PageFlags → CachePolicy → PageFlags × CachePolicy) :
    Checked (Option (Nat × Nat) × VmSpace × Cursor) := do
  let (result, memory, cursor) ← cursor.protectNext (userPtConfig maxPaddr) space.memory len (onProperty op)
  return (result, { space with memory := memory }, cursor)

end VmSpace

end Kei.Mm
