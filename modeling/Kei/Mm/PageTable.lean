import Kei.Library.Checked
import Kei.Mm.PageProp

/-! Page table nodes and their entries (`page_table/mod.rs`, `page_table/node`). The nodes lie in
memory at their physical addresses. Debug assertions are checks like the others. The locks
of the nodes are left out. -/

namespace Kei.Mm

open Library Checked PteTrait

def usizeMax : Nat := 18446744073709551615

def basePageSize : Nat := 4096

def nrSubpagePerHuge : Nat := 512

def pageSize (level : Nat) : Nat := basePageSize <<< (9 * (level - 1))

def pteIndexBitOffset (level : Nat) : Nat := 12 + 9 * (level - 1)

def pteIndex (va level : Nat) : Nat := (va >>> pteIndexBitOffset level) &&& (nrSubpagePerHuge - 1)

def alignDown (va align : Nat) : Nat := va - va % align

structure PageTableConfig (Item : Type) where
  topLevelIndexRange : Nat × Nat
  topLevelCanUnmap : Bool
  nrLevels : Nat
  addressWidth : Nat
  vaSignExt : Bool
  highestTranslationLevel : Nat
  itemRawInfo : Item → Nat × Nat × PageProperty
  itemFromRaw : Nat → Nat → PageProperty → Checked Item

inductive PageTableError
  | invalidVaddrRange (start stop : Nat)
  | invalidVaddr (va : Nat)
  | unalignedVaddr
  deriving DecidableEq, Repr

section

variable {Item : Type} (C : PageTableConfig Item)

def vaddrRange : Nat × Nat :=
  let start := C.topLevelIndexRange.1 <<< pteIndexBitOffset C.nrLevels
  let stop := (C.topLevelIndexRange.2 <<< pteIndexBitOffset C.nrLevels + usizeMax) % (usizeMax + 1)
  let high := usizeMax ^^^ (1 <<< C.addressWidth - 1)
  if C.vaSignExt ∧ start.testBit (C.addressWidth - 1) then (start ||| high, stop ||| high) else (start, stop)

def isValidRange (start stop : Nat) : Checked Bool :=
  if start = 0 ∧ stop = 0 then .ok true
  else if (vaddrRange C).1 ≤ start then do
    let last ← sub stop 1
    return last ≤ (vaddrRange C).2
  else .ok false

end

structure PageTableNode (E : Type) where
  level : Nat
  nrChildren : Nat
  stray : Bool
  ptes : Nat → E

structure Memory (E : Type) where
  nodes : Nat → Option (PageTableNode E)
  free : List Nat

structure Entry (E : Type) where
  pte : E
  idx : Nat
  node : Nat

inductive PteState (Item : Type)
  | pageTable (paddr : Nat)
  | mapped (item : Item)
  | absent
  deriving DecidableEq

def PteState.isAbsent {Item : Type} : PteState Item → Bool
  | .absent => true
  | _ => false

variable {E Item : Type} [PteTrait E]

namespace Memory

def node (memory : Memory E) (paddr : Nat) : Checked (PageTableNode E) :=
  match memory.nodes paddr with
  | some node => .ok node
  | none => .error .invalidAddress

def setNode (memory : Memory E) (paddr : Nat) (node : PageTableNode E) : Memory E :=
  { memory with nodes := Function.update memory.nodes paddr (some node) }

def alloc (memory : Memory E) (level : Nat) : Checked (Nat × Memory E) :=
  match memory.free with
  | [] => .error .outOfMemory
  | paddr :: free => .ok (paddr, { memory with free := free }.setNode paddr ⟨level, 0, false, fun _ => newZeroed⟩)

def writePte (memory : Memory E) (paddr idx : Nat) (pte : E) : Checked (Memory E) := do
  assert (idx < nrSubpagePerHuge)
  let node ← memory.node paddr
  return memory.setNode paddr { node with ptes := Function.update node.ptes idx pte }

def entry (memory : Memory E) (paddr idx : Nat) : Checked (Entry E) := do
  assert (idx < nrSubpagePerHuge)
  let node ← memory.node paddr
  return ⟨node.ptes idx, idx, paddr⟩

end Memory

variable (C : PageTableConfig Item)

namespace PteState

def fromPte (memory : Memory E) (pte : E) (level : Nat) : Checked (PteState Item) :=
  match toRepr pte level with
  | .absent => .ok .absent
  | .pageTable paddr _ => do
    let node ← memory.node paddr
    assert (node.level = level - 1)
    return .pageTable paddr
  | .mapped paddr prop => do return .mapped (← C.itemFromRaw paddr level prop)

def intoPte (memory : Memory E) : PteState Item → Checked E
  | .pageTable paddr => do
    let node ← memory.node paddr
    return fromRepr (.pageTable paddr PageTableFlags.empty) node.level
  | .mapped item =>
    let (paddr, level, prop) := C.itemRawInfo item
    .ok (fromRepr (.mapped paddr prop) level)
  | .absent => .ok newZeroed

def matchesLevel (memory : Memory E) (level : Nat) : PteState Item → Checked Unit
  | .pageTable paddr => do
    let node ← memory.node paddr
    assert (node.level = level - 1)
  | .mapped item => assert ((C.itemRawInfo item).2.1 = level)
  | .absent => .ok ()

def recount (old new : PteState Item) (nrChildren : Nat) : Checked Nat :=
  if old.isAbsent ∧ !new.isAbsent then add 65535 nrChildren 1
  else if !old.isAbsent ∧ new.isAbsent then sub nrChildren 1
  else .ok nrChildren

end PteState

namespace Entry

def toRef (memory : Memory E) (entry : Entry E) : Checked (PteState Item) := do
  let node ← memory.node entry.node
  PteState.fromPte C memory entry.pte node.level

def protect (memory : Memory E) (entry : Entry E) (op : PageProperty → PageProperty) : Checked (Memory E) := do
  let node ← memory.node entry.node
  match toRepr entry.pte node.level with
  | .mapped paddr prop =>
    if prop = op prop then .ok memory
    else memory.writePte entry.node entry.idx (fromRepr (.mapped paddr (op prop)) node.level)
  | _ => .ok memory

def replace (memory : Memory E) (entry : Entry E) (newChild : PteState Item) :
    Checked (PteState Item × Memory E) := do
  let node ← memory.node entry.node
  newChild.matchesLevel C memory node.level
  let oldChild ← PteState.fromPte C memory entry.pte node.level
  let nrChildren ← oldChild.recount newChild node.nrChildren
  let pte ← newChild.intoPte C memory
  let memory ← (memory.setNode entry.node { node with nrChildren := nrChildren }).writePte entry.node entry.idx pte
  return (oldChild, memory)

def allocIfNone (memory : Memory E) (entry : Entry E) : Checked (Option Nat × Memory E) := do
  let state : PteState Item ← entry.toRef C memory
  let node ← memory.node entry.node
  if !state.isAbsent ∨ node.level = 1 then
    return (none, memory)
  let (paddr, memory) ← memory.alloc (node.level - 1)
  let pte ← PteState.intoPte C memory (.pageTable paddr)
  let memory ← memory.writePte entry.node entry.idx pte
  let node ← memory.node entry.node
  let nrChildren ← add 65535 node.nrChildren 1
  return (some paddr, memory.setNode entry.node { node with nrChildren := nrChildren })

def splitPage (paddr pa level : Nat) (prop : PageProperty) (memory : Memory E) (i : Nat) :
    Checked (Memory E) := do
  let smallPa ← add usizeMax pa (i * pageSize (level - 1))
  let entry ← memory.entry paddr i
  let smallItem ← C.itemFromRaw smallPa (level - 1) prop
  let (old, memory) ← entry.replace C memory (.mapped smallItem)
  assert old.isAbsent
  return memory

def splitIfMappedHuge (memory : Memory E) (entry : Entry E) : Checked (Option Nat × Memory E) := do
  let node ← memory.node entry.node
  match toRepr entry.pte node.level with
  | .mapped pa prop => do
    let (paddr, memory) ← memory.alloc (node.level - 1)
    -- the size of the pages one level below
    let _ ← sub (node.level - 1) 1
    let memory ← (List.range nrSubpagePerHuge).foldlM (splitPage C paddr pa node.level prop) memory
    let pte ← PteState.intoPte C memory (.pageTable paddr)
    return (some paddr, ← memory.writePte entry.node entry.idx pte)
  | _ => .ok (none, memory)

end Entry

end Kei.Mm
