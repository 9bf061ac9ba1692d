import Kei.Mm.PageTable

/-! Cursors over a page table (`page_table/cursor`). A cursor refers to the nodes on its path by
their addresses; the memory is passed along. A loop gets as many turns as it can need and
hangs when they are used up. -/

namespace Kei.Mm

open Library Checked PteTrait

def maxNrLevels : Nat := 4

structure Cursor where
  path : Nat → Option Nat
  level : Nat
  guardLevel : Nat
  va : Nat
  barrierStart : Nat
  barrierEnd : Nat

inductive PageTableFrag (Item : Type)
  | mapped (va : Nat) (item : Item)
  | strayPageTable (pt va len numFrames : Nat)

variable {E Item : Type} [PteTrait E] (C : PageTableConfig Item)

namespace Cursor

def guardAt (cursor : Cursor) (level : Nat) : Checked (Option Nat) := do
  let idx ← sub level 1
  if idx < maxNrLevels then .ok (cursor.path idx) else .error .indexOutOfBounds

def popLevel (cursor : Cursor) : Checked Cursor := do
  let _ ← unwrap (← cursor.guardAt cursor.level)
  assert (cursor.level < cursor.guardLevel)
  return { cursor with
    path := Function.update cursor.path (cursor.level - 1) none, level := cursor.level + 1 }

def pushLevel (memory : Memory E) (cursor : Cursor) (childPt : Nat) : Checked Cursor := do
  let level ← sub cursor.level 1
  let child ← memory.node childPt
  assert (level = child.level)
  let old ← cursor.guardAt level
  assert old.isNone
  return { cursor with path := Function.update cursor.path (level - 1) (some childPt), level := level }

def curEntry (memory : Memory E) (cursor : Cursor) : Checked (Entry E) := do
  let node ← unwrap (← cursor.guardAt cursor.level)
  memory.entry node (pteIndex cursor.va cursor.level)

def curVaRange (cursor : Cursor) : Checked (Nat × Nat) := do
  let entryStart := alignDown cursor.va (pageSize cursor.level)
  return (entryStart, ← add usizeMax entryStart (pageSize cursor.level))

def popBoundary (nextVa : Nat) : Nat → Cursor → Checked Cursor
  | 0, cursor => .ok cursor
  | turns + 1, cursor =>
    if cursor.level < cursor.guardLevel ∧ pteIndex nextVa cursor.level = 0 then do
      popBoundary nextVa turns (← cursor.popLevel)
    else .ok cursor

def moveForward (cursor : Cursor) : Checked Cursor := do
  let (_, nextVa) ← cursor.curVaRange
  let cursor ← cursor.popBoundary nextVa (cursor.guardLevel - cursor.level)
  return { cursor with va := nextVa }

def queryLoop (memory : Memory E) : Nat → Cursor → Checked ((Nat × Nat) × Option Item × Cursor)
  | 0, _ => .error .hang
  | turns + 1, cursor => do
    let curEntry ← cursor.curEntry memory
    match ← curEntry.toRef C memory with
    | .pageTable pt => queryLoop memory turns (← cursor.pushLevel memory pt)
    | .absent => return (← cursor.curVaRange, none, cursor)
    | .mapped item => return (← cursor.curVaRange, some item, cursor)

def query (memory : Memory E) (cursor : Cursor) :
    Checked (Except PageTableError ((Nat × Nat) × Option Item) × Cursor) :=
  if cursor.va ≥ cursor.barrierEnd then .ok (.error (.invalidVaddr cursor.va), cursor)
  else do
    let (range, item, cursor) ← cursor.queryLoop C memory (cursor.level + 1)
    return (.ok (range, item), cursor)

def findNextLoop (stop : Nat) (findUnmapSubtree splitHuge : Bool) :
    Nat → Memory E → Cursor → Checked (Option Nat × Memory E × Cursor)
  | 0, _, _ => .error .hang
  | turns + 1, memory, cursor =>
    if cursor.va < stop then do
      let (start, finish) ← cursor.curVaRange
      let curEntryFitsRange : Bool := cursor.va = start && finish ≤ stop
      let curEntry ← cursor.curEntry memory
      match ← curEntry.toRef C memory with
      | .pageTable pt =>
        if findUnmapSubtree ∧ curEntryFitsRange ∧ (C.topLevelCanUnmap ∨ cursor.level ≠ C.nrLevels) then
          .ok (some cursor.va, memory, cursor)
        else do
          let ptGuard ← memory.node pt
          if ptGuard.nrChildren ≠ 0 then do
            findNextLoop stop findUnmapSubtree splitHuge turns memory (← cursor.pushLevel memory pt)
          else do
            findNextLoop stop findUnmapSubtree splitHuge turns memory (← cursor.moveForward)
      | .absent => do
        findNextLoop stop findUnmapSubtree splitHuge turns memory (← cursor.moveForward)
      | .mapped _ =>
        if curEntryFitsRange ∨ !splitHuge then .ok (some cursor.va, memory, cursor)
        else do
          let (splitChild, memory) ← curEntry.splitIfMappedHuge C memory
          let splitChild ← unwrap splitChild
          findNextLoop stop findUnmapSubtree splitHuge turns memory (← cursor.pushLevel memory splitChild)
    else .ok (none, memory, cursor)

def findNextImpl (memory : Memory E) (cursor : Cursor) (len : Nat) (findUnmapSubtree splitHuge : Bool) :
    Checked (Option Nat × Memory E × Cursor) := do
  assert (len % basePageSize = 0)
  let stop ← add usizeMax cursor.va len
  assert (stop ≤ cursor.barrierEnd)
  assert (stop % basePageSize = 0)
  cursor.findNextLoop C stop findUnmapSubtree splitHuge
    (len / basePageSize * (maxNrLevels + 1) + cursor.level + 1) memory

def findNext (memory : Memory E) (cursor : Cursor) (len : Nat) : Checked (Option Nat × Memory E × Cursor) :=
  cursor.findNextImpl C memory len false false

def popToGuard : Nat → Cursor → Checked Cursor
  | 0, cursor => .ok cursor
  | turns + 1, cursor =>
    if cursor.level < cursor.guardLevel then do popToGuard turns (← cursor.popLevel) else .ok cursor

def jumpLoop (va : Nat) : Nat → Cursor → Checked Cursor
  | 0, _ => .error .hang
  | turns + 1, cursor =>
    let nodeSize := pageSize (cursor.level + 1)
    let nodeStart := alignDown cursor.va nodeSize
    if nodeStart ≤ va ∧ va - nodeStart < nodeSize then .ok { cursor with va := va }
    else do jumpLoop va turns (← cursor.popLevel)

def jump (cursor : Cursor) (va : Nat) : Checked (Except PageTableError Unit × Cursor) := do
  assert (va % basePageSize = 0)
  if ¬(cursor.barrierStart ≤ va ∧ va < cursor.barrierEnd) then
    return (.error (.invalidVaddr va), cursor)
  if cursor.va = cursor.barrierEnd then
    let cursor ← cursor.popToGuard (cursor.guardLevel - cursor.level)
    return (.ok (), { cursor with va := va })
  assert (cursor.barrierStart ≤ cursor.va && cursor.va < cursor.barrierEnd)
  return (.ok (), ← cursor.jumpLoop va (maxNrLevels + 1))

def dfsMarkStray : Nat → Memory E → Nat → Checked (Nat × Memory E)
  | 0, _, _ => .error .hang
  | turns + 1, memory, subTree => do
    let node ← memory.node subTree
    let memory := memory.setNode subTree { node with stray := true }
    if node.level = 1 then
      return (node.nrChildren, memory)
    (List.range nrSubpagePerHuge).reverse.foldlM (fun (numFrames, memory) i => do
      let child ← memory.entry subTree i
      match ← child.toRef C memory with
      | .pageTable pt => do
        let (frames, memory) ← dfsMarkStray turns memory pt
        return (numFrames + frames, memory)
      | .absent | .mapped _ => return (numFrames, memory)) (0, memory)

def replaceCurEntry (memory : Memory E) (cursor : Cursor) (newChild : PteState Item) :
    Checked (Option (PageTableFrag Item) × Memory E) := do
  let curEntry ← cursor.curEntry memory
  let (old, memory) ← curEntry.replace C memory newChild
  match old with
  | .absent => return (none, memory)
  | .mapped item => return (some (.mapped cursor.va item), memory)
  | .pageTable pt => do
    let node ← memory.node pt
    assert (node.level = cursor.level - 1)
    assert (C.topLevelCanUnmap || cursor.level ≠ C.nrLevels)
    let (numFrames, memory) ← dfsMarkStray C node.level memory pt
    return (some (.strayPageTable pt cursor.va (pageSize cursor.level) numFrames), memory)

def adjustLevel (level : Nat) : Nat → Memory E → Cursor → Checked (Memory E × Cursor)
  | 0, _, _ => .error .hang
  | turns + 1, memory, cursor =>
    if cursor.level = level then .ok (memory, cursor)
    else if cursor.level < level then do adjustLevel level turns memory (← cursor.popLevel)
    else do
      let curEntry ← cursor.curEntry memory
      match ← curEntry.toRef C memory with
      | .pageTable pt => adjustLevel level turns memory (← cursor.pushLevel memory pt)
      | .absent => do
        let (child, memory) ← curEntry.allocIfNone C memory
        adjustLevel level turns memory (← cursor.pushLevel memory (← unwrap child))
      | .mapped _ => do
        let (child, memory) ← curEntry.splitIfMappedHuge C memory
        adjustLevel level turns memory (← cursor.pushLevel memory (← unwrap child))

def map (memory : Memory E) (cursor : Cursor) (item : Item) : Checked (Memory E × Cursor) := do
  assert (cursor.va < cursor.barrierEnd)
  let level := (C.itemRawInfo item).2.1
  assert (level ≤ C.highestTranslationLevel)
  assert (cursor.va % pageSize level = 0)
  let stop ← add usizeMax cursor.va (pageSize level)
  assert (stop ≤ cursor.barrierEnd)
  let (memory, cursor) ← cursor.adjustLevel C level (maxNrLevels + 1) memory
  let curEntry ← cursor.curEntry memory
  let state : PteState Item ← curEntry.toRef C memory
  assert state.isAbsent
  let (_, memory) ← cursor.replaceCurEntry C memory (.mapped item)
  return (memory, ← cursor.moveForward)

def protectNext (memory : Memory E) (cursor : Cursor) (len : Nat) (op : PageProperty → PageProperty) :
    Checked (Option (Nat × Nat) × Memory E × Cursor) := do
  let (found, memory, cursor) ← cursor.findNextImpl C memory len false true
  match found with
  | none => return (none, memory, cursor)
  | some _ => do
    let curEntry ← cursor.curEntry memory
    let memory ← curEntry.protect memory op
    let protectedVa ← cursor.curVaRange
    return (some protectedVa, memory, ← cursor.moveForward)

def subtreeRoot (memory : Memory E) (ptAddr : Nat) : Checked (Option Nat × Memory E) := do
  let node ← memory.node ptAddr
  return (if node.stray then none else some ptAddr, memory)

def tryTraverse (start stop : Nat) : Nat → Memory E → Nat → Checked (Option Nat × Memory E)
  | 0, memory, curPtAddr => subtreeRoot memory curPtAddr
  | level + 1, memory, curPtAddr =>
    let curLevel := level + 1
    let startIdx := pteIndex start curLevel
    if curLevel > 1 ∧ startIdx = pteIndex (stop - 1) curLevel then do
      let node ← memory.node curPtAddr
      match toRepr (node.ptes startIdx) curLevel with
      | .mapped _ _ => subtreeRoot memory curPtAddr
      | .pageTable childPtAddr _ => tryTraverse start stop level memory childPtAddr
      | .absent =>
        if node.stray then .ok (none, memory)
        else do
          let curEntry ← memory.entry curPtAddr startIdx
          match ← curEntry.toRef C memory with
          | .mapped _ => subtreeRoot memory curPtAddr
          | .absent => do
            let (allocated, memory) ← curEntry.allocIfNone C memory
            tryTraverse start stop level memory (← unwrap allocated)
          | .pageTable pt => tryTraverse start stop level memory pt
    else subtreeRoot memory curPtAddr

def lockRange (memory : Memory E) (root start stop : Nat) : Checked (Cursor × Memory E) := do
  let (subtree, memory) ← tryTraverse C start stop C.nrLevels memory root
  match subtree with
  | none => .error .hang
  | some subtree => do
    let node ← memory.node subtree
    let path := Function.update (fun _ => none) (node.level - 1) (some subtree)
    return (⟨path, node.level, node.level, start, start, stop⟩, memory)

def new (memory : Memory E) (root start stop : Nat) :
    Checked (Except PageTableError Cursor × Memory E) := do
  let valid ← isValidRange C start stop
  if !valid ∨ start ≥ stop then
    return (.error (.invalidVaddrRange start stop), memory)
  if start % basePageSize ≠ 0 ∨ stop % basePageSize ≠ 0 then
    return (.error .unalignedVaddr, memory)
  let (cursor, memory) ← lockRange C memory root start stop
  return (.ok cursor, memory)

end Cursor

end Kei.Mm
