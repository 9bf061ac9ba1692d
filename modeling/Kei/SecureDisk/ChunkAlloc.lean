import Kei.SecureDisk.RangeQuery
import Mathlib.Data.List.Sort

/-! The chunk allocator of the log store (`3-log/chunk.rs`) and the part of the commit that
concerns it: the live state is changed when a transaction allocates, the journal is given the
transaction's edit when it commits, and a recovery replays the journal's edits. Each thread
has at most one transaction. The edit table is a hash map in the source; nothing depends on
the order in which its entries come out. -/

namespace Kei.SecureDisk

open Library Checked

structure ChunkAllocState where
  allocMap : BitMap
  freeCount : Nat
  nextFree : Nat
  inJournal : Bool

inductive ChunkEdit
  | alloc
  | dealloc
  deriving DecidableEq

structure ChunkAllocEdit where
  editTable : SortedMap Nat ChunkEdit

namespace ChunkAllocState

def new (capacity : Nat) : ChunkAllocState := ⟨List.replicate capacity false, capacity, 0, false⟩

def newInJournal (capacity : Nat) : ChunkAllocState := ⟨List.replicate capacity false, capacity, 0, true⟩

def findFree (allocMap : BitMap) (nextFree : Nat) : Checked Nat := do
  match ← allocMap.firstZero nextFree with
  | some chunkId => .ok chunkId
  | none => unwrap (← allocMap.firstZero 0)

def alloc (state : ChunkAllocState) : Checked (Option Nat × ChunkAllocState) := do
  let nextFree := if state.nextFree = state.allocMap.length then 0 else state.nextFree
  let freeChunkId ← findFree state.allocMap nextFree
  let allocMap ← store state.allocMap freeChunkId true
  let freeCount ← sub state.freeCount 1
  return (some freeChunkId,
    { state with allocMap := allocMap, freeCount := freeCount, nextFree := freeChunkId + 1 })

def dealloc (state : ChunkAllocState) (chunkId : Nat) : Checked ChunkAllocState := do
  assert (← index state.allocMap chunkId)
  let allocMap ← store state.allocMap chunkId false
  return { state with allocMap := allocMap, freeCount := state.freeCount + 1 }

def allocMany : Nat → List Nat → ChunkAllocState → Checked (Option (List Nat) × ChunkAllocState)
  | 0, ids, state => .ok (some ids, state)
  | count + 1, ids, state => do
    match ← state.alloc with
    | (some chunkId, state) => allocMany count (ids ++ [chunkId]) state
    | (none, state) => return (none, ← ids.foldlM dealloc state)

end ChunkAllocState

namespace ChunkAllocEdit

def new : ChunkAllocEdit := ⟨.empty⟩

def isEmpty (edit : ChunkAllocEdit) : Bool := edit.editTable.entries.isEmpty

def alloc (edit : ChunkAllocEdit) (chunkId : Nat) : Checked ChunkAllocEdit := do
  let oldEdit := edit.editTable.get chunkId
  assert oldEdit.isNone
  return ⟨edit.editTable.insert chunkId .alloc⟩

def dealloc (edit : ChunkAllocEdit) (chunkId : Nat) : Checked (Bool × ChunkAllocEdit) :=
  match edit.editTable.get chunkId with
  | none => .ok (false, ⟨edit.editTable.insert chunkId .dealloc⟩)
  | some .alloc => .ok (true, ⟨edit.editTable.remove chunkId⟩)
  | some .dealloc => .error .assertFailed

def chunksIn (kind : ChunkEdit) (entries : List (Nat × ChunkEdit)) : List Nat :=
  entries.filterMap fun entry => if entry.2 = kind then some entry.1 else none

def chunksWith (edit : ChunkAllocEdit) (kind : ChunkEdit) : List Nat := chunksIn kind edit.editTable.entries

def allocatedChunks (edit : ChunkAllocEdit) : List Nat := edit.chunksWith .alloc

/-- What `apply_to` does at one entry of the table, apart from noting the chunks to deallocate. -/
def applyEntry (state : ChunkAllocState) (entry : Nat × ChunkEdit) : Checked ChunkAllocState :=
  match entry.2 with
  | .alloc =>
    if state.inJournal then do
      let (allocated, state) ← state.alloc
      let _allocatedId ← unwrap allocated
      return state
    else .ok state
  | .dealloc => .ok state

def applyTo (edit : ChunkAllocEdit) (state : ChunkAllocState) : Checked ChunkAllocState := do
  let state ← edit.editTable.entries.foldlM applyEntry state
  (edit.chunksWith .dealloc).foldlM ChunkAllocState.dealloc state

end ChunkAllocEdit

def replay (capacity : Nat) (edits : List ChunkAllocEdit) : Checked ChunkAllocState :=
  edits.foldlM (fun state edit => edit.applyTo state) (ChunkAllocState.newInJournal capacity)

structure ChunkAlloc where
  state : ChunkAllocState
  txs : SortedMap Nat ChunkAllocEdit
  committed : List ChunkAllocEdit

namespace ChunkAlloc

def new (capacity : Nat) : ChunkAlloc := ⟨.new capacity, .empty, []⟩

def newTx (chunks : ChunkAlloc) (tid : Nat) : ChunkAlloc :=
  match chunks.txs.get tid with
  | some _ => chunks
  | none => { chunks with txs := chunks.txs.insert tid .new }

def alloc (chunks : ChunkAlloc) (tid : Nat) : Checked (Option Nat × ChunkAlloc) := do
  match ← chunks.state.alloc with
  | (none, state) => return (none, { chunks with state := state })
  | (some chunkId, state) => do
    let edit ← (← unwrap (chunks.txs.get tid)).alloc chunkId
    return (some chunkId, { chunks with state := state, txs := chunks.txs.insert tid edit })

def allocBatch (chunks : ChunkAlloc) (tid count : Nat) : Checked (Option (List Nat) × ChunkAlloc) := do
  match ← chunks.state.allocMany count [] with
  | (none, state) => return (none, { chunks with state := state })
  | (some ids, state) => do
    let chunkIds := ids.insertionSort (· ≤ ·)
    let edit ← chunkIds.foldlM ChunkAllocEdit.alloc (← unwrap (chunks.txs.get tid))
    return (some chunkIds, { chunks with state := state, txs := chunks.txs.insert tid edit })

def dealloc (chunks : ChunkAlloc) (tid chunkId : Nat) : Checked ChunkAlloc := do
  let (shouldDeallocNow, edit) ← (← unwrap (chunks.txs.get tid)).dealloc chunkId
  let chunks := { chunks with txs := chunks.txs.insert tid edit }
  if shouldDeallocNow then return { chunks with state := ← chunks.state.dealloc chunkId }
  else return chunks

def deallocBatch (chunks : ChunkAlloc) (tid : Nat) (chunkIds : List Nat) : Checked ChunkAlloc :=
  chunkIds.foldlM (fun chunks chunkId => chunks.dealloc tid chunkId) chunks

def commit (chunks : ChunkAlloc) (tid : Nat) : Checked ChunkAlloc := do
  let edit ← unwrap (chunks.txs.get tid)
  let txs := chunks.txs.remove tid
  if edit.isEmpty then return { chunks with txs := txs }
  else return ⟨← edit.applyTo chunks.state, txs, chunks.committed ++ [edit]⟩

def abort (chunks : ChunkAlloc) (tid : Nat) : Checked ChunkAlloc := do
  let edit ← unwrap (chunks.txs.get tid)
  let state ← edit.allocatedChunks.foldlM ChunkAllocState.dealloc chunks.state
  return { chunks with state := state, txs := chunks.txs.remove tid }

def recover (chunks : ChunkAlloc) : Checked ChunkAlloc := do
  let state ← replay chunks.state.allocMap.length chunks.committed
  return { chunks with state := { state with inJournal := false }, txs := .empty }

inductive Event
  | newTx (tid : Nat)
  | alloc (tid : Nat)
  | allocBatch (tid count : Nat)
  | dealloc (tid chunkId : Nat)
  | deallocBatch (tid : Nat) (chunkIds : List Nat)
  | commit (tid : Nat)
  | abort (tid : Nat)
  | recover

def step (chunks : ChunkAlloc) : Event → Checked ChunkAlloc
  | .newTx tid => .ok (chunks.newTx tid)
  | .alloc tid => return (← chunks.alloc tid).2
  | .allocBatch tid count => return (← chunks.allocBatch tid count).2
  | .dealloc tid chunkId => chunks.dealloc tid chunkId
  | .deallocBatch tid chunkIds => chunks.deallocBatch tid chunkIds
  | .commit tid => chunks.commit tid
  | .abort tid => chunks.abort tid
  | .recover => chunks.recover

def run (capacity : Nat) (events : List Event) : Checked ChunkAlloc :=
  events.foldlM step (ChunkAlloc.new capacity)

end ChunkAlloc

end Kei.SecureDisk
