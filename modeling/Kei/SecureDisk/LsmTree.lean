import Kei.SecureDisk.SsTable
import Mathlib.Algebra.Order.Ring.Nat

/-! The logical block table: a transactional log-structured merge tree. Records go to the
mutable table in memory; a full table is switched with the immutable one, and a background
thread compacts that one into the top level of sorted tables, moving tables down first
where a level holds too many. Logs are numbered in the order they are created. -/

namespace Kei.SecureDisk

open Library Checked

def memtableCapacity : Nat := 2097152

def sstableCapacity : Nat := memtableCapacity

inductive LsmLevel
  | l0 | l1 | l2 | l3 | l4 | l5
  deriving DecidableEq, Repr

namespace LsmLevel

def iter : List LsmLevel := [l0, l1, l2, l3, l4, l5]

def toNat : LsmLevel → Nat
  | l0 => 0
  | l1 => 1
  | l2 => 2
  | l3 => 3
  | l4 => 4
  | l5 => 5

def upperLevel : LsmLevel → Checked LsmLevel
  | l0 => .error .assertFailed
  | l1 => .ok l0
  | l2 => .ok l1
  | l3 => .ok l2
  | l4 => .ok l3
  | l5 => .ok l4

def lowerLevel : LsmLevel → Checked LsmLevel
  | l0 => .ok l1
  | l1 => .ok l2
  | l2 => .ok l3
  | l3 => .ok l4
  | l4 => .ok l5
  | l5 => .error .assertFailed

end LsmLevel

structure SstManager (V : Type) where
  levelSsts : LsmLevel → SortedMap Nat (SSTable V)

namespace SstManager

variable {V : Type}

def new : SstManager V := ⟨fun _ => .empty⟩

variable (manager : SstManager V)

def listLevel (level : LsmLevel) : List (Nat × SSTable V) :=
  (manager.levelSsts level).entries.reverse

def change (level : LsmLevel)
    (edit : SortedMap Nat (SSTable V) → SortedMap Nat (SSTable V)) : SstManager V :=
  ⟨fun other => if other = level then edit (manager.levelSsts level) else manager.levelSsts other⟩

def insert (sst : SSTable V) (level : LsmLevel) : SstManager V :=
  manager.change level fun ssts => ssts.insert sst.id sst

def remove (id : Nat) (level : LsmLevel) : SstManager V :=
  manager.change level fun ssts => ssts.remove id

def moveSst (id : Nat) (source target : LsmLevel) : Checked (SstManager V) := do
  let moved ← unwrap ((manager.levelSsts source).get id)
  .ok ((manager.remove id source).change target fun ssts => ssts.insert id moved)

def findOverlappedSsts (range : Nat × Nat) (level : LsmLevel) : List (Nat × SSTable V) :=
  (manager.listLevel level).filter fun entry => entry.2.overlapWith range

def requireMajorCompaction (level : LsmLevel) : Checked Bool := do
  assert (level != .l5)
  .ok (if level = .l0 then 4 ≤ (manager.levelSsts level).size
    else 10 ^ level.toNat ≤ (manager.levelSsts level).size)

end SstManager

namespace Compactor

variable {V : Type}

def compactValueEx (new old : ValueEx V) : Checked (ValueEx V × Option V) :=
  match new, old with
  | .synced newer, .synced older => .ok (.synced newer, some older)
  | .unsynced newer, .synced older => .ok (.syncedAndUnsynced older newer, none)
  | .unsynced newer, .unsynced older => .ok (.unsynced newer, some older)
  | .unsynced newer, .syncedAndUnsynced older dropped =>
    .ok (.syncedAndUnsynced older newer, some dropped)
  | .syncedAndUnsynced synced unsynced, .synced older =>
    .ok (.syncedAndUnsynced synced unsynced, some older)
  | _, _ => .error .assertFailed

def compactRecords : List (Nat × ValueEx V) → List (Nat × ValueEx V) → Checked (List (Nat × ValueEx V))
  | [], lower => .ok lower
  | upper, [] => .ok upper
  | (upperKey, new) :: upper, (lowerKey, old) :: lower =>
    if upperKey < lowerKey then do
      let rest ← compactRecords upper ((lowerKey, old) :: lower)
      .ok ((upperKey, new) :: rest)
    else if lowerKey < upperKey then do
      let rest ← compactRecords ((upperKey, new) :: upper) lower
      .ok ((lowerKey, old) :: rest)
    else do
      let (value, _) ← compactValueEx new old
      let rest ← compactRecords upper lower
      .ok ((upperKey, value) :: rest)
  termination_by upper lower => upper.length + lower.length

/-- Cut the records into tables of at most the capacity, each under a fresh log. Also
returns the number of the next log. -/
def buildSsts (syncId nextLogId : Nat) (records : List (Nat × ValueEx V)) :
    Checked (List (SSTable V) × Nat) :=
  if records = [] then .ok ([], nextLogId)
  else do
    let sst ← SSTable.build nextLogId syncId (records.take sstableCapacity)
    let (rest, next) ← buildSsts syncId (nextLogId + 1) (records.drop sstableCapacity)
    .ok (sst :: rest, next)
  termination_by records.length
  decreasing_by
    have : 0 < records.length := List.length_pos_iff.mpr ‹_›
    simp only [List.length_drop, sstableCapacity, memtableCapacity]
    omega

end Compactor

inductive Task
  | start
  | major (toLevel : LsmLevel)
  | minor
  deriving DecidableEq, Repr

structure TxLsmTree (V : Type) where
  memtableManager : MemTableManager V
  sstManager : SstManager V
  masterSyncId : Nat
  nextLogId : Nat
  compaction : Option Task

namespace TxLsmTree

variable {V : Type}

def format (capacity : Nat) : TxLsmTree V where
  memtableManager := .new 0 capacity
  sstManager := .new
  masterSyncId := 0
  nextLogId := 0
  compaction := none

variable (tree : TxLsmTree V)

def ssts : List (SSTable V) :=
  LsmLevel.iter.flatMap fun level => (tree.sstManager.listLevel level).map Prod.snd

def doReadTx (key : Nat) : List (SSTable V) → Checked (Option V)
  | [] => .ok none
  | sst :: rest =>
    if sst.isWithinRange key then do
      match ← sst.accessPoint key with
      | some value => .ok (some value)
      | none => doReadTx key rest
    else doReadTx key rest

def get (key : Nat) : Checked (Option V) :=
  match tree.memtableManager.get key with
  | some value => .ok (some value)
  | none => doReadTx key tree.ssts

def doReadRangeTx : List (SSTable V) → RangeQueryCtx V → Checked (RangeQueryCtx V × Bool)
  | [], ctx => .ok (ctx, false)
  | sst :: rest, ctx => do
    let range ← unwrap (← ctx.rangeUncompleted)
    if sst.overlapWith range then do
      let ctx ← sst.accessRange ctx
      if ctx.isCompleted then .ok (ctx, true) else doReadRangeTx rest ctx
    else doReadRangeTx rest ctx

def getRange (ctx : RangeQueryCtx V) : Checked (RangeQueryCtx V × Bool) := do
  let (ctx, completed) ← tree.memtableManager.getRange ctx
  if completed then .ok (ctx, true)
  else do
    assert !ctx.isCompleted
    doReadRangeTx tree.ssts ctx

def doMinorCompaction : Checked (TxLsmTree V) := do
  let immutable := tree.memtableManager.immutable
  let sst ← SSTable.build tree.nextLogId immutable.syncId immutable.table.entries
  .ok { tree with
    sstManager := tree.sstManager.insert sst .l0
    nextLogId := tree.nextLogId + 1 }

def lowerSsts (range : Nat × Nat) (level : LsmLevel) : List (Nat × SSTable V) :=
  (tree.sstManager.findOverlappedSsts range level).mergeSort
    fun left right => left.2.range.1 ≤ right.2.range.1

def doMajorCompaction (toLevel : LsmLevel) : Checked (TxLsmTree V) := do
  let fromLevel ← toLevel.upperLevel
  let (upperId, upper) ← unwrap (tree.sstManager.listLevel fromLevel).getLast?
  let lower := tree.lowerSsts upper.range toLevel
  if lower.isEmpty then do
    let manager ← tree.sstManager.moveSst upperId fromLevel toLevel
    .ok { tree with sstManager := manager }
  else do
    let upperRecords := upper.iter tree.masterSyncId false
    let lowerRecords := lower.flatMap fun entry => entry.2.iter tree.masterSyncId false
    let merged ← Compactor.compactRecords upperRecords lowerRecords
    let (created, nextLogId) ← Compactor.buildSsts tree.masterSyncId tree.nextLogId merged
    let inserted := created.foldl (fun manager sst => manager.insert sst toLevel) tree.sstManager
    let removed := lower.foldl (fun manager entry => manager.remove entry.1 toLevel)
      (inserted.remove upperId fromLevel)
    .ok { tree with sstManager := removed, nextLogId := nextLogId }

def compact : Checked (TxLsmTree V) :=
  match tree.compaction with
  | none => .ok tree
  | some .start => do
    let required ← tree.sstManager.requireMajorCompaction .l0
    .ok { tree with compaction := some (if required then .major .l1 else .minor) }
  | some (.major toLevel) => do
    let tree ← tree.doMajorCompaction toLevel
    let required ← tree.sstManager.requireMajorCompaction toLevel
    if required then do
      let lowerLevel ← toLevel.lowerLevel
      .ok { tree with compaction := some (.major lowerLevel) }
    else .ok { tree with compaction := some .minor }
  | some .minor => do
    let tree ← tree.doMinorCompaction
    .ok { tree with compaction := none }

def compactFor : Nat → TxLsmTree V → Checked (TxLsmTree V)
  | 0, tree => .ok tree
  | turns + 1, tree => do
    let tree ← tree.compact
    compactFor turns tree

def waitCompaction : Checked (TxLsmTree V) := tree.compactFor 7

def putRecord (key : Nat) (value : V) : Checked (TxLsmTree V) := do
  let result ← tree.memtableManager.put key value
  .ok { tree with memtableManager := result.1 }

def switch : Checked (TxLsmTree V) := do
  assert tree.compaction.isNone
  let manager ← tree.memtableManager.switch
  .ok { tree with memtableManager := manager, compaction := some .start }

def syncRecords : Checked (TxLsmTree V) := do
  assert tree.compaction.isNone
  let manager ← tree.memtableManager.sync (tree.masterSyncId + 1)
  .ok { tree with memtableManager := manager, masterSyncId := tree.masterSyncId + 1 }

def put (key : Nat) (value : V) : Checked (TxLsmTree V) := do
  let tree ← tree.putRecord key value
  if tree.memtableManager.isFull then (← tree.waitCompaction).switch else .ok tree

def sync : Checked (TxLsmTree V) := do (← tree.waitCompaction).syncRecords

end TxLsmTree

end Kei.SecureDisk
