import Kei.SecureDisk.TreeRules

/-! The tree as its listener sees it. Requests and the work of the compaction thread are cut into
their atomic steps, and each step comes with the records the listener is told to have dropped.
In which order a step tells several of them is left open. -/

namespace Kei.SecureDisk

open Library Checked List

variable {V : Type}

def ValueEx.values : ValueEx V → List V
  | synced value => [value]
  | unsynced value => [value]
  | syncedAndUnsynced old value => [old, value]

def held (records : List (Nat × ValueEx V)) : List (Nat × V) :=
  records.flatMap fun record => record.2.values.map fun value => (record.1, value)

def droppedAt (key : Nat) (dropped : Option V) : List (Nat × V) :=
  dropped.toList.map fun value => (key, value)

namespace MemTable

def putDropped (table : MemTable V) (key : Nat) (value : V) : List (Nat × V) :=
  match table.table.get key with
  | some old => droppedAt key (old.put value).2
  | none => []

def syncDropped (table : MemTable V) (syncId : Nat) : List (Nat × V) :=
  if table.syncId = syncId then []
  else table.table.entries.flatMap fun entry =>
    if table.unsyncedAt entry.1 entry.2 then droppedAt entry.1 entry.2.sync.2 else []

theorem length_syncDropped (table : MemTable V) (entries : List (Nat × ValueEx V)) :
    (entries.flatMap fun entry =>
        if table.unsyncedAt entry.1 entry.2 then droppedAt entry.1 entry.2.sync.2 else []).length =
      ((entries.filter fun entry => table.unsyncedAt entry.1 entry.2).filter
        fun entry => entry.2.sync.2.isSome).length := by
  induction entries with
  | nil => rfl
  | cons entry rest ih =>
    rw [flatMap_cons, length_append, ih, filter_cons]
    cases table.unsyncedAt entry.1 entry.2 with
    | false => simp
    | true => cases dropped : entry.2.sync.2 <;> simp [droppedAt, dropped, Nat.add_comm]

theorem sync_result (table : MemTable V) (syncId : Nat) :
    Ensures (table.sync syncId) fun next => next.syncId = syncId ∧
      (table.syncId = syncId ∧ next = table ∨ table.syncId ≠ syncId ∧
        next.table = table.table.mapValues fun key value =>
          if table.unsyncedAt key value then value.sync.1 else value) := by
  unfold sync
  refine (ensures_true _).bind fun _ _ => meets_ite (fun same => ⟨same, .inl ⟨same, rfl⟩⟩) fun different => ?_
  exact (ensures_true _).bind fun _ _ => ⟨rfl, .inr ⟨different, rfl⟩⟩

theorem sync_size (table : MemTable V) (syncId : Nat) : Ensures (table.sync syncId) fun next =>
      next.size + (table.syncDropped syncId).length = table.size ∧ next.cap = table.cap := by
  unfold sync
  refine (ensures_true _).bind fun _ _ => meets_ite (fun same => ?_) fun different => ?_
  · exact ⟨by rw [syncDropped, if_pos same]; rfl, rfl⟩
  · refine (sub_ensures _ _).bind ?_
    rintro size ⟨bound, rfl⟩
    refine ⟨?_, rfl⟩
    rw [syncDropped, if_neg different, length_syncDropped]
    exact Nat.sub_add_cancel bound

end MemTable

namespace SSTable

def scanDropped (allSynced discardUnsynced : Bool) : ValueEx V → Option V
  | .synced _ => none
  | .unsynced value =>
    if allSynced then none
    else if discardUnsynced then some value else none
  | .syncedAndUnsynced old value =>
    if allSynced then some old
    else if discardUnsynced then some value else none

def blockDropped (allSynced discardUnsynced : Bool) (block : RecordBlock V) : List (Nat × V) :=
  block.records.flatMap fun record => droppedAt record.1 (scanDropped allSynced discardUnsynced record.2)

def restDropped (allSynced discardUnsynced : Bool) : List (RecordBlock V) → List (Nat × V)
  | [] => []
  | block :: rest =>
    blockDropped allSynced discardUnsynced block ++
      if (scanBlock allSynced discardUnsynced block).isEmpty then []
      else restDropped allSynced discardUnsynced rest

def iterDropped (sst : SSTable V) (syncId : Nat) (discardUnsynced : Bool) : List (Nat × V) :=
  let allSynced := decide (sst.syncId < syncId)
  blockDropped allSynced discardUnsynced sst.firstBlock ++
    restDropped allSynced discardUnsynced sst.restBlocks

end SSTable

namespace Compactor

def droppedValue (new old : ValueEx V) : Option V :=
  match compactValueEx new old with
  | .ok result => result.2
  | .error _ => none

def droppedRecords : List (Nat × ValueEx V) → List (Nat × ValueEx V) → List (Nat × V)
  | [], _ => []
  | _, [] => []
  | (upperKey, new) :: upper, (lowerKey, old) :: lower =>
    if upperKey < lowerKey then droppedRecords upper ((lowerKey, old) :: lower)
    else if lowerKey < upperKey then droppedRecords ((upperKey, new) :: upper) lower
    else droppedAt upperKey (droppedValue new old) ++ droppedRecords upper lower
  termination_by upper lower => upper.length + lower.length

end Compactor

inductive TreeStep (V : Type)
  /-- A record goes into the mutable table, which is not full. -/
  | put (key : Nat) (value : V)
  /-- The full mutable table becomes the immutable one, and its compaction starts. -/
  | switch
  /-- One turn of the compaction thread: a table moves one level down, or the immutable
  table becomes one of the top level. -/
  | turn
  | sync
  deriving DecidableEq, Repr

namespace TxLsmTree

def step (tree : TxLsmTree V) : TreeStep V → Checked (TxLsmTree V)
  | .put key value => tree.putRecord key value
  | .switch => tree.switch
  | .turn => tree.compact
  | .sync => tree.syncRecords

def majorDropped (tree : TxLsmTree V) (toLevel : LsmLevel) : List (Nat × V) :=
  match toLevel.upperLevel with
  | .error _ => []
  | .ok fromLevel =>
    match (tree.sstManager.listLevel fromLevel).getLast? with
    | none => []
    | some (_, upper) =>
      let lower := tree.lowerSsts upper.range toLevel
      if lower.isEmpty then []
      else
        let upperRecords := upper.iter tree.masterSyncId false
        let lowerRecords := lower.flatMap fun entry => entry.2.iter tree.masterSyncId false
        upper.iterDropped tree.masterSyncId false ++
          (lower.flatMap fun entry => entry.2.iterDropped tree.masterSyncId false) ++
          Compactor.droppedRecords upperRecords lowerRecords

def dropped (tree : TxLsmTree V) : TreeStep V → List (Nat × V)
  | .put key value => tree.memtableManager.mutable.putDropped key value
  | .switch => []
  | .turn =>
    match tree.compaction with
    | some (.major toLevel) => tree.majorDropped toLevel
    | _ => []
  | .sync => tree.memtableManager.mutable.syncDropped (tree.masterSyncId + 1)

def stored (tree : TxLsmTree V) : List (Nat × V) :=
  held tree.memtableManager.mutable.table.entries ++
    (if tree.compaction.isSome then held tree.memtableManager.immutable.table.entries else []) ++
    tree.ssts.flatMap fun sst => held sst.records

/-! ### What a step does -/

section

variable (tree : TxLsmTree V)
include tree

theorem putRecord_result (key : Nat) (value : V) : Ensures (tree.putRecord key value) fun next =>
      next = { tree with memtableManager :=
        ⟨tree.memtableManager.mutable.put key value, tree.memtableManager.immutable,
          (tree.memtableManager.mutable.put key value).atCapacity⟩ } := by
  rw [ensures_iff]
  intro next ran
  obtain ⟨result, put, ran⟩ := bind_eq_ok.mp ran
  obtain ⟨-, -, put⟩ := bind_eq_ok.mp put
  cases put
  cases ran
  rfl

theorem switch_result :
    Ensures tree.switch fun next => tree.compaction = none ∧ ∃ mutable : MemTable V,
      mutable.table.entries = [] ∧ mutable.syncId = tree.memtableManager.mutable.syncId ∧
      mutable.size = 0 ∧ mutable.cap = tree.memtableManager.immutable.cap ∧
      next = { tree with
        memtableManager := ⟨mutable, tree.memtableManager.mutable, false⟩, compaction := some .start } := by
  rw [ensures_iff]
  intro next ran
  obtain ⟨_, idle, ran⟩ := bind_eq_ok.mp ran
  have idle := Option.isNone_iff_eq_none.mp ((assert_ensures _).of_ok idle)
  obtain ⟨manager, switched, ran⟩ := bind_eq_ok.mp ran
  obtain ⟨-, -, switched⟩ := bind_eq_ok.mp switched
  obtain ⟨-, -, switched⟩ := bind_eq_ok.mp switched
  obtain ⟨mutable, synced, switched⟩ := bind_eq_ok.mp switched
  cases switched
  cases ran
  obtain ⟨size, cap⟩ := (MemTable.sync_size _ _).of_ok synced
  have empty : mutable.size = 0 := Nat.eq_zero_of_add_eq_zero_right size
  obtain ⟨syncId, same | ⟨-, same⟩⟩ := (MemTable.sync_result _ _).of_ok synced
  · exact ⟨idle, mutable, by rw [same.2]; rfl, syncId, empty, cap, rfl⟩
  · exact ⟨idle, mutable, by rw [same]; rfl, syncId, empty, cap, rfl⟩

theorem syncRecords_result :
    Ensures tree.syncRecords fun next => tree.compaction = none ∧ ∃ mutable : MemTable V,
      tree.memtableManager.mutable.sync (tree.masterSyncId + 1) = .ok mutable ∧
      next = { tree with
        memtableManager := { tree.memtableManager with mutable := mutable }
        masterSyncId := tree.masterSyncId + 1 } := by
  rw [ensures_iff]
  intro next ran
  obtain ⟨_, idle, ran⟩ := bind_eq_ok.mp ran
  have idle := Option.isNone_iff_eq_none.mp ((assert_ensures _).of_ok idle)
  obtain ⟨manager, synced, ran⟩ := bind_eq_ok.mp ran
  obtain ⟨mutable, sync, synced⟩ := bind_eq_ok.mp synced
  cases synced
  cases ran
  exact ⟨idle, mutable, sync, rfl⟩

theorem doMinorCompaction_result :
    Ensures tree.doMinorCompaction fun next => ∃ sst : SSTable V, sst.Sound ∧
      sst.records = tree.memtableManager.immutable.table.entries ∧ sst.id = tree.nextLogId ∧
      sst.syncId = tree.memtableManager.immutable.syncId ∧
      next = { tree with sstManager := tree.sstManager.insert sst .l0, nextLogId := tree.nextLogId + 1 } := by
  unfold doMinorCompaction
  refine (SSTable.build_ensures tree.memtableManager.immutable.table.ascending _ _).bind ?_
  rintro sst ⟨sound, records, id, syncId⟩
  exact ⟨sst, sound, records, id, syncId, rfl⟩

theorem compact_cases : Ensures tree.compact fun next =>
      tree.compaction = none ∧ next = tree ∨
      (tree.compaction = some .start ∧ ∃ task, next = { tree with compaction := some task }) ∨
      (∃ toLevel lowered task, tree.compaction = some (.major toLevel) ∧
        tree.doMajorCompaction toLevel = .ok lowered ∧ next = { lowered with compaction := some task }) ∨
      (tree.compaction = some .minor ∧ ∃ flushed, tree.doMinorCompaction = .ok flushed ∧
        next = { flushed with compaction := none }) := by
  unfold compact
  cases task : tree.compaction with
  | none => exact .inl ⟨rfl, rfl⟩
  | some current =>
    cases current with
    | start => exact (ensures_true _).bind fun _ _ => .inr (.inl ⟨rfl, _, rfl⟩)
    | major toLevel =>
      refine (ensures_result _).bind fun lowered ran => (ensures_true _).bind fun _ _ => ?_
      refine meets_ite (fun _ => ?_) fun _ => .inr (.inr (.inl ⟨toLevel, lowered, _, rfl, ran, rfl⟩))
      exact (ensures_true _).bind fun _ _ => .inr (.inr (.inl ⟨toLevel, lowered, _, rfl, ran, rfl⟩))
    | minor => exact (ensures_result _).bind fun flushed ran => .inr (.inr (.inr ⟨rfl, flushed, ran, rfl⟩))

end

/-! ### Requests as runs of steps -/

theorem compact_ids {tree : TxLsmTree V} (sound : tree.Sound) :
    Ensures tree.compact fun next => next.masterSyncId = tree.masterSyncId ∧ tree.nextLogId ≤ next.nextLogId := by
  rw [ensures_iff]
  intro next ran
  rcases (compact_cases tree).of_ok ran with ⟨-, rfl⟩ | ⟨-, task, rfl⟩ |
    ⟨toLevel, lowered, task, -, major, rfl⟩ | ⟨-, flushed, minor, rfl⟩
  · exact ⟨rfl, le_refl _⟩
  · exact ⟨rfl, le_refl _⟩
  · obtain ⟨_, _, _, _, lowers⟩ := (doMajorCompaction_lowers sound.levels toLevel).of_ok major
    exact ⟨lowers.masterSyncId, lowers.next_le⟩
  · obtain ⟨_, -, -, -, -, rfl⟩ := (doMinorCompaction_result tree).of_ok minor
    exact ⟨rfl, Nat.le_succ _⟩

end TxLsmTree

structure Listened (V : Type) where
  tree : TxLsmTree V
  told : List (Nat × V)

namespace Listened

def format (capacity : Nat) : Listened V := ⟨.format capacity, []⟩

def step (listened : Listened V) (step : TreeStep V) : Checked (Listened V) := do
  let next ← listened.tree.step step
  .ok ⟨next, listened.told ++ listened.tree.dropped step⟩

/-- From a new tree, whose tables hold `capacity` records. -/
def run (capacity : Nat) (steps : List (TreeStep V)) : Checked (Listened V) := steps.foldlM step (format capacity)

end Listened

def recordsPut (steps : List (TreeStep V)) : List (Nat × V) :=
  steps.filterMap fun
    | .put key value => some (key, value)
    | _ => none

def lastOf (records : List (Nat × V)) (key : Nat) : Option V := records.reverse.lookup key

theorem lastOf_append (records : List (Nat × V)) (key other : Nat) (value : V) :
    lastOf (records ++ [(key, value)]) other = if other = key then some value else lastOf records other := by
  rw [lastOf, reverse_append]
  show lookup other ((key, value) :: records.reverse) = _
  rw [lookup_cons]
  by_cases same : other = key
  · simp [same]
  · simp [same, beq_false_of_ne same, lastOf]

variable {records : List (Nat × V)}

theorem mem_of_lastOf {key : Nat} {value : V}
    (last : lastOf records key = some value) : (key, value) ∈ records := by
  obtain ⟨front, back, split, -⟩ := lookup_eq_some_iff.mp last
  rw [← mem_reverse, split]
  exact mem_append_right _ mem_cons_self

theorem lastOf_isSome {record : Nat × V} (member : record ∈ records) :
    ∃ value, lastOf records record.1 = some value := by
  rw [← Option.isSome_iff_exists, ← Option.ne_none_iff_isSome]
  intro absent
  exact Ascending.lookup_eq_none.mp absent record.2 (mem_reverse.mpr member)

def lastPut (steps : List (TreeStep V)) (key : Nat) : Option V := lastOf (recordsPut steps) key

end Kei.SecureDisk
