import Kei.SecureDisk.TreeRefines

/-! The tree over its logs: records are written ahead to a log, a completed sync makes the logs
durable, and after a crash the tree is rebuilt from the logs of the last completed sync. A log is
kept as its sequence of entries. -/

namespace Kei.SecureDisk

open Library Checked

variable {V : Type}

inductive WalEntry (V : Type)
  | record (key : Nat) (value : V)
  | sync (syncId : Nat)
  deriving DecidableEq, Repr

/-- What was read of a WAL: its records, the last sync ID, and how many records stand before it. -/
structure WalScan (V : Type) where
  records : List (Nat × V)
  maxSyncId : Option Nat
  syncedLen : Nat

namespace WalScan

def new : WalScan V := ⟨[], none, 0⟩

def add (scan : WalScan V) : WalEntry V → WalScan V
  | .record key value => { scan with records := scan.records ++ [(key, value)] }
  | .sync syncId => { scan with maxSyncId := some syncId, syncedLen := scan.records.length }

def synced (scan : WalScan V) : List (Nat × V) × Nat :=
  match scan.maxSyncId with
  | some maxSyncId => (scan.records.take scan.syncedLen, maxSyncId)
  | none => ([], 0)

end WalScan

/-- The state of the append TX: the entries appended in the ongoing TX, if there is one, the log
they belong to, and the current sync ID, which is the first entry of every TX. -/
structure WalAppendTx (V : Type) where
  appendedLog : Option (List (WalEntry V))
  logId : Option Nat
  syncId : Nat

namespace WalAppendTx

def new (syncId : Nat) : WalAppendTx V := ⟨none, none, syncId⟩

def collectSyncedRecordsAndSyncId (wal : List (WalEntry V)) : List (Nat × V) × Nat :=
  (wal.foldl WalScan.add .new).synced

end WalAppendTx

/-- The logs of the tree: the WALs and the sorted tables, by the numbers they were created under. -/
structure Logs (V : Type) where
  wals : SortedMap Nat (List (WalEntry V))
  ssts : SstManager V
  nextLogId : Nat

/-- The tree with the WALs that are committed, the one that goes when the compaction under way is
done, the logs a crash would leave, and the master sync ID kept elsewhere, if it is. -/
structure LsmStore (V : Type) where
  tree : TxLsmTree V
  wal : WalAppendTx V
  wals : SortedMap Nat (List (WalEntry V))
  sealed : Option Nat
  synced : Logs V
  syncIdStore : Option Nat

namespace LsmStore

def format (syncIdStore : Bool) : LsmStore V where
  tree := .format memtableCapacity
  wal := .new 0
  wals := .empty
  sealed := none
  synced := ⟨.empty, .new, 0⟩
  syncIdStore := if syncIdStore then some 0 else none

/-! ### Write-ahead logging -/

variable (store : LsmStore V)

def prepare : LsmStore V :=
  match store.wal.appendedLog with
  | some _ => store
  | none =>
    let wal := { store.wal with appendedLog := some [.sync store.wal.syncId] }
    match store.wal.logId with
    | some _ => { store with wal := wal }
    | none =>
      { store with
        tree := { store.tree with nextLogId := store.tree.nextLogId + 1 }
        wal := { wal with logId := some store.tree.nextLogId } }

def commitEntries : Checked (LsmStore V × Nat) := do
  let entries ← unwrap store.wal.appendedLog
  let walId ← unwrap store.wal.logId
  let committed := (store.wals.get walId).getD []
  .ok ({ store with
    wal := { store.wal with appendedLog := none }
    wals := store.wals.insert walId (committed ++ entries) }, walId)

def appendEntry (entry : WalEntry V) : LsmStore V :=
  { store with wal :=
    { store.wal with appendedLog := store.wal.appendedLog.map fun entries => entries ++ [entry] } }

def append (key : Nat) (value : V) : LsmStore V :=
  store.prepare.appendEntry (.record key value)

def commit : Checked (LsmStore V × Nat) := do
  let result ← store.commitEntries
  .ok ({ result.1 with wal := { result.1.wal with logId := none } }, result.2)

def syncWal (syncId : Nat) : Checked (LsmStore V) := do
  let prepared := store.prepare.appendEntry (.sync syncId)
  let result ← { prepared with wal := { prepared.wal with syncId := syncId } }.commitEntries
  .ok result.1

/-! ### Requests and compaction -/

/-- One turn of the compaction thread. The minor compaction discards the WAL of its table. -/
def turn : Checked (LsmStore V) := do
  let tree ← store.tree.compact
  match store.tree.compaction, store.sealed with
  | some .minor, some walId =>
    .ok { store with tree := tree, wals := store.wals.remove walId, sealed := none }
  | _, _ => .ok { store with tree := tree }

def turns : Nat → LsmStore V → Checked (LsmStore V)
  | 0, store => .ok store
  | count + 1, store => do turns count (← store.turn)

def waitCompaction : Checked (LsmStore V) := turns 7 store

def put (key : Nat) (value : V) : Checked (LsmStore V) := do
  let store := store.append key value
  let tree ← store.tree.putRecord key value
  let store := { store with tree := tree }
  if tree.memtableManager.isFull then do
    let result ← store.commit
    let store ← result.1.waitCompaction
    let tree ← store.tree.switch
    .ok { store with tree := tree, sealed := some result.2 }
  else .ok store

def sync : Checked (LsmStore V) := do
  let masterSyncId := store.tree.masterSyncId + 1
  let store ← store.waitCompaction
  let store ← store.syncWal masterSyncId
  let tree ← store.tree.syncRecords
  .ok { store with
    tree := tree
    syncIdStore := store.syncIdStore.map fun _ => tree.masterSyncId
    synced := ⟨store.wals, tree.sstManager, tree.nextLogId⟩ }

/-! ### Recovery -/

def recoverFromWal (logs : Logs V) : List (Nat × V) × Nat :=
  match logs.wals.entries.getLast? with
  | none => ([], 0)
  | some wal => WalAppendTx.collectSyncedRecordsAndSyncId wal.2

def maxSyncId (ssts : SstManager V) : Nat :=
  (LsmLevel.iter.flatMap fun level => (ssts.levelSsts level).entries).foldl
    (fun syncId entry => max syncId entry.2.syncId) 0

def recoverMemtableManager (syncId : Nat) (records : List (Nat × V)) : Checked (MemTableManager V) :=
  records.foldlM (fun manager record => do
      let result ← manager.put record.1 record.2
      .ok result.1)
    (.new syncId memtableCapacity)

structure Migrated (V : Type) where
  created : List (SSTable V × LsmLevel)
  deleted : List (Nat × LsmLevel)
  nextLogId : Nat

/-- A table that may have unsynced records is written anew with its synced records, or it is
deleted if it has none. -/
def migrateSst (masterSyncId : Nat) (migrated : Migrated V) (entry : LsmLevel × Nat × SSTable V) :
    Checked (Migrated V) :=
  let records := entry.2.2.iter masterSyncId true
  if records.isEmpty then
    .ok { migrated with deleted := migrated.deleted ++ [(entry.2.1, entry.1)] }
  else do
    let sst ← SSTable.build migrated.nextLogId masterSyncId records
    .ok { migrated with
      created := migrated.created ++ [(sst, entry.1)]
      nextLogId := migrated.nextLogId + 1 }

def unsyncedSsts (tree : TxLsmTree V) : List (LsmLevel × Nat × SSTable V) :=
  LsmLevel.iter.flatMap fun level =>
    ((tree.sstManager.listLevel level).filter fun entry => entry.2.syncId == tree.masterSyncId).map
      fun entry => (level, entry)

def doMigrationTx (tree : TxLsmTree V) : Checked (TxLsmTree V) := do
  let migrated ← (unsyncedSsts tree).foldlM (migrateSst tree.masterSyncId) ⟨[], [], tree.nextLogId⟩
  let inserted := migrated.created.foldl (fun manager sst => manager.insert sst.1 sst.2) tree.sstManager
  let removed := migrated.deleted.foldl (fun manager sst => manager.remove sst.1 sst.2) inserted
  .ok { tree with sstManager := removed, nextLogId := migrated.nextLogId }

def recover (logs : Logs V) (syncIdStore : Option Nat) : Checked (LsmStore V) := do
  let recovered := recoverFromWal logs
  let syncId := syncIdStore.getD (max recovered.2 (maxSyncId logs.ssts))
  let manager ← recoverMemtableManager syncId recovered.1
  let tree ← doMigrationTx ⟨manager, logs.ssts, syncId, logs.nextLogId, none⟩
  .ok ⟨tree, .new syncId, logs.wals, none, logs, syncIdStore⟩

def crash : Checked (LsmStore V) := recover store.synced store.syncIdStore

end LsmStore

inductive StoreEvent (V : Type)
  | put (key : Nat) (value : V)
  | sync
  | turn
  | crash
  deriving DecidableEq, Repr

namespace LsmStore

def step (store : LsmStore V) : StoreEvent V → Checked (LsmStore V)
  | .put key value => store.put key value
  | .sync => store.sync
  | .turn => store.turn
  | .crash => store.crash

def run (syncIdStore : Bool) (events : List (StoreEvent V)) : Checked (LsmStore V) :=
  events.foldlM step (format syncIdStore)

end LsmStore

structure Expected (V : Type) where
  current : Nat → Option V
  synced : Nat → Option V

namespace Expected

def initial : Expected V := ⟨fun _ => none, fun _ => none⟩

def after (expected : Expected V) : StoreEvent V → Expected V
  | .put key value =>
    { expected with current := fun other => if other = key then some value else expected.current other }
  | .sync => { expected with synced := expected.current }
  | .turn => expected
  | .crash => { expected with current := expected.synced }

def history (events : List (StoreEvent V)) : Expected V := events.foldl after initial

end Expected

end Kei.SecureDisk
