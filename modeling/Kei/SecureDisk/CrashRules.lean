import Kei.SecureDisk.WalRules

/-! Crash consistency: as long as every sync finds the records in memory in the WAL it writes, a
crash takes the tree back to the last completed sync, however often. -/

namespace Kei.SecureDisk

open Library Checked MemTable SortedMap List Option Nat TxLsmTree

variable {V : Type}

/-! ### Room in memory -/

namespace MemTable

structure Roomy (table : MemTable V) : Prop where
  counted : table.size = (held table.table.entries).length
  cap : table.cap = memtableCapacity
  room : table.size < memtableCapacity

theorem length_le_held (entries : List (Nat × ValueEx V)) : entries.length ≤ (held entries).length := by
  induction entries with
  | nil => exact le_refl _
  | cons entry rest ih =>
    have values : 0 < entry.2.values.length := by cases entry.2 <;> simp [ValueEx.values]
    rw [show held (entry :: rest) = _ ++ held rest from flatMap_cons, length_append,
      length_map, length_cons]
    omega

theorem length_held {entries : List (Nat × ValueEx V)}
    (unsynced : ∀ entry ∈ entries, entry.2.containsSynced = false) :
    (held entries).length = entries.length := by
  induction entries with
  | nil => rfl
  | cons entry rest ih =>
    have values : entry.2.values.length = 1 := by
      have first := unsynced entry mem_cons_self
      cases value : entry.2 <;> rw [value] at first <;> first | rfl | exact Bool.noConfusion first
    rw [show held (entry :: rest) = _ ++ held rest from flatMap_cons, length_append,
      length_map, length_cons, values, ih fun other member => unsynced other (mem_cons_of_mem _ member)]
    exact add_comm _ _

theorem put_counted {table : MemTable V} (counted : table.size = (held table.table.entries).length)
    (key : Nat) (value : V) :
    (table.put key value).size = (held (table.put key value).table.entries).length := by
  have cards := congrArg Multiset.card (table.put_ledger key value)
  simp only [Multiset.card_add, Multiset.coe_card, Multiset.card_singleton] at cards
  have size : (table.put key value).size + (table.putDropped key value).length = table.size + 1 := by
    unfold put putDropped
    cases table.table.get key with
    | none => rfl
    | some old => cases old <;> simp [ValueEx.put, droppedAt]
  omega

theorem sync_counted {table : MemTable V} (counted : table.size = (held table.table.entries).length)
    (syncId : Nat) : Ensures (table.sync syncId) fun next =>
      next.size = (held next.table.entries).length ∧ next.size ≤ table.size ∧ next.cap = table.cap := by
  rw [ensures_iff]
  intro next ran
  have cards := congrArg Multiset.card ((table.sync_ledger syncId).of_ok ran)
  obtain ⟨size, cap⟩ := (table.sync_size syncId).of_ok ran
  simp only [Multiset.card_add, Multiset.coe_card] at cards
  exact ⟨by omega, by omega, cap⟩

end MemTable

structure TxLsmTree.Roomy (tree : TxLsmTree V) : Prop where
  mutable : tree.memtableManager.mutable.Roomy
  immutable : tree.memtableManager.immutable.cap = memtableCapacity
  notFull : tree.memtableManager.isFull = false

namespace LsmStore

/-! ### Turns of the compaction thread -/

structure Turned (store next : LsmStore V) : Prop where
  memtables : next.tree.memtableManager = store.tree.memtableManager
  masterSyncId : next.tree.masterSyncId = store.tree.masterSyncId
  next_le : store.tree.nextLogId ≤ next.tree.nextLogId
  wal : next.wal = store.wal
  entries : next.entries = store.entries
  synced : next.synced = store.synced
  syncIdStore : next.syncIdStore = store.syncIdStore

theorem Turned.trans {store mid next : LsmStore V} (one : store.Turned mid) (two : mid.Turned next) :
    store.Turned next :=
  ⟨two.memtables.trans one.memtables, two.masterSyncId.trans one.masterSyncId,
    le_trans one.next_le two.next_le, two.wal.trans one.wal, two.entries.trans one.entries,
      two.synced.trans one.synced, two.syncIdStore.trans one.syncIdStore⟩

variable {tree : TxLsmTree V}

variable {store : LsmStore V} {answers : Nat → Option V}

section

variable (holds : store.tree.Holds answers) (sound : store.WalSound)
include holds sound

theorem turn_ensures :
    Ensures store.turn fun next => store.Turned next ∧ next.tree.Holds answers ∧ next.WalSound ∧
      store.tree.compact = .ok next.tree := by
  rw [ensures_iff]
  intro next ran
  obtain ⟨tree, compact, ran⟩ := bind_eq_ok.mp ran
  have holds' := (holds.step .turn).of_ok compact
  obtain ⟨masterSyncId, next_le⟩ := (compact_ids holds.sound).of_ok compact
  have memtables := ((compact_ensures holds.sound).of_ok compact).1.memtables
  have kept : WalSound { store with tree := tree } :=
    { ids := fun entry member => lt_of_lt_of_le (sound.ids entry member) next_le
      latest := fun id same => ⟨lt_of_lt_of_le (sound.latest id same).1 next_le, (sound.latest id same).2⟩
      opened := sound.opened
      sealed := fun id same => ⟨(sound.sealed id same).1, lt_of_lt_of_le (sound.sealed id same).2 next_le⟩ }
  split at ran
  · rename_i walId _ sealed
    cases ran
    refine ⟨⟨memtables, masterSyncId, next_le, rfl, ?_, rfl, rfl⟩, holds', ?_, compact⟩
    · show (store.wal.logId.bind (store.wals.remove walId).get).getD [] ++ _ = _
      have other := (sound.sealed walId sealed).1
      unfold entries
      cases logId : store.wal.logId with
      | none => rfl
      | some id =>
        rw [bind_some, bind_some, get_remove, if_neg]
        rintro rfl
        exact other logId
    · exact
        { ids := fun entry member => kept.ids entry (mem_remove.mp member).1
          latest := fun id same =>
            ⟨(kept.latest id same).1, fun entry member => (kept.latest id same).2 entry (mem_remove.mp member).1⟩
          opened := kept.opened
          sealed := fun id same => nomatch same }
  · cases ran
    exact ⟨⟨memtables, masterSyncId, next_le, rfl, rfl, rfl, rfl⟩, holds', kept, compact⟩

theorem turns_ensures (count : Nat) :
    Ensures (turns count store) fun next => store.Turned next ∧ next.tree.Holds answers ∧ next.WalSound ∧
      store.tree.compactFor count = .ok next.tree := by
  induction count generalizing store with
  | zero => exact ⟨⟨rfl, rfl, le_refl _, rfl, rfl, rfl, rfl⟩, holds, sound, rfl⟩
  | succ count ih =>
    refine (turn_ensures holds sound).bind ?_
    rintro mid ⟨turned, holds', sound', compact⟩
    refine (ih holds' sound').mono ?_
    rintro next ⟨turned', holds'', sound'', rest⟩
    refine ⟨turned.trans turned', holds'', sound'', ?_⟩
    rw [compactFor, compact, bind_ok]
    exact rest

theorem waitCompaction_ensures :
    Ensures store.waitCompaction fun next => store.Turned next ∧ next.tree.Holds answers ∧ next.WalSound ∧
      next.tree.compaction = none := by
  refine (turns_ensures holds sound 7).mono ?_
  rintro next ⟨turned, holds', sound', compacted⟩
  exact ⟨turned, holds', sound', ((TxLsmTree.waitCompaction_ensures holds.sound).of_ok compacted).2⟩

end

/-! ### The invariant of a run -/

/-- Every record in memory is in the WAL that is being written. Records recovered from an earlier
WAL are not, until their table was compacted. -/
def Logged (store : LsmStore V) : Prop :=
  ∀ entry ∈ store.tree.memtableManager.mutable.table.entries,
    lastOf (walRecords store.entries) entry.1 = some entry.2.get

def recoveredId (logs : Logs V) (syncIdStore : Option Nat) : Nat :=
  syncIdStore.getD (max (recoverFromWal logs).2 (maxSyncId logs.ssts))

structure Recoverable (logs : Logs V) (syncIdStore : Option Nat) (answers : Nat → Option V) : Prop where
  sound : logs.ssts.Sound logs.nextLogId
  older : ∀ level, ∀ entry ∈ (logs.ssts.levelSsts level).entries,
    entry.2.syncId < recoveredId logs syncIdStore
  wals : ∀ entry ∈ logs.wals.entries, entry.1 < logs.nextLogId
  reads : ∀ key, (lastOf (recoverFromWal logs).1 key).or (logs.ssts.get key) = answers key
  fits : ∃ keys : List Nat, keys.length < memtableCapacity ∧
    ∀ record ∈ (recoverFromWal logs).1, record.1 ∈ keys

structure Consistent (store : LsmStore V) (expected : Expected V) : Prop where
  holds : store.tree.Holds expected.current
  roomy : store.tree.Roomy
  sound : store.WalSound
  logged : ∀ key value, lastOf (walRecords store.entries) key = some value →
    store.tree.memtableManager.mutable.get key = some value
  recoverable : Recoverable store.synced store.syncIdStore expected.synced

theorem format_consistent (syncIdStore : Bool) : (format syncIdStore : LsmStore V).Consistent .initial where
  holds := format_holds _
  roomy := ⟨⟨rfl, rfl, (by decide : 0 < memtableCapacity)⟩, rfl, rfl⟩
  sound :=
    { ids := fun entry member => nomatch member
      latest := fun id same => nomatch same
      opened := fun absurdity => absurd rfl absurdity
      sealed := fun id same => nomatch same }
  logged _ _ absurdity := nomatch absurdity
  recoverable :=
    { sound := SstManager.new_sound
      older := fun level entry member => nomatch member
      wals := fun entry member => nomatch member
      reads := fun key => rfl
      fits := ⟨[], by decide, fun record member => nomatch member⟩ }

theorem holds_nextLogId (holds : tree.Holds answers)
    {nextLogId : Nat} (le : tree.nextLogId ≤ nextLogId) :
    TxLsmTree.Holds { tree with nextLogId := nextLogId } answers where
  sound :=
    { holds.sound with
      levels :=
        { holds.sound.levels with
          ssts := fun level entry member =>
            ⟨(holds.sound.levels.ssts level entry member).1, (holds.sound.levels.ssts level entry member).2.1,
              lt_of_lt_of_le (holds.sound.levels.ssts level entry member).2.2 le⟩ } }
  ordered := { holds.ordered with }
  lookup := holds.lookup

/-! ### Steps -/

variable {expected : Expected V}

theorem turn_consistent (consistent : store.Consistent expected) :
    Ensures store.turn (Consistent · expected) := by
  refine (turn_ensures consistent.holds consistent.sound).mono ?_
  rintro next ⟨turned, holds, sound, -⟩
  refine ⟨holds, ?_, sound, ?_, ?_⟩
  · exact ⟨turned.memtables ▸ consistent.roomy.mutable, turned.memtables ▸ consistent.roomy.immutable,
      turned.memtables ▸ consistent.roomy.notFull⟩
  · rw [turned.entries, turned.memtables]
    exact consistent.logged
  · rw [turned.synced, turned.syncIdStore]
    exact consistent.recoverable

theorem put_consistent (consistent : store.Consistent expected)
    (key : Nat) (value : V) : Ensures (store.put key value) (Consistent · (expected.after (.put key value))) := by
  obtain ⟨same, sound, ⟨id, appending⟩, records⟩ := append_spec consistent.sound key value
  obtain ⟨nextLogId, le, tree⟩ := same.tree
  unfold put
  generalize store.append key value = appended at *
  have holds : appended.tree.Holds expected.current := tree ▸ holds_nextLogId consistent.holds le
  have logged : ∀ other stored, lastOf (walRecords appended.entries) other = some stored →
      (appended.tree.memtableManager.mutable.put key value).get other = some stored := by
    intro other stored last
    rw [records, lastOf_append] at last
    rw [get_put, tree]
    split
    · rw [if_pos ‹_›] at last
      exact last
    · rw [if_neg ‹_›] at last
      exact consistent.logged other stored last
  have counted := put_counted consistent.roomy.mutable.counted key value
  refine (ensures_result _).bind ?_
  intro after stepped
  have holds' : after.Holds (expected.after (.put key value)).current :=
    (holds.step (.put key value)).of_ok stepped
  have result := (putRecord_result _ _ _).of_ok stepped
  have immutable : after.memtableManager.immutable.cap = memtableCapacity := by
    rw [result, tree]
    exact consistent.roomy.immutable
  have sound' : WalSound { appended with tree := after } := by
    subst result
    exact { sound with }
  have appending' : Appending { appended with tree := after } id := appending
  have recoverable : Recoverable appended.synced appended.syncIdStore expected.synced := by
    rw [same.synced, same.syncIdStore]
    exact consistent.recoverable
  refine meets_ite (fun full => ?_) fun open_ => ?_
  · obtain ⟨sealed, committed, sealedSound, sealedTree, logId, -, synced, syncIdStore, bound, empty⟩ :=
      commit_spec sound' appending'
    dsimp only at sealedTree
    rw [committed, bind_ok]
    refine (waitCompaction_ensures (sealedTree ▸ holds') sealedSound).bind ?_
    rintro waited ⟨turned, holdsWaited, soundWaited, -⟩
    refine (ensures_result _).bind ?_
    intro switched ran
    have holdsSwitched := (holdsWaited.step .switch).of_ok ran
    obtain ⟨-, mutable, noRecords, -, size, cap, rfl⟩ := (switch_result _).of_ok ran
    have memtables := turned.memtables.trans (congrArg memtableManager sealedTree)
    have noLog : waited.wal.logId = none := (congrArg WalAppendTx.logId turned.wal).trans logId
    have noEntries : waited.entries = [] := turned.entries.trans empty
    refine ⟨holdsSwitched, ⟨⟨?_, ?_, ?_⟩, ?_, rfl⟩, ?_, ?_, ?_⟩
    · dsimp only
      rw [noRecords, size]
      rfl
    · dsimp only
      rw [cap, memtables]
      exact immutable
    · dsimp only
      rw [size]
      decide
    · dsimp only
      rw [memtables, result, tree]
      exact consistent.roomy.mutable.cap
    · refine ⟨soundWaited.ids, soundWaited.latest, soundWaited.opened, ?_⟩
      intro other other_eq
      cases other_eq
      exact ⟨noLog ▸ (some_ne_none _).symm, lt_of_lt_of_le bound turned.next_le⟩
    · intro other stored last
      change lastOf (walRecords waited.entries) other = some stored at last
      rw [noEntries] at last
      exact nomatch last
    · dsimp only
      rw [turned.synced, turned.syncIdStore, synced, syncIdStore]
      exact recoverable
  · refine ⟨holds', ⟨⟨?_, ?_, ?_⟩, immutable, Bool.eq_false_iff.mpr open_⟩, sound', ?_, recoverable⟩
    · subst result
      rw [tree]
      exact counted
    · subst result
      rw [tree]
      exact consistent.roomy.mutable.cap
    · subst result
      simp only [atCapacity, decide_eq_true_eq, not_le] at open_
      refine lt_of_lt_of_eq open_ ?_
      rw [tree]
      exact consistent.roomy.mutable.cap
    · subst result
      exact logged

theorem maxSyncId_le {ssts : SstManager V} {bound : Nat}
    (below : ∀ level, ∀ entry ∈ (ssts.levelSsts level).entries, entry.2.syncId ≤ bound) :
    maxSyncId ssts ≤ bound := by
  have fold : ∀ (entries : List (Nat × SSTable V)) (start : Nat), start ≤ bound →
      (∀ entry ∈ entries, entry.2.syncId ≤ bound) →
      entries.foldl (fun syncId entry => max syncId entry.2.syncId) start ≤ bound := by
    intro entries
    induction entries with
    | nil => exact fun start lower _ => lower
    | cons entry rest ih =>
      intro start lower all
      refine ih _ (Nat.max_le.mpr ⟨lower, all entry mem_cons_self⟩) ?_
      exact fun other member => all other (mem_cons_of_mem _ member)
  refine fold _ 0 (zero_le _) ?_
  intro entry member
  obtain ⟨level, -, inside⟩ := mem_flatMap.mp member
  exact below level entry inside

theorem Consistent.keys (consistent : store.Consistent expected) :
    ∃ keys : List Nat, keys.length < memtableCapacity ∧
      ∀ record ∈ walRecords store.entries, record.1 ∈ keys := by
  have counted := consistent.roomy.mutable.counted
  have room := consistent.roomy.mutable.room
  have fewer := length_le_held store.tree.memtableManager.mutable.table.entries
  refine ⟨store.tree.memtableManager.mutable.table.entries.map Prod.fst, ?_, ?_⟩
  · rw [length_map]
    omega
  · intro record member
    obtain ⟨value, last⟩ := lastOf_isSome member
    obtain ⟨stored, held, -⟩ := map_eq_some_iff.mp (consistent.logged record.1 value last)
    exact mem_map.mpr ⟨_, get_eq_some.mp held, rfl⟩

theorem sync_consistent (consistent : store.Consistent expected)
    (all : store.Logged) : Ensures store.sync (Consistent · (expected.after .sync)) := by
  unfold sync
  refine (waitCompaction_ensures consistent.holds consistent.sound).bind ?_
  rintro waited ⟨turned, holds, sound, idle⟩
  obtain ⟨walSynced, ran, sound', ⟨nextLogId, le, tree⟩, -, syncIdStore, records, recovered⟩ :=
    syncWal_spec sound (store.tree.masterSyncId + 1)
  rw [ran, bind_ok]
  have holds' : walSynced.tree.Holds expected.current := tree ▸ holds_nextLogId holds le
  refine (ensures_result _).bind ?_
  intro synced stepped
  have holdsSynced := (holds'.step .sync).of_ok stepped
  obtain ⟨-, mutable, sync, rfl⟩ := (syncRecords_result _).of_ok stepped
  have memtables : walSynced.tree.memtableManager = store.tree.memtableManager := by
    rw [tree]
    exact turned.memtables
  have masterSyncId : walSynced.tree.masterSyncId = store.tree.masterSyncId := by
    rw [tree]
    exact turned.masterSyncId
  rw [memtables] at sync
  obtain ⟨counted, smaller, cap⟩ := (sync_counted consistent.roomy.mutable.counted _).of_ok sync
  have same := (sync_get _ _).of_ok sync
  rw [turned.entries] at records recovered
  have room := consistent.roomy.mutable.room
  refine ⟨holdsSynced, ⟨⟨counted, ?_, ?_⟩, ?_, ?_⟩, ?_, ?_, ?_⟩
  · exact cap.trans consistent.roomy.mutable.cap
  · exact lt_of_le_of_lt smaller room
  · dsimp only
    rw [memtables]
    exact consistent.roomy.immutable
  · dsimp only
    rw [memtables]
    exact consistent.roomy.notFull
  · exact ⟨sound'.ids, sound'.latest, sound'.opened, sound'.sealed⟩
  · intro key value last
    change lastOf (walRecords walSynced.entries) key = some value at last
    rw [records] at last
    exact (same key).trans (consistent.logged key value last)
  · have idle' : walSynced.tree.compaction = none := by
      rw [tree]
      exact idle
    have newId : recoveredId ⟨walSynced.wals, walSynced.tree.sstManager, walSynced.tree.nextLogId⟩
        (walSynced.syncIdStore.map fun _ => walSynced.tree.masterSyncId + 1) =
          walSynced.tree.masterSyncId + 1 := by
      unfold recoveredId
      rw [recovered, ← masterSyncId]
      cases walSynced.syncIdStore with
      | none => exact max_eq_left (le_succ_of_le (maxSyncId_le holds'.ordered.ids))
      | some stored => rfl
    refine ⟨holdsSynced.sound.levels, ?_, sound'.ids, ?_, ?_⟩
    · intro level entry member
      show entry.2.syncId < recoveredId ⟨_, _, _⟩ _
      rw [newId]
      exact lt_succ_of_le (holds'.ordered.ids level entry member)
    · intro key
      rw [recovered]
      show _ = expected.current key
      rw [← holds'.lookup key, TxLsmTree.lookup, memtables, MemTableManager.get_eq_or]
      cases inMutable : store.tree.memtableManager.mutable.get key with
      | some value =>
        obtain ⟨stored, held, rfl⟩ := map_eq_some_iff.mp inMutable
        rw [all _ (get_eq_some.mp held)]
        rfl
      | none =>
        have absent : lastOf (walRecords store.entries) key = none := by
          cases last : lastOf (walRecords store.entries) key with
          | none => rfl
          | some value =>
            rw [consistent.logged key value last] at inMutable
            cases inMutable
        rw [absent]
        cases inImmutable : store.tree.memtableManager.immutable.get key with
        | none => rfl
        | some value =>
          rw [← memtables] at inImmutable
          exact holds'.sound.flushed idle' key value inImmutable
    · rw [recovered]
      exact consistent.keys

/-! ### Recovery -/

structure Filled (syncId : Nat) (records : List (Nat × V)) (manager : MemTableManager V) : Prop where
  get : ∀ key, manager.mutable.get key = lastOf records key
  unsynced : ∀ entry ∈ manager.mutable.table.entries, entry.2.containsSynced = false
  roomy : manager.mutable.Roomy
  range : manager.mutable.unsyncedRange = none
  current : manager.mutable.syncId = syncId
  immutable : manager.immutable = .new memtableCapacity syncId
  notFull : manager.isFull = false

theorem recoverMemtableManager_returns (syncId : Nat) {records : List (Nat × V)} {keys : List Nat}
    (fits : keys.length < memtableCapacity) (inside : ∀ record ∈ records, record.1 ∈ keys) :
    Returns (recoverMemtableManager syncId records) (Filled syncId records) := by
  induction records using List.reverseRecOn with
  | nil =>
    exact
      { get := fun _ => rfl
        unsynced := fun entry member => nomatch member
        roomy := ⟨rfl, rfl, lt_of_le_of_lt (zero_le _) fits⟩
        range := rfl
        current := rfl
        immutable := rfl
        notFull := rfl }
  | append_singleton records record ih =>
    obtain ⟨key, value⟩ := record
    rw [recoverMemtableManager, foldlM_append]
    refine (ih fun record member => inside record (mem_append_left _ member)).bind ?_
    intro manager filled
    rw [foldlM_cons, MemTableManager.put, filled.notFull]
    simp only [Bool.not_false, assert, if_true, bind_ok, foldlM_nil, pure_eq_ok]
    have unsynced : ∀ entry ∈ (manager.mutable.put key value).table.entries, entry.2.containsSynced = false := by
      intro entry member
      rcases mem_put member with ⟨-, same | ⟨old, held, same⟩⟩ | ⟨-, kept⟩
      · rw [same]
        rfl
      · rw [same, ValueEx.containsSynced_put]
        exact filled.unsynced _ held
      · exact filled.unsynced entry kept
    have get : ∀ other, (manager.mutable.put key value).get other = lastOf (records ++ [(key, value)]) other := by
      intro other
      rw [get_put, lastOf_append, filled.get]
    have counted := put_counted filled.roomy.counted key value
    have size : (manager.mutable.put key value).size < memtableCapacity := by
      have distinct := (manager.mutable.put key value).table.ascending.keys_nodup
      have among : (manager.mutable.put key value).table.entries.map Prod.fst ⊆ keys := by
        intro other member
        obtain ⟨entry, listed, rfl⟩ := mem_map.mp member
        have found : (manager.mutable.put key value).get entry.1 = some entry.2.get :=
          map_eq_some_iff.mpr ⟨entry.2, get_eq_some.mpr listed, rfl⟩
        rw [get] at found
        exact inside _ (mem_of_lastOf found)
      have fewer := (distinct.subperm among).length_le
      rw [length_map] at fewer
      rw [counted, length_held unsynced]
      exact lt_of_le_of_lt fewer fits
    exact
      { get := get
        unsynced := unsynced
        roomy := ⟨counted, filled.roomy.cap, size⟩
        range := by
          show manager.mutable.unsyncedRange.map _ = none
          rw [filled.range]
          rfl
        current := filled.current
        immutable := filled.immutable
        notFull := by
          show decide (manager.mutable.cap ≤ _) = false
          rw [filled.roomy.cap]
          exact decide_eq_false (not_le.mpr size) }

theorem doMigrationTx_eq (older : ∀ level, ∀ entry ∈ (tree.sstManager.levelSsts level).entries,
    entry.2.syncId < tree.masterSyncId) : doMigrationTx tree = .ok tree := by
  have nothing : unsyncedSsts tree = [] := by
    refine flatMap_eq_nil_iff.mpr ?_
    intro level _
    rw [map_eq_nil_iff, filter_eq_nil_iff]
    intro entry member
    have lower := older level entry (mem_reverse.mp member)
    rw [beq_iff_eq]
    omega
  unfold doMigrationTx
  rw [nothing]
  rfl

theorem recover_returns {logs : Logs V} {syncIdStore : Option Nat}
    (recoverable : Recoverable logs syncIdStore answers) :
    Returns (recover logs syncIdStore) (Consistent · ⟨answers, answers⟩) := by
  obtain ⟨keys, fits, inside⟩ := recoverable.fits
  unfold recover
  refine (recoverMemtableManager_returns _ fits inside).bind ?_
  intro manager filled
  rw [doMigrationTx_eq recoverable.older, bind_ok]
  have sound : TxLsmTree.Sound ⟨manager, logs.ssts, recoveredId logs syncIdStore, logs.nextLogId, none⟩ := by
    refine ⟨recoverable.sound, ?_⟩
    intro _ key value held
    dsimp only at held
    rw [filled.immutable] at held
    cases held
  have settled : ∀ level, ∀ entry ∈ (logs.ssts.levelSsts level).entries, ∀ newer : List (Nat × ValueEx V),
      Over newer (entry.2.iter (recoveredId logs syncIdStore) false) :=
    fun level entry member newer =>
      over_of_synced ((recoverable.sound.ssts level entry member).1.iter_synced (recoverable.older level entry member))
  have ordered : TxLsmTree.Ordered ⟨manager, logs.ssts, recoveredId logs syncIdStore, logs.nextLogId, none⟩ :=
    { current := filled.current
      covered := fun entry _ unsynced => by
        dsimp only
        rw [unsyncedAt, unsynced, filled.range]
        rfl
      waiting := by
        dsimp only
        rw [filled.immutable]
        exact le_refl _
      ids := fun level entry member => le_of_lt (recoverable.older level entry member)
      mutable_over := fun level entry member => settled level entry member _
      mutable_immutable := fun busy => absurd rfl busy
      immutable_over := fun busy => absurd rfl busy
      levels_over := fun _ other _ _ older member _ => settled other older member _ }
  refine ⟨⟨sound, ordered, ?_⟩, ⟨filled.roomy, ?_, filled.notFull⟩, ?_, ?_, recoverable⟩
  · intro key
    show (manager.get key).or (logs.ssts.get key) = answers key
    rw [MemTableManager.get_eq_or, filled.get, filled.immutable, get_new, or_none]
    exact recoverable.reads key
  · dsimp only
    rw [filled.immutable]
    rfl
  · exact
      { ids := recoverable.wals
        latest := by rintro _ ⟨⟩
        opened := fun absurdity => absurd rfl absurdity
        sealed := by rintro _ ⟨⟩ }
  · intro key value last
    cases last

/-! ### Runs -/

/-- The states of runs in which every sync finds the records in memory in the WAL it writes, with
the map the events stand for. -/
inductive Reaches (syncIdStore : Bool) : LsmStore V → Expected V → Prop
  | format : Reaches syncIdStore (format syncIdStore) .initial
  | step {store next : LsmStore V} {expected : Expected V} (event : StoreEvent V)
      (reached : Reaches syncIdStore store expected) (logged : event = .sync → store.Logged)
      (ran : store.step event = .ok next) : Reaches syncIdStore next (expected.after event)

theorem Reaches.consistent {syncIdStore : Bool}
    (reached : Reaches syncIdStore store expected) : store.Consistent expected := by
  induction reached with
  | format => exact format_consistent syncIdStore
  | step event reached logged ran ih =>
    cases event with
    | put key value => exact (put_consistent ih key value).of_ok ran
    | sync => exact (sync_consistent ih (logged rfl)).of_ok ran
    | turn => exact (turn_consistent ih).of_ok ran
    | crash => exact (recover_returns ih.recoverable).of_ok ran

/-- In such a run, a crash at any point is recovered from, and reads then find exactly what
each key held at the last completed sync. -/
theorem crash_consistent (syncIdStore : Bool) (store : LsmStore V) (expected : Expected V)
    (reached : Reaches syncIdStore store expected) :
    ∃ next, store.crash = .ok next ∧ next.tree.Reads expected.synced := by
  obtain ⟨next, ran, consistent⟩ := (recover_returns reached.consistent.recoverable).exists_ok
  exact ⟨next, ran, consistent.holds.reads⟩

/-- One record, synced: it is there after a crash, and nothing else. -/
theorem crash_consistent_synced : ∃ store : LsmStore Bool,
    Reaches false store (Expected.history [.put 7 true, .sync, .put 8 true]) ∧
      ∃ next, store.crash = .ok next ∧
        next.tree.Reads (Expected.history [.put 7 true, .sync, .put 8 true]).synced := by
  have logged : ∀ store : LsmStore Bool, (format false).step (.put 7 true) = .ok store → store.Logged := by
    intro store ran
    cases ran
    intro entry member
    cases mem_singleton.mp member
    rfl
  have first : Reaches false _ _ := .step (.put 7 true) .format nofun rfl
  have second : Reaches false _ _ := .step .sync first (fun _ => logged _ rfl) rfl
  have third : Reaches false _ _ := .step (.put 8 true) second nofun rfl
  exact ⟨_, third, crash_consistent false _ _ third⟩

/-- A record recovered from a WAL is not in the WAL the next sync writes. After another crash it is lost. -/
theorem crash_loses_recovered : ∃ store : LsmStore Bool,
    run false [.put 7 true, .sync, .crash, .sync, .crash] = .ok store ∧
      (Expected.history [.put 7 true, .sync, .crash, .sync, .crash]).synced 7 = some true ∧
      store.tree.get 7 = .ok none :=
  ⟨_, rfl, rfl, rfl⟩

end LsmStore

end Kei.SecureDisk
