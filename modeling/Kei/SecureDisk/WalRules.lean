import Kei.SecureDisk.Recovery

/-! The write-ahead log: which log is current, what it holds, and that a scan of it after a sync
finds all of that. -/

namespace Kei.SecureDisk

open Library Checked List Option Nat

variable {V : Type}

def walRecords (entries : List (WalEntry V)) : List (Nat × V) :=
  entries.filterMap fun
    | .record key value => some (key, value)
    | .sync _ => none

theorem scan_records (entries : List (WalEntry V)) (scan : WalScan V) :
    (entries.foldl WalScan.add scan).records = scan.records ++ walRecords entries := by
  induction entries generalizing scan with
  | nil => exact (append_nil _).symm
  | cons entry rest ih =>
    rw [foldl_cons, ih]
    cases entry with
    | record key value => exact append_assoc _ _ _
    | sync syncId => rfl

theorem collect_synced (entries : List (WalEntry V)) (syncId : Nat) :
    WalAppendTx.collectSyncedRecordsAndSyncId (entries ++ [.sync syncId]) = (walRecords entries, syncId) := by
  unfold WalAppendTx.collectSyncedRecordsAndSyncId WalScan.synced
  rw [foldl_append]
  simp only [foldl_cons, foldl_nil, WalScan.add, take_length, scan_records]
  rfl

namespace LsmStore

def entries (store : LsmStore V) : List (WalEntry V) :=
  (store.wal.logId.bind store.wals.get).getD [] ++ store.wal.appendedLog.getD []

structure WalSound (store : LsmStore V) : Prop where
  ids : ∀ entry ∈ store.wals.entries, entry.1 < store.tree.nextLogId
  latest : ∀ id, store.wal.logId = some id → id < store.tree.nextLogId ∧
    ∀ entry ∈ store.wals.entries, entry.1 ≤ id
  opened : store.wal.appendedLog ≠ none → store.wal.logId ≠ none
  sealed : ∀ id, store.sealed = some id → store.wal.logId ≠ some id ∧ id < store.tree.nextLogId

def Appending (store : LsmStore V) (id : Nat) : Prop :=
  ∃ appended, store.wal.appendedLog = some appended ∧ store.wal.logId = some id

structure SameBut (store next : LsmStore V) : Prop where
  tree : ∃ nextLogId, store.tree.nextLogId ≤ nextLogId ∧
    next.tree = { store.tree with nextLogId := nextLogId }
  wals : next.wals = store.wals
  sealed : next.sealed = store.sealed
  synced : next.synced = store.synced
  syncIdStore : next.syncIdStore = store.syncIdStore

variable {store : LsmStore V}

theorem prepare_spec (sound : store.WalSound) :
    store.SameBut store.prepare ∧ store.prepare.WalSound ∧ (∃ id, store.prepare.Appending id) ∧
      walRecords store.prepare.entries = walRecords store.entries := by
  obtain ⟨tree, ⟨appendedLog, logId, syncId⟩, wals, sealed, synced, syncIdStore⟩ := store
  cases appendedLog with
  | some appended =>
    cases logId with
    | none => exact absurd rfl (sound.opened (some_ne_none _))
    | some id => exact ⟨⟨⟨_, le_refl _, rfl⟩, rfl, rfl, rfl, rfl⟩, sound, ⟨id, appended, rfl, rfl⟩, rfl⟩
  | none =>
    cases logId with
    | some id =>
      refine ⟨⟨⟨_, le_refl _, rfl⟩, rfl, rfl, rfl, rfl⟩, ?_, ⟨id, _, rfl, rfl⟩, ?_⟩
      · exact ⟨sound.ids, sound.latest, fun _ => some_ne_none _, sound.sealed⟩
      · simp [prepare, entries, walRecords]
    | none =>
      refine ⟨⟨⟨_, le_succ _, rfl⟩, rfl, rfl, rfl, rfl⟩, ?_, ⟨_, _, rfl, rfl⟩, ?_⟩
      · refine ⟨?_, ?_, fun _ => some_ne_none _, ?_⟩
        · intro entry member
          exact lt_succ_of_lt (sound.ids entry member)
        · intro id same
          cases same
          exact ⟨lt_succ_self _, fun entry member => le_of_lt (sound.ids entry member)⟩
        · intro id same
          obtain ⟨-, bound⟩ := sound.sealed id same
          refine ⟨fun other => ?_, lt_succ_of_lt bound⟩
          cases other
          exact lt_irrefl _ bound
      · have absent : wals.get tree.nextLogId = none := by
          rw [SortedMap.get, Ascending.lookup_eq_none]
          intro value member
          exact lt_irrefl _ (sound.ids _ member)
        simp [prepare, entries, walRecords, absent]

variable {id : Nat}

theorem appendEntry_spec (sound : store.WalSound) (appending : store.Appending id)
    (entry : WalEntry V) :
    store.SameBut (store.appendEntry entry) ∧ (store.appendEntry entry).WalSound ∧
      (store.appendEntry entry).Appending id ∧ (store.appendEntry entry).entries = store.entries ++ [entry] := by
  obtain ⟨appended, same, logId⟩ := appending
  refine ⟨⟨⟨_, le_refl _, rfl⟩, rfl, rfl, rfl, rfl⟩, ?_, ⟨appended ++ [entry], ?_, logId⟩, ?_⟩
  · refine ⟨sound.ids, sound.latest, ?_, sound.sealed⟩
    intro _
    show store.wal.logId ≠ none
    rw [logId]
    exact some_ne_none _
  · show store.wal.appendedLog.map _ = _
    rw [same]
    rfl
  · simp [entries, appendEntry, same, logId]

theorem SameBut.trans {store mid next : LsmStore V} (one : store.SameBut mid) (two : mid.SameBut next) :
    store.SameBut next := by
  obtain ⟨first, le, tree⟩ := one.tree
  obtain ⟨second, le', tree'⟩ := two.tree
  refine ⟨⟨second, ?_, ?_⟩, two.wals.trans one.wals, two.sealed.trans one.sealed,
    two.synced.trans one.synced, two.syncIdStore.trans one.syncIdStore⟩
  · rw [tree] at le'
    exact le_trans le le'
  · rw [tree', tree]

theorem append_spec (sound : store.WalSound) (key : Nat) (value : V) :
    store.SameBut (store.append key value) ∧ (store.append key value).WalSound ∧
      (∃ id, (store.append key value).Appending id) ∧
      walRecords (store.append key value).entries = walRecords store.entries ++ [(key, value)] := by
  obtain ⟨same, sound', ⟨id, appending⟩, records⟩ := prepare_spec sound
  obtain ⟨same', sound'', appending', entries⟩ := appendEntry_spec sound' appending (.record key value)
  refine ⟨same.trans same', sound'', ⟨id, appending'⟩, ?_⟩
  rw [append, entries, ← records, walRecords, filterMap_append]
  rfl

theorem commitEntries_eq (appending : store.Appending id) : store.commitEntries = .ok ({ store with
      wal := { store.wal with appendedLog := none }
      wals := store.wals.insert id store.entries }, id) := by
  obtain ⟨appended, same, logId⟩ := appending
  simp [commitEntries, entries, same, logId, unwrap, bind_ok]

theorem commitEntries_sound (sound : store.WalSound)
    (appending : store.Appending id) :
    WalSound { store with
      wal := { store.wal with appendedLog := none }
      wals := store.wals.insert id store.entries } := by
  obtain ⟨appended, -, logId⟩ := appending
  obtain ⟨bound, latest⟩ := sound.latest id logId
  refine ⟨?_, ?_, fun absurdity => absurd rfl absurdity, sound.sealed⟩
  · intro entry member
    rcases SortedMap.mem_insert.mp member with rfl | ⟨old, -⟩
    · exact bound
    · exact sound.ids entry old
  · intro other same
    cases logId.symm.trans same
    refine ⟨bound, ?_⟩
    intro entry member
    rcases SortedMap.mem_insert.mp member with rfl | ⟨old, -⟩
    · exact le_refl _
    · exact latest entry old

theorem commit_spec (sound : store.WalSound) (appending : store.Appending id) :
    ∃ next, store.commit = .ok (next, id) ∧ next.WalSound ∧ next.tree = store.tree ∧ next.wal.logId = none ∧
      next.sealed = store.sealed ∧ next.synced = store.synced ∧ next.syncIdStore = store.syncIdStore ∧
      id < next.tree.nextLogId ∧ next.entries = [] := by
  have sound' := commitEntries_sound sound appending
  have bound := (sound.latest id appending.choose_spec.2).1
  unfold commit
  rw [commitEntries_eq appending, bind_ok]
  refine ⟨_, rfl, ⟨sound'.ids, ?_, ?_, ?_⟩, rfl, rfl, rfl, rfl, rfl, bound, rfl⟩
  · intro other same
    exact nomatch same
  · exact fun absurdity => absurd rfl absurdity
  · intro other same
    exact ⟨(some_ne_none _).symm, (sound.sealed other same).2⟩

theorem getLast?_of_max {ν : Type} {map : SortedMap Nat ν} {entry : Nat × ν} (member : entry ∈ map.entries)
    (above : ∀ other ∈ map.entries, other.1 ≤ entry.1) : map.entries.getLast? = some entry := by
  obtain ⟨front, last, split⟩ := eq_nil_or_concat' map.entries |>.resolve_left (ne_nil_of_mem member)
  have ascending := map.ascending
  rw [split] at member above ascending ⊢
  rw [List.getLast?_concat]
  rcases mem_append.mp member with early | late
  · have lower := (pairwise_append.mp ascending).2.2 entry early last (mem_singleton_self _)
    have upper := above last (mem_append_right _ (mem_singleton_self _))
    omega
  · rw [mem_singleton.mp late]

theorem syncWal_spec (sound : store.WalSound) (syncId : Nat) :
    ∃ next, store.syncWal syncId = .ok next ∧ next.WalSound ∧
      (∃ nextLogId, store.tree.nextLogId ≤ nextLogId ∧
        next.tree = { store.tree with nextLogId := nextLogId }) ∧
      next.synced = store.synced ∧ next.syncIdStore = store.syncIdStore ∧
      walRecords next.entries = walRecords store.entries ∧
      ∀ ssts nextLogId, recoverFromWal ⟨next.wals, ssts, nextLogId⟩ = (walRecords store.entries, syncId) := by
  obtain ⟨same, sound', ⟨id, appending⟩, records⟩ := prepare_spec sound
  obtain ⟨same', sound'', appending', appended⟩ := appendEntry_spec sound' appending (.sync syncId)
  have both := same.trans same'
  have logged : walRecords (store.prepare.appendEntry (.sync syncId)).entries = walRecords store.entries := by
    rw [appended, ← records, walRecords, filterMap_append]
    exact append_nil _
  dsimp only [syncWal]
  generalize store.prepare.appendEntry (.sync syncId) = prepared at *
  have soundId : WalSound { prepared with wal := { prepared.wal with syncId := syncId } } :=
    ⟨sound''.ids, sound''.latest, sound''.opened, sound''.sealed⟩
  have appendingId : Appending { prepared with wal := { prepared.wal with syncId := syncId } } id := appending'
  have kept := commitEntries_sound soundId appendingId
  have logId : prepared.wal.logId = some id := appending'.choose_spec.2
  rw [commitEntries_eq appendingId, bind_ok]
  refine ⟨_, rfl, kept, both.tree, both.synced, both.syncIdStore, ?_, ?_⟩
  · rw [← logged]
    show walRecords ((prepared.wal.logId.bind (prepared.wals.insert id prepared.entries).get).getD [] ++ []) = _
    rw [logId, bind_some, SortedMap.get_insert, if_pos rfl, getD_some, append_nil]
  · intro ssts nextLogId
    have last := getLast?_of_max (SortedMap.mem_insert.mpr (.inl rfl)) (kept.latest id logId).2
    unfold recoverFromWal
    dsimp only at last ⊢
    rw [last]
    show WalAppendTx.collectSyncedRecordsAndSyncId prepared.entries = _
    rw [appended, collect_synced, records]

end LsmStore

end Kei.SecureDisk
