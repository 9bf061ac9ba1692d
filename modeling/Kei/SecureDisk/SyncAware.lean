import Kei.SecureDisk.CrashRules
import Kei.Library.Stream

/-! The two tables in memory, over every sequence of requests. Of each table the records put
before and since its last sync are remembered, the latest first, with what it told its listener. -/

namespace Kei.SecureDisk

open Library Checked Multiset

variable {V : Type}

/-- What is stored of a key: its latest record before the last sync, and its latest since then. -/
def ValueEx.stored : Option V → Option V → Option (ValueEx V)
  | none, none => none
  | some old, none => some (.synced old)
  | none, some value => some (.unsynced value)
  | some old, some value => some (.syncedAndUnsynced old value)

structure Past (V : Type) where
  before : List (Nat × V) := []
  since : List (Nat × V) := []
  told : List (Nat × V) := []

namespace MemTable

structure Aware (table : MemTable V) (past : Past V) : Prop where
  stored : ∀ key, table.table.get key = ValueEx.stored (past.before.lookup key) (past.since.lookup key)
  size : table.size = (held table.table.entries).length
  covered : ∀ entry ∈ table.table.entries, entry.2.containsUnsynced = true →
    table.unsyncedAt entry.1 entry.2 = true
  told : (past.told : Multiset (Nat × V)) + held table.table.entries = (past.since ++ past.before : List (Nat × V))

def pastSync (table : MemTable V) (past : Past V) (syncId : Nat) : Past V :=
  if table.syncId = syncId then { past with told := past.told ++ table.syncDropped syncId }
  else ⟨past.since ++ past.before, [], past.told ++ table.syncDropped syncId⟩

variable {table : MemTable V} {past : Past V}

theorem new_aware (cap syncId : Nat) : (new cap syncId : MemTable V).Aware {} := by
  refine ⟨fun _ => rfl, rfl, ?_, rfl⟩
  rintro entry ⟨⟩

theorem clear_aware (table : MemTable V) : table.clear.Aware {} := by
  refine ⟨fun _ => rfl, rfl, ?_, rfl⟩
  rintro entry ⟨⟩

variable (aware : table.Aware past)
include aware

theorem Aware.put (key : Nat) (value : V) : (table.put key value).Aware
    { past with since := (key, value) :: past.since, told := past.told ++ table.putDropped key value } := by
  refine ⟨fun other => ?_, put_counted aware.size key value, put_covered aware.covered key value, ?_⟩
  · show SortedMap.get (SortedMap.insert _ key _) other = _
    rw [SortedMap.get_insert, List.lookup_cons]
    by_cases same : other = key
    · rw [if_pos same, same, BEq.rfl, aware.stored key]
      cases past.before.lookup key <;> cases past.since.lookup key <;> rfl
    · rw [if_neg same, aware.stored other, beq_false_of_ne same]
  · rw [← coe_add, add_assoc, put_ledger, add_left_comm, aware.told]
    rfl

theorem Aware.unsyncedAt_eq {key : Nat} {value : ValueEx V} (stored : table.table.get key = some value) :
    table.unsyncedAt key value = value.containsUnsynced := by
  cases unsynced : value.containsUnsynced with
  | true => exact aware.covered (key, value) (SortedMap.get_eq_some.mp stored) unsynced
  | false => rw [unsyncedAt, unsynced, Bool.false_and]

theorem Aware.sync (syncId : Nat) :
    Ensures (table.sync syncId) fun next => next.Aware (table.pastSync past syncId) := by
  rw [ensures_iff]
  intro next ran
  obtain ⟨-, ⟨same, rfl⟩ | ⟨different, changed⟩⟩ := (sync_result table syncId).of_ok ran
  · rw [pastSync, if_pos same, syncDropped, if_pos same, List.append_nil]
    exact aware
  have stored : ∀ key, next.table.get key = ValueEx.stored ((past.since ++ past.before).lookup key) none := by
    intro key
    rw [changed, SortedMap.get_mapValues, List.lookup_append]
    cases held : table.table.get key with
    | none =>
      rw [aware.stored key] at held
      revert held
      cases past.before.lookup key <;> cases past.since.lookup key <;> rintro ⟨⟩
      rfl
    | some value =>
      rw [Option.map_some, aware.unsyncedAt_eq held]
      rw [aware.stored key] at held
      revert held
      cases past.before.lookup key <;> cases past.since.lookup key <;> rintro ⟨⟩ <;> rfl
  rw [pastSync, if_neg different]
  refine ⟨stored, ((sync_counted aware.size syncId).of_ok ran).1, ?_, ?_⟩
  · rintro ⟨key, value⟩ member unsynced
    have found := SortedMap.get_eq_some.mpr member
    rw [stored] at found
    revert found
    cases (past.since ++ past.before).lookup key <;> rintro ⟨⟩
    cases unsynced
  · rw [← coe_add, add_assoc, (table.sync_ledger syncId).of_ok ran, aware.told]
    rfl

theorem Aware.sync_ok {syncId : Nat} (later : table.syncId ≤ syncId) : ∃ next, table.sync syncId = .ok next := by
  have ledger := congrArg Multiset.card table.visited_ledger
  rw [card_add, coe_card, length_syncDropped, coe_card, coe_card, ← aware.size] at ledger
  unfold MemTable.sync
  rw [assert, if_pos (decide_eq_true later), bind_ok]
  split
  · exact ⟨_, rfl⟩
  · dsimp only
    rw [sub_ok (by omega), bind_ok]
    exact ⟨_, rfl⟩

end MemTable

inductive MemEvent (V : Type)
  | put (key : Nat) (value : V)
  | sync (syncId : Nat)
  | switch
  | get (key : Nat)

structure MemRun (V : Type) where
  manager : MemTableManager V
  mutable : Past V := {}
  immutable : Past V := {}

namespace MemRun

def step (run : MemRun V) : MemEvent V → Checked (MemRun V)
  | .put key value => do
    let (manager, _) ← run.manager.put key value
    return { run with
      manager
      mutable := { run.mutable with
        since := (key, value) :: run.mutable.since
        told := run.mutable.told ++ run.manager.mutable.putDropped key value } }
  | .sync syncId => do
    let manager ← run.manager.sync syncId
    return { run with manager, mutable := run.manager.mutable.pastSync run.mutable syncId }
  | .switch => do
    let manager ← run.manager.switch
    return ⟨manager, run.manager.immutable.clear.pastSync {} run.manager.mutable.syncId, run.mutable⟩
  | .get _ => return run

structure Aware (run : MemRun V) : Prop where
  mutable : run.manager.mutable.Aware run.mutable
  immutable : run.manager.immutable.Aware run.immutable

theorem step_aware {run next : MemRun V} {event : MemEvent V} (aware : run.Aware)
    (ran : run.step event = .ok next) : next.Aware := by
  obtain ⟨mutable, immutable⟩ := aware
  cases event with
  | put key value =>
    obtain ⟨⟨manager, full⟩, put, ran⟩ := bind_eq_ok.mp ran
    obtain ⟨_, -, put⟩ := bind_eq_ok.mp put
    cases put
    cases ran
    exact ⟨mutable.put key value, immutable⟩
  | sync syncId =>
    obtain ⟨manager, sync, ran⟩ := bind_eq_ok.mp ran
    obtain ⟨table, ensured, made⟩ := bind_eq_ok.mp sync
    cases made
    cases ran
    exact ⟨(mutable.sync syncId).of_ok ensured, immutable⟩
  | switch =>
    obtain ⟨manager, switch, ran⟩ := bind_eq_ok.mp ran
    obtain ⟨_, -, switch⟩ := bind_eq_ok.mp switch
    obtain ⟨_, -, switch⟩ := bind_eq_ok.mp switch
    obtain ⟨table, sync, made⟩ := bind_eq_ok.mp switch
    cases made
    cases ran
    exact ⟨((MemTable.clear_aware _).sync _).of_ok sync, mutable⟩
  | get key =>
    cases ran
    exact ⟨mutable, immutable⟩

/-- A sync changes nothing that the table synced under that number before, and nothing in the table
that was switched out. -/
theorem sync_leaves_unsynced :
    (∃ last, runAll step ⟨.new 0 2, {}, {}⟩ [.put 7 true, .sync 0] = .ok last ∧
      last.manager.mutable.table.get 7 = some (.unsynced true)) ∧
    ∃ last, runAll step ⟨.new 0 1, {}, {}⟩ [.put 7 true, .switch, .sync 1] = .ok last ∧
      last.manager.immutable.table.get 7 = some (.unsynced true) :=
  ⟨⟨_, rfl, rfl⟩, ⟨_, rfl, rfl⟩⟩

theorem run_aware (syncId capacity : Nat) (events : List (MemEvent V)) (last : MemRun V)
    (ran : runAll step ⟨.new syncId capacity, {}, {}⟩ events = .ok last) :
    last.Aware ∧ ∀ later ≥ last.manager.mutable.syncId, ∃ next, last.manager.sync later = .ok next := by
  have aware : last.Aware := runAll_preserves Aware step_aware ⟨MemTable.new_aware _ _, MemTable.new_aware _ _⟩ ran
  refine ⟨aware, fun later above => ?_⟩
  obtain ⟨table, sync⟩ := aware.mutable.sync_ok above
  refine ⟨{ last.manager with mutable := table }, ?_⟩
  rw [MemTableManager.sync, sync, bind_ok]

/-- A key is written before and after a sync, twice after it, and synced again. -/
theorem run_aware_rewritten : ∃ last : MemRun Nat,
    runAll step ⟨.new 0 4, {}, {}⟩ [.put 7 1, .sync 1, .put 7 2, .put 7 3, .get 7, .sync 2] = .ok last ∧
      last.mutable.told = [(7, 2), (7, 1)] ∧ last.Aware := by
  refine ⟨_, rfl, rfl, ?_⟩
  exact (run_aware 0 4 [.put 7 1, .sync 1, .put 7 2, .put 7 3, .get 7, .sync 2] _ rfl).1

end MemRun

end Kei.SecureDisk
