import Kei.SecureDisk.RangeQuery

/-! The records of the logical block table that are still in memory: a mutable table
that takes every new record, and an immutable one that waits for its compaction. -/

namespace Kei.SecureDisk

open Library Checked

inductive ValueEx (V : Type)
  | synced (value : V)
  | unsynced (value : V)
  | syncedAndUnsynced (synced unsynced : V)
  deriving DecidableEq, Repr

namespace ValueEx

variable {V : Type}

def get : ValueEx V → V
  | synced value => value
  | unsynced value => value
  | syncedAndUnsynced _ value => value

def put (value : V) : ValueEx V → ValueEx V × Option V
  | synced old => (syncedAndUnsynced old value, none)
  | unsynced old => (unsynced value, some old)
  | syncedAndUnsynced old replaced => (syncedAndUnsynced old value, some replaced)

def containsUnsynced : ValueEx V → Bool
  | synced _ => false
  | unsynced _ | syncedAndUnsynced _ _ => true

/-- The value once synced, and the value that was replaced. A synced value is never
synced again: its branch is unreachable in the code. -/
def sync : ValueEx V → ValueEx V × Option V
  | synced value => (synced value, none)
  | unsynced value => (synced value, none)
  | syncedAndUnsynced old value => (synced value, some old)

@[simp]
theorem get_put (value : V) (old : ValueEx V) : (old.put value).1.get = value := by
  cases old <;> rfl

@[simp]
theorem get_sync (value : ValueEx V) : value.sync.1.get = value.get := by
  cases value <;> rfl

end ValueEx

def window {V : Type} (first last : Nat) (entries : List (Nat × ValueEx V)) : List (Nat × V) :=
  (entries.filter fun entry => first ≤ entry.1 && entry.1 ≤ last).map
    fun entry => (entry.1, entry.2.get)

theorem mem_window {V : Type} {first last : Nat} {entries : List (Nat × ValueEx V)}
    {answer : Nat × V} : answer ∈ window first last entries ↔
      (first ≤ answer.1 ∧ answer.1 ≤ last) ∧ ∃ stored, (answer.1, stored) ∈ entries ∧
        stored.get = answer.2 := by
  simp only [window, List.mem_map, List.mem_filter, Bool.and_eq_true, decide_eq_true_eq]
  constructor
  · rintro ⟨entry, ⟨member, bounds⟩, rfl⟩
    exact ⟨bounds, entry.2, member, rfl⟩
  · rintro ⟨bounds, stored, member, same⟩
    exact ⟨(answer.1, stored), ⟨member, bounds⟩, Prod.ext rfl same⟩

theorem lookup_window {V : Type} {entries : List (Nat × ValueEx V)} (ascending : Ascending entries)
    {first last key : Nat} (lower : first ≤ key) (upper : key ≤ last) :
    (window first last entries).lookup key = (entries.lookup key).map ValueEx.get := by
  have sorted : Ascending (window first last entries) :=
    List.pairwise_map.mpr ((ascending.filter _).imp fun lower => lower)
  ext value
  rw [sorted.lookup_eq_some, mem_window, Option.map_eq_some_iff]
  simp only [ascending.lookup_eq_some]
  exact and_iff_right ⟨lower, upper⟩

theorem RangeQueryCtx.Tracks.window_returns {V : Type} {ctx : RangeQueryCtx V} {skip : Nat → Bool}
    {found : Nat → Option V} (tracks : ctx.Tracks skip found) {entries : List (Nat × ValueEx V)}
    (ascending : Ascending entries) {first last : Nat}
    (clear : ∀ key, ctx.Covers key → (skip key || (found key).isSome) = false →
      first ≤ key ∧ key ≤ last)
    (inside : ∀ key, first ≤ key → key ≤ last → ctx.Covers key) :
    Returns ((window first last entries).foldlM (fun ctx answer => ctx.complete answer.1 answer.2) ctx)
      fun next => next.Tracks skip
        (fun key => (found key).or ((entries.lookup key).map ValueEx.get)) ∧ ctx.SameRange next := by
  refine (tracks.completeAll_returns ?_).mono ?_
  · intro answer member
    obtain ⟨⟨lower, upper⟩, -⟩ := mem_window.mp member
    exact inside _ lower upper
  · rintro next ⟨tracks', start, num⟩
    refine ⟨tracks'.congr ?_, start, num⟩
    intro key covers skipped
    rw [RangeQueryCtx.Covers, start, num] at covers
    cases answer : found key with
    | some value => rfl
    | none =>
      obtain ⟨lower, upper⟩ := clear key covers (by rw [skipped, answer]; rfl)
      rw [lookup_window ascending lower upper]

structure MemTable (V : Type) where
  table : SortedMap Nat (ValueEx V)
  size : Nat
  cap : Nat
  syncId : Nat
  unsyncedRange : Option (Nat × Nat)

namespace MemTable

variable {V : Type}

def new (cap syncId : Nat) : MemTable V where
  table := .empty
  size := 0
  cap := cap
  syncId := syncId
  unsyncedRange := none

def get (table : MemTable V) (key : Nat) : Option V := (table.table.get key).map ValueEx.get

def getRange (table : MemTable V) (ctx : RangeQueryCtx V) : Checked (RangeQueryCtx V × Bool) := do
  assert !ctx.isCompleted
  let (first, last) ← unwrap (← ctx.rangeUncompleted)
  let ctx ← (window first last table.table.entries).foldlM
    (fun ctx answer => ctx.complete answer.1 answer.2) ctx
  .ok (ctx, ctx.isCompleted)

def widen (key : Nat) (range : Nat × Nat) : Nat × Nat :=
  if range.1 < range.2 then (min key range.1, max (key + 1) range.2) else (key, key + 1)

def put (table : MemTable V) (key : Nat) (value : V) : MemTable V :=
  let stored := match table.table.get key with
    | some old => old.put value
    | none => (.unsynced value, none)
  { table with
    table := table.table.insert key stored.1
    size := if stored.2.isSome then table.size else table.size + 1
    unsyncedRange := table.unsyncedRange.map (widen key) }

def unsyncedAt (table : MemTable V) (key : Nat) (value : ValueEx V) : Bool :=
  value.containsUnsynced && match table.unsyncedRange with
    | some (first, stop) => first ≤ key && key < stop
    | none => true

def sync (table : MemTable V) (syncId : Nat) : Checked (MemTable V) := do
  assert (decide (table.syncId ≤ syncId))
  if table.syncId = syncId then .ok table
  else
    let visited := table.table.entries.filter fun entry => table.unsyncedAt entry.1 entry.2
    let size ← sub table.size (visited.filter fun entry => entry.2.sync.2.isSome).length
    .ok { table with
      table := table.table.mapValues fun key value =>
        if table.unsyncedAt key value then value.sync.1 else value
      size := size
      syncId := syncId
      unsyncedRange := some (table.unsyncedRange.getD (0, 0)) }

def atCapacity (table : MemTable V) : Bool := table.cap ≤ table.size

def isEmpty (table : MemTable V) : Bool := table.size == 0

def clear (table : MemTable V) : MemTable V :=
  { table with table := .empty, size := 0, unsyncedRange := none }

@[simp]
theorem get_new (cap syncId key : Nat) : (new cap syncId : MemTable V).get key = none := rfl

@[simp]
theorem get_clear (table : MemTable V) (key : Nat) : table.clear.get key = none := rfl

theorem get_put (table : MemTable V) (key other : Nat) (value : V) :
    (table.put key value).get other = if other = key then some value else table.get other := by
  unfold get put
  dsimp only
  rw [SortedMap.get_insert]
  by_cases same : other = key
  · rw [if_pos same, if_pos same]
    cases table.table.get key with
    | none => rfl
    | some old => exact congrArg some (ValueEx.get_put value old)
  · rw [if_neg same, if_neg same]

theorem sync_get (table : MemTable V) (syncId : Nat) :
    Ensures (table.sync syncId) fun next => ∀ key, next.get key = table.get key := by
  unfold sync
  refine (ensures_true _).bind fun _ _ => meets_ite (fun _ _ => rfl) fun _ => ?_
  refine (ensures_true _).bind ?_
  intro size _ key
  show Option.map _ (SortedMap.get _ key) = _
  rw [SortedMap.get_mapValues, Option.map_map]
  refine congrArg (Option.map · _) (funext fun value => ?_)
  simp only [Function.comp]
  split <;> simp

theorem getRange_returns {table : MemTable V} {ctx : RangeQueryCtx V} {skip : Nat → Bool}
    {found : Nat → Option V} (tracks : ctx.Tracks skip found) (left : ctx.isCompleted = false) :
    Returns (table.getRange ctx) fun result =>
      result.1.Tracks skip (fun key => (found key).or (table.get key)) ∧
        ctx.SameRange result.1 ∧ result.2 = result.1.isCompleted := by
  unfold getRange
  rw [left, assert, if_pos (by rfl), bind_ok]
  refine (tracks.marks.rangeUncompleted_returns left).bind ?_
  rintro _ ⟨first, last, rfl, clear, inside⟩
  rw [unwrap, bind_ok]
  refine (tracks.window_returns table.table.ascending clear inside).bind ?_
  rintro next ⟨tracks', range⟩
  exact ⟨tracks', range, rfl⟩

end MemTable

structure MemTableManager (V : Type) where
  mutable : MemTable V
  immutable : MemTable V
  isFull : Bool

namespace MemTableManager

variable {V : Type}

def new (syncId capacity : Nat) : MemTableManager V where
  mutable := .new capacity syncId
  immutable := .new capacity syncId
  isFull := false

def get (manager : MemTableManager V) (key : Nat) : Option V :=
  match manager.mutable.get key with
  | some value => some value
  | none => manager.immutable.get key

def getRange (manager : MemTableManager V) (ctx : RangeQueryCtx V) :
    Checked (RangeQueryCtx V × Bool) := do
  let (ctx, completed) ← manager.mutable.getRange ctx
  if completed then .ok (ctx, completed) else manager.immutable.getRange ctx

/-- Put a record into the mutable table, with whether that table is full now. A full
table would first be waited for; between requests none is. -/
def put (manager : MemTableManager V) (key : Nat) (value : V) :
    Checked (MemTableManager V × Bool) := do
  assert !manager.isFull
  let mutable := manager.mutable.put key value
  .ok ({ manager with mutable := mutable, isFull := mutable.atCapacity }, mutable.atCapacity)

def sync (manager : MemTableManager V) (syncId : Nat) : Checked (MemTableManager V) := do
  let mutable ← manager.mutable.sync syncId
  .ok { manager with mutable := mutable }

def switch (manager : MemTableManager V) : Checked (MemTableManager V) := do
  assert manager.isFull
  let immutable := manager.mutable
  let mutable := manager.immutable.clear
  assert (mutable.isEmpty && immutable.atCapacity)
  let mutable ← mutable.sync manager.mutable.syncId
  .ok { mutable := mutable, immutable := immutable, isFull := false }

theorem get_eq_or (manager : MemTableManager V) (key : Nat) :
    manager.get key = (manager.mutable.get key).or (manager.immutable.get key) := by
  unfold get
  cases manager.mutable.get key <;> rfl

theorem getRange_returns {manager : MemTableManager V} {ctx : RangeQueryCtx V} {skip : Nat → Bool}
    {found : Nat → Option V} (tracks : ctx.Tracks skip found) (left : ctx.isCompleted = false) :
    Returns (manager.getRange ctx) fun result =>
      result.1.Tracks skip (fun key => (found key).or (manager.get key)) ∧
        ctx.SameRange result.1 ∧ result.2 = result.1.isCompleted := by
  unfold getRange
  refine (MemTable.getRange_returns tracks left).bind ?_
  rintro ⟨next, completed⟩ ⟨tracks', range, same⟩
  dsimp only at tracks' range same ⊢
  subst same
  refine meets_ite (fun all => ?_) fun some_left => ?_
  · refine ⟨tracks'.congr ?_, range, rfl⟩
    intro key covers skipped
    have done := tracks'.marks.isCompleted_iff.mp all key covers
    rw [skipped, Bool.false_or] at done
    obtain ⟨value, answer⟩ := Option.isSome_iff_exists.mp done
    rw [get_eq_or, ← Option.or_assoc, answer]
    rfl
  · refine (MemTable.getRange_returns tracks' (Bool.eq_false_iff.mpr some_left)).mono ?_
    rintro ⟨last, completed⟩ ⟨tracks'', ⟨start, num⟩, same⟩
    refine ⟨tracks''.congr ?_, ⟨start.trans range.1, num.trans range.2⟩, same⟩
    intro key _ _
    rw [Option.or_assoc, get_eq_or]

theorem put_ensures (manager : MemTableManager V) (key : Nat) (value : V) :
    Ensures (manager.put key value) fun result =>
      (∀ other, result.1.mutable.get other =
        if other = key then some value else manager.mutable.get other) ∧
      result.1.immutable = manager.immutable ∧ result.1.isFull = result.2 := by
  unfold put
  refine (ensures_true _).bind ?_
  intro _ _
  exact ⟨fun other => MemTable.get_put _ _ _ _, rfl, rfl⟩

theorem sync_ensures (manager : MemTableManager V) (syncId : Nat) :
    Ensures (manager.sync syncId) fun next =>
      (∀ key, next.mutable.get key = manager.mutable.get key) ∧
      next.immutable = manager.immutable ∧ next.isFull = manager.isFull := by
  unfold sync
  refine (MemTable.sync_get _ _).bind ?_
  intro mutable same
  exact ⟨same, rfl, rfl⟩

theorem switch_ensures (manager : MemTableManager V) : Ensures manager.switch fun next =>
      (∀ key, next.mutable.get key = none) ∧ next.immutable = manager.mutable ∧
        next.isFull = false := by
  unfold switch
  refine (ensures_true _).bind fun _ _ => (ensures_true _).bind fun _ _ => ?_
  refine (MemTable.sync_get _ _).bind ?_
  intro mutable same
  exact ⟨fun key => (same key).trans (MemTable.get_clear _ _), rfl, rfl⟩

end MemTableManager

end Kei.SecureDisk
