import Kei.SecureDisk.MajorCompaction

/-! The tree answers every key with the record that was put last, whatever the compaction
thread has done by then. -/

namespace Kei.SecureDisk

open Library Checked List Option MemTableManager

variable {V : Type}

namespace SstManager

variable {manager : SstManager V} {nextLogId : Nat} (sound : manager.Sound nextLogId) {sst : SSTable V}
include sound

theorem Sound.insert_newest (sstSound : sst.Sound) (id : sst.id = nextLogId) :
    (manager.insert sst .l0).Sound (nextLogId + 1) where
  ssts level entry member := by
    by_cases top : level = .l0
    · subst top
      rw [insert, levelSsts_change_self, SortedMap.mem_insert] at member
      rcases member with rfl | ⟨old, -⟩
      · exact ⟨sstSound, rfl, by dsimp only; omega⟩
      · obtain ⟨entrySound, own, bound⟩ := sound.ssts .l0 entry old
        exact ⟨entrySound, own, Nat.lt_succ_of_lt bound⟩
    · rw [insert, levelSsts_change_of_ne _ top] at member
      obtain ⟨entrySound, own, bound⟩ := sound.ssts level entry member
      exact ⟨entrySound, own, Nat.lt_succ_of_lt bound⟩
  once level other log one two member member' := by
    have place : ∀ {place stored}, (log, stored) ∈ ((manager.insert sst .l0).levelSsts place).entries →
        place = .l0 ∧ log = nextLogId ∨ (log, stored) ∈ (manager.levelSsts place).entries := by
      intro place stored inside
      by_cases top : place = .l0
      · subst top
        rw [insert, levelSsts_change_self, SortedMap.mem_insert] at inside
        rcases inside with same | ⟨old, -⟩
        · exact .inl ⟨rfl, (congrArg Prod.fst same).trans id⟩
        · exact .inr old
      · rw [insert, levelSsts_change_of_ne _ top] at inside
        exact .inr inside
    rcases place member with ⟨rfl, new⟩ | old <;> rcases place member' with ⟨rfl, new'⟩ | old'
    · rfl
    · exact absurd (sound.ssts other _ old').2.2 (by dsimp only; omega)
    · exact absurd (sound.ssts level _ old).2.2 (by dsimp only; omega)
    · exact sound.once _ _ _ _ _ old old'
  apart level below := by
    rw [insert, levelSsts_change_of_ne _ below]
    exact sound.apart level below

theorem Sound.get_insert_newest (id : sst.id = nextLogId) (key : Nat) :
    (manager.insert sst .l0).get key = (sst.get key).or (manager.get key) := by
  have top : ((manager.insert sst .l0).levelSsts .l0).entries =
      (manager.levelSsts .l0).entries ++ [(sst.id, sst)] := by
    rw [insert, levelSsts_change_self]
    refine insertEntry_last ?_
    intro entry member
    rw [id]
    exact (sound.ssts .l0 entry member).2.2
  have first : (manager.insert sst .l0).levelGet .l0 key = (sst.get key).or (manager.levelGet .l0 key) := by
    rw [levelGet, levelGet, listLevel, listLevel, top, reverse_append, reverse_singleton,
      singleton_append, findSome?_cons_eq_or]
  rw [get_eq, get_eq, first, Option.or_assoc]
  rfl

end SstManager

namespace TxLsmTree

def lookup (tree : TxLsmTree V) (key : Nat) : Option V :=
  (tree.memtableManager.get key).or (tree.sstManager.get key)

/-- The tables are sound. Once no compaction is under way, the levels hold every record of the
immutable table. -/
structure Sound (tree : TxLsmTree V) : Prop where
  levels : tree.sstManager.Sound tree.nextLogId
  flushed : tree.compaction = none → ∀ key value,
    tree.memtableManager.immutable.get key = some value → tree.sstManager.get key = some value

theorem format_sound (capacity : Nat) : (format capacity : TxLsmTree V).Sound where
  levels := SstManager.new_sound
  flushed _ _ _ absurdity := nomatch absurdity

/-! ### The compaction thread -/

def turns : Option Task → Nat
  | none => 0
  | some .minor => 1
  | some (.major toLevel) => 7 - toLevel.toNat
  | some .start => 7

structure Compacted (before after : TxLsmTree V) : Prop where
  sound : after.Sound
  memtables : after.memtableManager = before.memtableManager
  lookup : ∀ key, after.lookup key = before.lookup key

theorem Compacted.trans {first second third : TxLsmTree V} (one : Compacted first second)
    (two : Compacted second third) : Compacted first third :=
  ⟨two.sound, two.memtables.trans one.memtables, fun key => (two.lookup key).trans (one.lookup key)⟩

theorem SameReads.compacted {before after : TxLsmTree V} (same : SameReads before after) (task : Task) :
    Compacted before { after with compaction := some task } where
  sound := ⟨same.sound, nofun⟩
  memtables := same.memtables
  lookup key := by
    show (after.memtableManager.get key).or (after.sstManager.get key) = _
    rw [same.memtables, same.get]
    rfl

section

variable {tree : TxLsmTree V} (sound : tree.Sound)
include sound

theorem doMinorCompaction_ensures :
    Ensures tree.doMinorCompaction fun next => Compacted tree { next with compaction := none } := by
  unfold doMinorCompaction
  refine (SSTable.build_ensures tree.memtableManager.immutable.table.ascending _ _).bind ?_
  rintro sst ⟨sstSound, records, id, -⟩
  have answers : ∀ key, sst.get key = tree.memtableManager.immutable.get key := by
    intro key
    rw [SSTable.get, records]
    rfl
  have reads := sound.levels.get_insert_newest id
  refine ⟨⟨sound.levels.insert_newest sstSound id, ?_⟩, rfl, ?_⟩
  · intro _ key value held
    show (tree.sstManager.insert sst .l0).get key = _
    rw [reads, answers]
    rw [show tree.memtableManager.immutable.get key = some value from held]
    rfl
  · intro key
    show (tree.memtableManager.get key).or ((tree.sstManager.insert sst .l0).get key) = _
    rw [reads, answers, lookup, get_eq_or]
    cases tree.memtableManager.mutable.get key <;> cases tree.memtableManager.immutable.get key <;> rfl

theorem compact_ensures : Ensures tree.compact fun next =>
      Compacted tree next ∧ turns next.compaction ≤ turns tree.compaction - 1 := by
  unfold compact
  cases task : tree.compaction with
  | none => exact ⟨⟨sound, rfl, fun _ => rfl⟩, by rw [task]; exact Nat.le_refl _⟩
  | some current =>
    cases current with
    | start =>
      refine (ensures_true _).bind ?_
      intro required _
      have same : SameReads tree tree := ⟨sound.levels, fun _ => rfl, rfl⟩
      refine ⟨same.compacted _, ?_⟩
      dsimp only
      cases required <;> decide
    | minor =>
      refine (doMinorCompaction_ensures sound).bind ?_
      intro next compacted
      exact ⟨compacted, Nat.le_refl _⟩
    | major toLevel =>
      refine (doMajorCompaction_ensures sound.levels toLevel).bind ?_
      intro next same
      refine (ensures_true _).bind fun required _ => meets_ite (fun _ => ?_) fun _ => ?_
      · refine (ensures_result _).bind ?_
        intro lowerLevel below
        refine ⟨same.compacted _, ?_⟩
        dsimp only
        cases toLevel <;> cases below <;> decide
      · refine ⟨same.compacted _, ?_⟩
        dsimp only
        cases toLevel <;> decide

theorem compactFor_ensures {count : Nat}
    (enough : turns tree.compaction ≤ count) :
    Ensures (compactFor count tree) fun next => Compacted tree next ∧ next.compaction = none := by
  induction count generalizing tree with
  | zero =>
    refine ⟨⟨sound, rfl, fun _ => rfl⟩, ?_⟩
    revert enough
    cases tree.compaction with
    | none => exact fun _ => rfl
    | some task => cases task with
      | start => exact nofun
      | minor => exact nofun
      | major toLevel => cases toLevel <;> exact nofun
  | succ count ih =>
    rw [compactFor]
    refine (compact_ensures sound).bind ?_
    rintro next ⟨compacted, fewer⟩
    refine (ih compacted.sound (by omega)).mono ?_
    rintro last ⟨compacted', done⟩
    exact ⟨compacted.trans compacted', done⟩

theorem waitCompaction_ensures :
    Ensures tree.waitCompaction fun next => Compacted tree next ∧ next.compaction = none := by
  refine compactFor_ensures sound ?_
  cases tree.compaction with
  | none => decide
  | some task => cases task with
    | start => decide
    | minor => decide
    | major toLevel => cases toLevel <;> decide

end

/-! ### Requests -/

section Memory

variable {tree : TxLsmTree V} {manager : MemTableManager V}

theorem Sound.put_record (sound : tree.Sound) {key : Nat} {value : V}
    (mutable : ∀ other, manager.mutable.get other =
      if other = key then some value else tree.memtableManager.mutable.get other)
    (immutable : manager.immutable = tree.memtableManager.immutable) :
    TxLsmTree.Sound { tree with memtableManager := manager } ∧
      ∀ other, lookup { tree with memtableManager := manager } other =
        if other = key then some value else tree.lookup other := by
  constructor
  · refine ⟨sound.levels, ?_⟩
    intro idle other stored held
    rw [immutable] at held
    exact sound.flushed idle other stored held
  · intro other
    show (manager.get other).or (tree.sstManager.get other) = _
    rw [get_eq_or, mutable, immutable, lookup, get_eq_or]
    by_cases same : other = key
    · simp [same]
    · simp [same]

theorem Sound.switched (sound : tree.Sound) (idle : tree.compaction = none)
    (empty : ∀ key, manager.mutable.get key = none)
    (full : manager.immutable = tree.memtableManager.mutable) :
    TxLsmTree.Sound { tree with memtableManager := manager, compaction := some .start } ∧
      ∀ key, lookup { tree with memtableManager := manager, compaction := some .start } key =
        tree.lookup key := by
  refine ⟨⟨sound.levels, nofun⟩, ?_⟩
  intro key
  show (manager.get key).or (tree.sstManager.get key) = _
  rw [lookup, get_eq_or, get_eq_or, empty, full]
  cases held : tree.memtableManager.immutable.get key with
  | none => simp
  | some stored =>
    rw [sound.flushed idle key stored held]
    cases tree.memtableManager.mutable.get key <;> rfl

theorem Sound.synced (sound : tree.Sound) (syncId : Nat)
    (mutable : ∀ key, manager.mutable.get key = tree.memtableManager.mutable.get key)
    (immutable : manager.immutable = tree.memtableManager.immutable) :
    TxLsmTree.Sound { tree with memtableManager := manager, masterSyncId := syncId } ∧
      ∀ key, lookup { tree with memtableManager := manager, masterSyncId := syncId } key =
        tree.lookup key := by
  constructor
  · refine ⟨sound.levels, ?_⟩
    intro idle key value held
    rw [immutable] at held
    exact sound.flushed idle key value held
  · intro key
    show (manager.get key).or (tree.sstManager.get key) = _
    rw [get_eq_or, mutable, immutable, ← get_eq_or]
    rfl

end Memory

section Requests

variable {tree : TxLsmTree V} (sound : tree.Sound)
include sound

theorem putRecord_ensures (key : Nat) (value : V) : Ensures (tree.putRecord key value) fun next => next.Sound ∧
    ∀ other, next.lookup other = if other = key then some value else tree.lookup other := by
  refine (MemTableManager.put_ensures _ key value).bind ?_
  rintro ⟨manager, atCapacity⟩ ⟨mutable, immutable, -⟩
  exact sound.put_record mutable immutable

theorem switch_keeps : Ensures tree.switch fun next => next.Sound ∧ ∀ key, next.lookup key = tree.lookup key := by
  refine (assert_ensures _).bind ?_
  intro _ idle
  refine (switch_ensures _).bind ?_
  rintro switched ⟨empty, full, -⟩
  exact sound.switched (Option.isNone_iff_eq_none.mp idle) empty full

theorem syncRecords_ensures :
    Ensures tree.syncRecords fun next => next.Sound ∧ ∀ key, next.lookup key = tree.lookup key := by
  refine (ensures_true _).bind ?_
  intro _ _
  refine (MemTableManager.sync_ensures _ _).bind ?_
  rintro manager ⟨mutable, immutable, -⟩
  exact sound.synced _ mutable immutable

theorem put_ensures (key : Nat) (value : V) : Ensures (tree.put key value) fun next => next.Sound ∧
    ∀ other, next.lookup other = if other = key then some value else tree.lookup other := by
  refine (putRecord_ensures sound key value).bind ?_
  rintro filled ⟨sound', reads⟩
  refine meets_ite (fun _ => ?_) fun _ => ⟨sound', reads⟩
  refine (waitCompaction_ensures sound').bind ?_
  rintro waited ⟨compacted, -⟩
  refine (switch_keeps compacted.sound).mono ?_
  rintro switched ⟨sound'', reads'⟩
  exact ⟨sound'', fun other => (reads' other).trans ((compacted.lookup other).trans (reads other))⟩

theorem sync_ensures : Ensures tree.sync fun next => next.Sound ∧ ∀ key, next.lookup key = tree.lookup key := by
  refine (waitCompaction_ensures sound).bind ?_
  rintro waited ⟨compacted, -⟩
  refine (syncRecords_ensures compacted.sound).mono ?_
  rintro synced ⟨sound', reads⟩
  exact ⟨sound', fun key => (reads key).trans (compacted.lookup key)⟩

end Requests

/-! ### Queries -/

theorem Sound.sst_sound {tree : TxLsmTree V} (sound : tree.Sound) {sst : SSTable V}
    (member : sst ∈ tree.ssts) : sst.Sound := by
  obtain ⟨level, -, inLevel⟩ := mem_flatMap.mp member
  obtain ⟨entry, listed, rfl⟩ := mem_map.mp inLevel
  exact (sound.levels.ssts level entry (mem_reverse.mp listed)).1

theorem findSome?_ssts (tree : TxLsmTree V) (key : Nat) :
    tree.ssts.findSome? (fun sst => sst.get key) = tree.sstManager.get key := by
  simp only [ssts, LsmLevel.iter, flatMap_cons, flatMap_nil, List.findSome?_append,
    List.findSome?_map, List.findSome?_nil, or_none, SstManager.get_eq]
  rfl

variable {ssts : List (SSTable V)}

theorem doReadTx_returns (sound : ∀ sst ∈ ssts, sst.Sound) (key : Nat) :
    Returns (doReadTx key ssts) fun answer => answer = ssts.findSome? fun sst => sst.get key := by
  induction ssts with
  | nil => rfl
  | cons sst rest ih =>
    have tail := ih fun other member => sound other (mem_cons_of_mem _ member)
    have here := sound sst mem_cons_self
    rw [doReadTx, findSome?_cons_eq_or]
    refine meets_ite (fun within => ?_) fun outside => ?_
    · refine (here.accessPoint_returns within).bind ?_
      rintro _ rfl
      cases sst.get key with
      | some value => rfl
      | none => exact tail
    · rw [here.get_eq_none (Bool.eq_false_iff.mpr outside), none_or]
      exact tail

theorem get_returns {tree : TxLsmTree V} (sound : tree.Sound) (key : Nat) :
    Returns (tree.get key) fun answer => answer = tree.lookup key := by
  unfold get lookup
  cases tree.memtableManager.get key with
  | some value => rfl
  | none =>
    rw [none_or, ← findSome?_ssts]
    exact doReadTx_returns (fun sst member => sound.sst_sound member) key

variable {ctx : RangeQueryCtx V} {skip : Nat → Bool}

theorem tracks_of_completed {found older : Nat → Option V}
    (tracks : ctx.Tracks skip found) (done : ctx.isCompleted = true) :
    ctx.Tracks skip fun key => (found key).or (older key) := by
  refine tracks.congr ?_
  intro key covers skipped
  have complete := tracks.marks.isCompleted_iff.mp done key covers
  rw [skipped, Bool.false_or] at complete
  obtain ⟨value, answer⟩ := isSome_iff_exists.mp complete
  rw [answer]
  rfl

theorem doReadRangeTx_returns (sound : ∀ sst ∈ ssts, sst.Sound) {found : Nat → Option V}
    (tracks : ctx.Tracks skip found) (left : ctx.isCompleted = false) :
    Returns (doReadRangeTx ssts ctx) fun result =>
      result.1.Tracks skip (fun key => (found key).or (ssts.findSome? fun sst => sst.get key)) ∧
        ctx.SameRange result.1 ∧ result.2 = result.1.isCompleted := by
  induction ssts generalizing ctx found with
  | nil => exact ⟨tracks.congr (by simp), ⟨rfl, rfl⟩, left.symm⟩
  | cons sst rest ih =>
    have here := sound sst mem_cons_self
    have tail := fun other member => sound other (mem_cons_of_mem sst member)
    simp only [findSome?_cons_eq_or, ← Option.or_assoc]
    rw [doReadRangeTx]
    refine (tracks.marks.rangeUncompleted_returns left).bind ?_
    rintro _ ⟨first, last, rfl, clear, -⟩
    rw [unwrap, bind_ok]
    refine meets_ite (fun _ => ?_) fun outside => ?_
    · refine (here.accessRange_returns tracks left).bind ?_
      rintro next ⟨tracks', start, num⟩
      refine meets_ite (fun done => ?_) fun open_ => ?_
      · exact ⟨tracks_of_completed tracks' done, ⟨start, num⟩, done.symm⟩
      · refine (ih tail tracks' (Bool.eq_false_iff.mpr open_)).mono ?_
        rintro result ⟨tracks'', ⟨start', num'⟩, same⟩
        exact ⟨tracks'', ⟨start'.trans start, num'.trans num⟩, same⟩
    · refine ih tail (tracks.congr ?_) left
      intro key covers skipped
      cases answer : found key with
      | some value => rfl
      | none =>
        have bounds := clear key covers (by rw [skipped, answer]; rfl)
        rw [here.get_eq_none, or_none]
        simp only [SSTable.overlapWith, Bool.not_eq_true', Bool.not_eq_false, Bool.or_eq_true,
          decide_eq_true_eq] at outside
        simp only [SSTable.isWithinRange, Bool.and_eq_false_iff, decide_eq_false_iff_not]
        omega

theorem getRange_returns {tree : TxLsmTree V} (sound : tree.Sound) (tracks : ctx.Tracks skip fun _ => none)
    (left : ctx.isCompleted = false) :
    Returns (tree.getRange ctx) fun result =>
      result.1.Tracks skip tree.lookup ∧ ctx.SameRange result.1 ∧ result.2 = result.1.isCompleted := by
  unfold getRange
  refine (MemTableManager.getRange_returns tracks left).bind ?_
  rintro ⟨next, completed⟩ ⟨tracks', range, same⟩
  dsimp only at tracks' range same ⊢
  subst same
  simp only [none_or] at tracks'
  refine meets_ite (fun done => ?_) fun open_ => ?_
  · exact ⟨tracks_of_completed tracks' done, range, done.symm⟩
  · rw [Bool.eq_false_iff.mpr open_, assert, if_pos (by rfl), bind_ok]
    refine (doReadRangeTx_returns (fun sst member => sound.sst_sound member) tracks'
      (Bool.eq_false_iff.mpr open_)).mono ?_
    rintro result ⟨tracks'', ⟨start, num⟩, same⟩
    refine ⟨tracks''.congr ?_, ⟨start.trans range.1, num.trans range.2⟩, same⟩
    intro key _ _
    rw [findSome?_ssts, lookup]

end TxLsmTree

end Kei.SecureDisk
