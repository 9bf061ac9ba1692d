import Kei.SecureDisk.SyncOrder
import Kei.Library.Total

/-! Every value that was put is accounted for: it is kept by exactly one table, or the listener was
told about it once. -/

namespace Kei.SecureDisk

open Library Checked LsmLevel Multiset SortedMap
open List hiding iter

variable {V : Type}

def weight (record : Nat × ValueEx V) : Multiset (Nat × V) :=
  ((record.2.values.map fun value => (record.1, value) : List (Nat × V)) : Multiset (Nat × V))

theorem coe_flatMap {α β : Type} (items : List α) (parts : α → List β) :
    (items.flatMap parts : Multiset β) = (items.map fun item => (parts item : Multiset β)).sum := by
  induction items with
  | nil => rfl
  | cons item rest ih => rw [List.flatMap_cons, ← coe_add, ih, List.map_cons, List.sum_cons]

theorem coe_held (records : List (Nat × ValueEx V)) :
    (held records : Multiset (Nat × V)) = (records.map weight).sum := coe_flatMap _ _

theorem sum_passed {records : List (Nat × ValueEx V)} {lost : Nat × ValueEx V → List (Nat × V)}
    {passed : Nat × ValueEx V → Nat × ValueEx V}
    (each : ∀ record ∈ records, (lost record : Multiset (Nat × V)) + weight (passed record) = weight record) :
    (records.flatMap lost : Multiset (Nat × V)) + held (records.map passed) = held records := by
  simp only [coe_held]
  induction records with
  | nil => rfl
  | cons record rest ih =>
    have first := each record mem_cons_self
    have others := ih fun other member => each other (mem_cons_of_mem _ member)
    rw [flatMap_cons, ← coe_add]
    simp only [List.map_cons, List.sum_cons]
    rw [add_add_add_comm, first, others]

theorem weight_dropped {key : Nat} {dropped : Option V} {value : ValueEx V} {values : List V}
    (same : (dropped.toList ++ value.values).Perm values) :
    (droppedAt key dropped : Multiset (Nat × V)) + weight (key, value) =
      (values.map fun stored => (key, stored) : List (Nat × V)) := by
  have mapped := coe_eq_coe.mpr (same.map fun stored => (key, stored))
  rw [map_append, ← coe_add] at mapped
  exact mapped

/-! ### The tables in memory -/

namespace MemTable

theorem put_ledger (table : MemTable V) (key : Nat) (value : V) :
    (table.putDropped key value : Multiset (Nat × V)) + held (table.put key value).table.entries =
      {(key, value)} + (held table.table.entries : Multiset (Nat × V)) := by
  simp only [coe_held]
  show _ + total weight (table.table.insert key _) = _ + total weight table.table
  rw [total_insert, putDropped]
  cases stored : table.table.get key with
  | none =>
    dsimp only
    rw [total, remove_of_absent stored, total]
    exact zero_add _
  | some old =>
    have values : ((old.put value).2.toList ++ (old.put value).1.values).Perm (value :: old.values) := by
      cases old with
      | synced old => exact List.Perm.swap _ _ _
      | unsynced old => exact List.Perm.swap _ _ _
      | syncedAndUnsynced old replaced => exact reverse_perm [value, old, replaced]
    rw [total_of_mem weight (get_eq_some.mp stored), ← add_assoc, ← add_assoc]
    exact congrArg (· + _) (weight_dropped values)

theorem visited_ledger (table : MemTable V) : (table.table.entries.flatMap fun entry =>
        if table.unsyncedAt entry.1 entry.2 then droppedAt entry.1 entry.2.sync.2 else [] : Multiset (Nat × V)) +
      held (table.table.mapValues fun key value =>
        if table.unsyncedAt key value then value.sync.1 else value).entries = held table.table.entries := by
  refine sum_passed ?_
  rintro ⟨key, value⟩ -
  dsimp only
  split
  · have values : (value.sync.2.toList ++ value.sync.1.values).Perm value.values := by
      cases value <;> exact List.Perm.refl _
    exact weight_dropped values
  · exact zero_add _

theorem sync_ledger (table : MemTable V) (syncId : Nat) : Ensures (table.sync syncId) fun next =>
      (table.syncDropped syncId : Multiset (Nat × V)) + held next.table.entries =
        (held table.table.entries : Multiset (Nat × V)) := by
  refine (sync_result table syncId).mono ?_
  rintro next ⟨-, ⟨same, rfl⟩ | ⟨different, table'⟩⟩
  · rw [syncDropped, if_pos same]
    exact zero_add _
  · rw [syncDropped, if_neg different, table']
    exact visited_ledger table

end MemTable

/-! ### Scans -/

namespace SSTable

theorem restDropped_eq (allSynced : Bool) {blocks : List (RecordBlock V)}
    (sound : ∀ block ∈ blocks, block.Sound) :
    restDropped allSynced false blocks = (blocks.flatMap RecordBlock.records).flatMap fun record =>
      droppedAt record.1 (scanDropped allSynced false record.2) := by
  induction blocks with
  | nil => rfl
  | cons block rest ih =>
    have filled := (sound block mem_cons_self).ne_nil
    rw [restDropped, scanBlock_eq, if_neg (by simpa using filled),
      ih fun other member => sound other (mem_cons_of_mem _ member), flatMap_cons,
      flatMap_append]
    rfl

theorem Sound.scan_ledger {sst : SSTable V} (sound : sst.Sound) (syncId : Nat) :
    (sst.iterDropped syncId false : Multiset (Nat × V)) + held (sst.iter syncId false) =
      (held sst.records : Multiset (Nat × V)) := by
  have told : sst.iterDropped syncId false = sst.records.flatMap fun record =>
      droppedAt record.1 (scanDropped (decide (sst.syncId < syncId)) false record.2) := by
    rw [iterDropped, restDropped_eq _ fun block member => sound.blocks block (mem_cons_of_mem _ member),
      blockDropped, ← flatMap_append]
    rfl
  rw [told, sound.iter_eq]
  refine sum_passed ?_
  rintro ⟨key, value⟩ -
  have values : ((scanDropped (decide (sst.syncId < syncId)) false value).toList ++
      (settled (decide (sst.syncId < syncId)) value).values).Perm value.values := by
    cases decide (sst.syncId < syncId) <;> cases value <;> exact List.Perm.refl _
  exact weight_dropped values

end SSTable

/-! ### The levels -/

namespace SstManager

def tableWeight (entry : Nat × SSTable V) : Multiset (Nat × V) := held entry.2.records

def kept (manager : SstManager V) : Multiset (Nat × V) :=
  (iter.map fun level => (manager.levelSsts level).total tableWeight).sum

theorem sum_levels {M : Type} [AddCommMonoid M] (before after : LsmLevel → M) {source target : LsmLevel}
    (different : source ≠ target)
    (others : ∀ level, level ≠ source → level ≠ target → after level = before level) :
    ∃ rest, (iter.map before).sum = before source + (before target + rest) ∧
      (iter.map after).sum = after source + (after target + rest) := by
  have every : ∀ level, level ∈ iter := by
    intro level
    cases level <;> decide
  have distinct : iter.Nodup := by decide
  have order : iter.Perm (source :: target :: (iter.erase source).erase target) := by
    refine (perm_cons_erase (every source)).trans (List.Perm.cons _ (perm_cons_erase ?_))
    exact (List.mem_erase_of_ne different.symm).mpr (every target)
  have same : ((iter.erase source).erase target).map after =
      ((iter.erase source).erase target).map before := by
    refine map_congr_left ?_
    intro level member
    rw [(distinct.erase source).mem_erase_iff, distinct.mem_erase_iff] at member
    exact others level member.2.1 member.1
  refine ⟨(((iter.erase source).erase target).map before).sum, ?_, ?_⟩
  · rw [(order.map before).sum_eq, List.map_cons, List.map_cons, List.sum_cons, List.sum_cons]
  · rw [(order.map after).sum_eq, List.map_cons, List.map_cons, List.sum_cons, List.sum_cons, same]

theorem sum_tableWeight (entries : List (Nat × SSTable V)) : (entries.map tableWeight).sum =
      (held (entries.flatMap fun entry => entry.2.records) : Multiset (Nat × V)) := by
  rw [held, flatMap_assoc, coe_flatMap]
  rfl

theorem scans_ledger (entries : List (Nat × SSTable V)) (sound : ∀ entry ∈ entries, entry.2.Sound)
    (syncId : Nat) :
    (entries.flatMap fun entry => entry.2.iterDropped syncId false : Multiset (Nat × V)) +
        held (entries.flatMap fun entry => entry.2.iter syncId false) =
      (entries.map tableWeight).sum := by
  induction entries with
  | nil => rfl
  | cons entry rest ih =>
    have first := (sound entry mem_cons_self).scan_ledger syncId
    have others := ih fun other member => sound other (mem_cons_of_mem _ member)
    rw [held, flatMap_cons, flatMap_cons, flatMap_append, ← coe_add, ← coe_add, add_add_add_comm]
    rw [List.map_cons, List.sum_cons, ← others]
    exact congrArg (· + _) first

theorem kept_insert {manager : SstManager V} {nextLogId : Nat} (sound : manager.Sound nextLogId)
    {sst : SSTable V} (id : sst.id = nextLogId) :
    (manager.insert sst .l0).kept = held sst.records + manager.kept := by
  have absent : (manager.levelSsts .l0).get sst.id = none := by
    rw [SortedMap.get, Ascending.lookup_eq_none]
    intro other member
    have := (sound.ssts .l0 _ member).2.2
    omega
  obtain ⟨rest, before, after⟩ := sum_levels
    (fun level => (manager.levelSsts level).total tableWeight)
    (fun level => ((manager.insert sst .l0).levelSsts level).total tableWeight)
    (show l0 ≠ .l1 by decide)
    (fun level notTop _ => by rw [insert, levelSsts_change_of_ne _ notTop])
  rw [kept, kept, before, after, insert, levelSsts_change_self, levelSsts_change_of_ne _ (by decide),
    total_insert_of_absent _ absent, add_assoc]
  rfl

end SstManager

namespace TxLsmTree

open SstManager

variable {tree : TxLsmTree V}

section Lowers

variable {target source : LsmLevel} {upperId : Nat} {upper : SSTable V} {created : List (SSTable V)}
  {next : TxLsmTree V}

theorem Lowers.target_perm (lowers : Lowers tree target source upperId upper created next)
    (sound : tree.sstManager.Sound tree.nextLogId) :
    (next.sstManager.levelSsts target).entries.Perm
      ((created.map fun sst => (sst.id, sst)) ++
        (tree.sstManager.levelSsts target).entries.filter fun entry => !entry.2.overlapWith upper.range) := by
  obtain ⟨-, different⟩ := upperLevel_ok lowers.adjacent
  have distinct : (created.map fun sst => (sst.id, sst)).Nodup :=
    pairwise_map.mpr (lowers.distinct.imp fun apart same => apart (congrArg Prod.fst same))
  have away : ∀ entry ∈ created.map (fun sst => (sst.id, sst)), ∀ old ∈ (tree.sstManager.levelSsts
      target).entries.filter (fun entry => !entry.2.overlapWith upper.range), entry ≠ old := by
    intro entry new old stays same
    obtain ⟨sst, member, rfl⟩ := mem_map.mp new
    have listed := mem_of_mem_filter stays
    refine Lowered.id_ne sound lowers.ids member listed ?_ (congrArg Prod.fst same).symm
    exact fun here => absurd here.symm different
  have nodup := nodup_append.mpr ⟨distinct, (entries_nodup _).filter _, away⟩
  refine (perm_ext_iff_of_nodup (entries_nodup _) nodup).mpr ?_
  intro entry
  rw [lowers.lowered.target, List.mem_append, List.mem_map, List.mem_filter, Bool.not_eq_true']
  simp only [eq_comm]

theorem lowerSsts_perm (tree : TxLsmTree V) (target : LsmLevel) (range : Nat × Nat) :
    (tree.sstManager.levelSsts target).entries.Perm
      (tree.lowerSsts range target ++
        (tree.sstManager.levelSsts target).entries.filter fun entry => !entry.2.overlapWith range) := by
  have lower : (tree.lowerSsts range target).Perm
      ((tree.sstManager.levelSsts target).entries.filter fun entry => entry.2.overlapWith range) := by
    refine (mergeSort_perm _ _).trans ?_
    rw [findOverlappedSsts, listLevel, filter_reverse]
    exact reverse_perm _
  exact (filter_append_perm _ _).symm.trans (lower.symm.append_right _)

theorem Lowers.ledger (lowers : Lowers tree target source upperId upper created next)
    (sound : tree.sstManager.Sound tree.nextLogId) (ordered : tree.Ordered) :
    (tree.majorDropped target : Multiset (Nat × V)) + next.sstManager.kept = tree.sstManager.kept := by
  obtain ⟨-, different⟩ := upperLevel_ok lowers.adjacent
  obtain ⟨others, oldest⟩ := lowers.oldest
  have listed : (upperId, upper) ∈ (tree.sstManager.levelSsts source).entries :=
    oldest ▸ mem_cons_self
  have upperSound := (sound.ssts source _ listed).1
  obtain ⟨rest, before, after⟩ := sum_levels
    (fun level => (tree.sstManager.levelSsts level).total tableWeight)
    (fun level => (next.sstManager.levelSsts level).total tableWeight) different
    (fun level notSource notTarget => by rw [lowers.lowered.others level notSource notTarget])
  have last : (tree.sstManager.listLevel source).getLast? = some (upperId, upper) := by
    rw [listLevel, getLast?_reverse, oldest]
    rfl
  have given : (tree.sstManager.levelSsts source).total tableWeight =
      held upper.records + (next.sstManager.levelSsts source).total tableWeight := by
    rw [lowers.lowered.source]
    exact total_of_mem tableWeight listed
  have merged : (tree.majorDropped target : Multiset (Nat × V)) +
      ((created.map fun sst => (sst.id, sst)).map tableWeight).sum =
        held upper.records + ((tree.lowerSsts upper.range target).map tableWeight).sum := by
    unfold majorDropped
    rw [lowers.adjacent]
    dsimp only
    rw [last]
    dsimp only
    rcases lowers.contents with ⟨alone, rfl⟩ | ⟨filled, compacted, -⟩
    · simp [alone, tableWeight]
    · rw [if_neg (by simpa using filled)]
      obtain ⟨-, kept⟩ := (compactRecords_returns (ordered.upper_over lowers.adjacent listed)).of_ok compacted
      have upperScan := upperSound.scan_ledger tree.masterSyncId
      have lowerScan := scans_ledger (tree.lowerSsts upper.range target)
        (fun entry member => (sound.ssts target entry (mem_lowerSsts.mp member).1).1) tree.masterSyncId
      have whole : ((created.map fun sst => (sst.id, sst)).map tableWeight).sum =
          (held (created.flatMap SSTable.records) : Multiset (Nat × V)) := by
        rw [sum_tableWeight, flatMap_map]
      rw [whole, ← coe_add, ← coe_add, add_assoc, kept, ← upperScan, ← lowerScan]
      abel
  rw [kept, kept, before, after, given]
  have regroup : ∀ told moved created stay rest upper lower : Multiset (Nat × V),
      told + created = upper + lower →
        told + (moved + (created + stay + rest)) = upper + moved + (lower + stay + rest) := by
    intro told moved created stay rest upper lower same
    calc told + (moved + (created + stay + rest)) = told + created + (moved + stay + rest) := by abel
      _ = upper + lower + (moved + stay + rest) := by rw [same]
      _ = upper + moved + (lower + stay + rest) := by abel
  rw [total, total, total, ((lowers.target_perm sound).map tableWeight).sum_eq,
    ((lowerSsts_perm tree target upper.range).map tableWeight).sum_eq, map_append, sum_append,
    map_append, sum_append]
  exact regroup _ _ _ _ _ _ _ merged

end Lowers

/-! ### Steps -/

theorem coe_stored (tree : TxLsmTree V) :
    (tree.stored : Multiset (Nat × V)) = held tree.memtableManager.mutable.table.entries +
      (if tree.compaction.isSome then (held tree.memtableManager.immutable.table.entries : Multiset (Nat × V))
        else 0) + tree.sstManager.kept := by
  have levels : (tree.ssts.flatMap fun sst => held sst.records : Multiset (Nat × V)) =
      tree.sstManager.kept := by
    rw [ssts, flatMap_assoc, coe_flatMap, kept]
    refine congrArg List.sum (List.map_congr_left ?_)
    intro level _
    rw [flatMap_map, listLevel, coe_flatMap, map_reverse, sum_reverse]
    rfl
  rw [stored, ← coe_add, ← coe_add, levels]
  split <;> rfl

theorem step_ledger (sound : tree.Sound) (ordered : tree.Ordered) (step : TreeStep V) :
    Ensures (tree.step step) fun next =>
      (tree.dropped step + next.stored : Multiset (Nat × V)) = recordsPut [step] + tree.stored := by
  simp only [coe_stored]
  cases step with
  | put key value =>
    refine (putRecord_result tree key value).mono ?_
    rintro next rfl
    have put := tree.memtableManager.mutable.put_ledger key value
    dsimp only [dropped]
    rw [← add_assoc, ← add_assoc, put, ← add_assoc, ← add_assoc]
    rfl
  | switch =>
    refine (switch_result tree).mono ?_
    rintro next ⟨idle, mutable, empty, -, -, -, rfl⟩
    rw [idle]
    dsimp only
    rw [empty]
    simp [dropped, held, recordsPut]
  | turn =>
    rw [ensures_iff]
    intro next ran
    rcases (compact_cases tree).of_ok ran with ⟨idle, rfl⟩ | ⟨start, task, rfl⟩ |
      ⟨toLevel, lowered, task, major, lower, rfl⟩ | ⟨minor, flushed, flush, rfl⟩
    · simp [dropped, idle, recordsPut]
    · simp [dropped, start, recordsPut]
    · obtain ⟨_, _, _, _, lowers⟩ := (doMajorCompaction_lowers sound.levels toLevel).of_ok lower
      have ledger := lowers.ledger sound.levels ordered
      simp only [dropped, major, recordsPut, ← ledger, lowers.memtables, List.filterMap_cons_none,
        filterMap_nil, coe_nil, Option.isSome_some, if_true]
      abel
    · obtain ⟨sst, -, records, id, -, rfl⟩ := (doMinorCompaction_result tree).of_ok flush
      simp only [dropped, minor, recordsPut, kept_insert sound.levels id, records, List.filterMap_cons_none,
        filterMap_nil, coe_nil, Option.isSome_some, Option.isSome_none, if_true,
        Bool.false_eq_true, if_false]
      abel
  | sync =>
    refine (syncRecords_result tree).mono ?_
    rintro next ⟨idle, mutable, sync, rfl⟩
    have ledger := (MemTable.sync_ledger _ _).of_ok sync
    dsimp only [dropped]
    rw [← add_assoc, ← add_assoc, ledger]
    exact (zero_add _).symm

end TxLsmTree

end Kei.SecureDisk
