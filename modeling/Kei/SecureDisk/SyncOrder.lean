import Kei.SecureDisk.Listener
import Mathlib.Algebra.Order.Group.Multiset
import Mathlib.Tactic.Abel

/-! Values of one key across the tables: below a value with a synced part, every older one is
synced. So whatever compaction merges, it meets none of the combinations it calls unreachable. -/

namespace Kei.SecureDisk

open Library Checked MemTable Compactor List Nat

variable {V : Type}

namespace ValueEx

def containsSynced : ValueEx V → Bool
  | unsynced _ => false
  | synced _ | syncedAndUnsynced _ _ => true

def Mergeable (new old : ValueEx V) : Prop := new.containsSynced = true → old.containsUnsynced = false

@[simp]
theorem containsSynced_put (value : V) (old : ValueEx V) :
    (old.put value).1.containsSynced = old.containsSynced := by
  cases old <;> rfl

end ValueEx

open ValueEx

theorem compactValueEx_returns {new old : ValueEx V} (mergeable : Mergeable new old) :
    Returns (compactValueEx new old) fun result =>
      (result.1.containsUnsynced = true → new.containsUnsynced = true ∨ old.containsUnsynced = true) ∧
      (result.1.containsSynced = true → new.containsSynced = true ∨ old.containsSynced = true) ∧
      (result.2.toList ++ result.1.values).Perm (new.values ++ old.values) := by
  cases new with
  | synced newer =>
    cases old with
    | synced older => exact ⟨Or.inl, Or.inl, List.Perm.swap _ _ _⟩
    | unsynced older => exact absurd (mergeable rfl) Bool.noConfusion
    | syncedAndUnsynced older dropped => exact absurd (mergeable rfl) Bool.noConfusion
  | unsynced newer =>
    cases old with
    | synced older => exact ⟨fun _ => .inl rfl, fun _ => .inr rfl, List.Perm.swap _ _ _⟩
    | unsynced older => exact ⟨fun _ => .inl rfl, Or.inl, List.Perm.swap _ _ _⟩
    | syncedAndUnsynced older dropped =>
      exact ⟨fun _ => .inl rfl, fun _ => .inr rfl, reverse_perm [newer, older, dropped]⟩
  | syncedAndUnsynced synced unsynced =>
    cases old with
    | synced older => exact ⟨Or.inl, Or.inl, (perm_append_singleton older [synced, unsynced]).symm⟩
    | unsynced older => exact absurd (mergeable rfl) Bool.noConfusion
    | syncedAndUnsynced older dropped => exact absurd (mergeable rfl) Bool.noConfusion

def Over (newer older : List (Nat × ValueEx V)) : Prop :=
  ∀ key new old, (key, new) ∈ newer → (key, old) ∈ older → Mergeable new old

def Drawn (source run : List (Nat × ValueEx V)) : Prop :=
  ∀ key value, (key, value) ∈ run →
    (value.containsUnsynced = true → ∃ old, (key, old) ∈ source ∧ old.containsUnsynced = true) ∧
    (value.containsSynced = true → ∃ old, (key, old) ∈ source ∧ old.containsSynced = true)

theorem Drawn.of_subset {source run : List (Nat × ValueEx V)} (inside : run ⊆ source) : Drawn source run :=
  fun _ value member => ⟨fun part => ⟨value, inside member, part⟩, fun part => ⟨value, inside member, part⟩⟩

theorem Drawn.mono {source larger run : List (Nat × ValueEx V)} (drawn : Drawn source run)
    (inside : source ⊆ larger) : Drawn larger run := by
  intro key value member
  obtain ⟨unsynced, synced⟩ := drawn key value member
  refine ⟨fun part => ?_, fun part => ?_⟩
  · obtain ⟨old, listed, has⟩ := unsynced part
    exact ⟨old, inside listed, has⟩
  · obtain ⟨old, listed, has⟩ := synced part
    exact ⟨old, inside listed, has⟩

theorem Over.drawn_older {newer source run : List (Nat × ValueEx V)} (ahead : Over newer source)
    (drawn : Drawn source run) : Over newer run := by
  intro key new value inNewer inRun part
  by_contra unsynced
  obtain ⟨old, listed, has⟩ := (drawn key value inRun).1 (Bool.of_not_eq_false unsynced)
  rw [ahead key new old inNewer listed part] at has
  exact Bool.noConfusion has

theorem Over.drawn_newer {source run older : List (Nat × ValueEx V)} (ahead : Over source older)
    (drawn : Drawn source run) : Over run older := by
  intro key value old inRun inOlder part
  obtain ⟨new, listed, has⟩ := (drawn key value inRun).2 part
  exact ahead key new old listed inOlder has

theorem over_append_left {front back older : List (Nat × ValueEx V)} (one : Over front older)
    (two : Over back older) : Over (front ++ back) older := by
  intro key new old inNewer inOlder
  rcases mem_append.mp inNewer with inside | inside
  · exact one key new old inside inOlder
  · exact two key new old inside inOlder

theorem over_append_right {newer front back : List (Nat × ValueEx V)} (one : Over newer front)
    (two : Over newer back) : Over newer (front ++ back) := by
  intro key new old inNewer inOlder
  rcases mem_append.mp inOlder with inside | inside
  · exact one key new old inNewer inside
  · exact two key new old inNewer inside

theorem over_of_synced {newer older : List (Nat × ValueEx V)}
    (synced : ∀ record ∈ older, record.2.containsUnsynced = false) : Over newer older :=
  fun _ _ _ _ inOlder _ => synced _ inOlder

theorem Over.mono {newer older newer' older' : List (Nat × ValueEx V)} (ahead : Over newer older)
    (one : newer' ⊆ newer) (two : older' ⊆ older) : Over newer' older' :=
  fun key new old inNewer inOlder => ahead key new old (one inNewer) (two inOlder)

theorem held_cons (key : Nat) (value : ValueEx V) (rest : List (Nat × ValueEx V)) :
    held ((key, value) :: rest) = (value.values.map fun stored => (key, stored)) ++ held rest :=
  flatMap_cons

theorem Drawn.cons {source run : List (Nat × ValueEx V)} {key : Nat} {value : ValueEx V}
    (first : Drawn source [(key, value)]) (rest : Drawn source run) :
    Drawn source ((key, value) :: run) := by
  intro other stored member
  rcases mem_cons.mp member with same | later
  · exact first other stored (same ▸ mem_singleton_self _)
  · exact rest other stored later

theorem compactRecords_returns {upper lower : List (Nat × ValueEx V)} (ahead : Over upper lower) :
    Returns (compactRecords upper lower) fun merged =>
      Drawn (upper ++ lower) merged ∧
      (droppedRecords upper lower + held merged : Multiset (Nat × V)) =
        held upper + held lower := by
  fun_induction compactRecords upper lower with
  | case1 lower =>
    refine ⟨Drawn.of_subset (List.Subset.refl _), ?_⟩
    rw [droppedRecords]
    rfl
  | case2 upper filled =>
    refine ⟨Drawn.of_subset (by simp), ?_⟩
    rw [droppedRecords]
    · exact add_comm _ _
    · exact filled
  | case3 upperKey new upper lowerKey old lower before ih =>
    have tail : Over upper ((lowerKey, old) :: lower) :=
      ahead.mono (subset_cons_self _ _) (List.Subset.refl _)
    refine (ih tail).bind ?_
    rintro merged ⟨drawn, kept⟩
    refine ⟨Drawn.cons (Drawn.of_subset (by simp)) (drawn.mono (subset_cons_self _ _)), ?_⟩
    rw [droppedRecords, if_pos before, held_cons, held_cons upperKey, ← Multiset.coe_add,
      ← Multiset.coe_add, add_assoc, ← kept]
    abel
  | case4 upperKey new upper lowerKey old lower notBefore after ih =>
    have tail : Over ((upperKey, new) :: upper) lower :=
      ahead.mono (List.Subset.refl _) (subset_cons_self _ _)
    refine (ih tail).bind ?_
    rintro merged ⟨drawn, kept⟩
    refine ⟨Drawn.cons (Drawn.of_subset (by simp)) (drawn.mono (by grind)), ?_⟩
    rw [droppedRecords, if_neg notBefore, if_pos after, held_cons, held_cons lowerKey,
      ← Multiset.coe_add, ← Multiset.coe_add, add_left_comm, kept]
    abel
  | case5 upperKey new upper lowerKey old lower notBefore notAfter ih =>
    have equal : upperKey = lowerKey := by omega
    subst equal
    have tail : Over upper lower := ahead.mono (subset_cons_self _ _) (subset_cons_self _ _)
    have here := ahead upperKey new old mem_cons_self mem_cons_self
    obtain ⟨⟨value, dropped⟩, merge, unsynced, synced, values⟩ := (compactValueEx_returns here).exists_ok
    rw [merge, bind_ok]
    refine (ih tail).bind ?_
    rintro merged ⟨drawn, kept⟩
    refine ⟨Drawn.cons ?_ (drawn.mono (by grind)), ?_⟩
    · intro key stored same
      cases mem_singleton.mp same
      refine ⟨fun part => ?_, fun part => ?_⟩
      · rcases unsynced part with has | has
        · exact ⟨new, by simp, has⟩
        · exact ⟨old, by simp, has⟩
      · rcases synced part with has | has
        · exact ⟨new, by simp, has⟩
        · exact ⟨old, by simp, has⟩
    · have here := Multiset.coe_eq_coe.mpr (values.map fun stored => (upperKey, stored))
      rw [map_append, map_append, ← Multiset.coe_add, ← Multiset.coe_add] at here
      rw [droppedRecords, if_neg notBefore, if_neg notAfter, droppedValue, merge,
        droppedAt, held_cons, held_cons, held_cons]
      simp only [← Multiset.coe_add]
      rw [add_add_add_comm, here, kept, add_add_add_comm]

/-! ### The tables of the tree -/

namespace SSTable

theorem settled_containsUnsynced {allSynced : Bool} {value : ValueEx V} (all : allSynced = true) :
    (settled allSynced value).containsUnsynced = false := by
  subst all
  rfl

theorem Sound.iter_synced {sst : SSTable V} (sound : sst.Sound) {syncId : Nat} (later : sst.syncId < syncId) :
    ∀ record ∈ sst.iter syncId false, record.2.containsUnsynced = false := by
  rw [sound.iter_eq]
  intro record member
  obtain ⟨stored, -, rfl⟩ := mem_map.mp member
  exact settled_containsUnsynced (decide_eq_true later)

end SSTable

def MemTable.scan (table : MemTable V) (syncId : Nat) : List (Nat × ValueEx V) :=
  table.table.entries.map fun entry => (entry.1, SSTable.settled (decide (table.syncId < syncId)) entry.2)

variable {table : MemTable V}

theorem MemTable.scan_self {syncId : Nat} (current : table.syncId = syncId) :
    table.scan syncId = table.table.entries := by
  simp [scan, current, SSTable.settled]

/-- The records of the first table are newer than those of the second, each table named by its
level and its log. -/
def Newer (left right : LsmLevel × Nat) : Prop :=
  left.1.toNat < right.1.toNat ∨ left.1 = .l0 ∧ right.1 = .l0 ∧ right.2 < left.2

namespace TxLsmTree

/-- Every table lies over all older ones: the mutable table over the immutable one while that waits
for its compaction, both over the levels, and the levels over one another. -/
structure Ordered (tree : TxLsmTree V) : Prop where
  current : tree.memtableManager.mutable.syncId = tree.masterSyncId
  covered : ∀ entry ∈ tree.memtableManager.mutable.table.entries, entry.2.containsUnsynced = true →
    tree.memtableManager.mutable.unsyncedAt entry.1 entry.2 = true
  waiting : tree.memtableManager.immutable.syncId ≤ tree.masterSyncId
  ids : ∀ level, ∀ entry ∈ (tree.sstManager.levelSsts level).entries, entry.2.syncId ≤ tree.masterSyncId
  mutable_over : ∀ level, ∀ entry ∈ (tree.sstManager.levelSsts level).entries,
    Over tree.memtableManager.mutable.table.entries (entry.2.iter tree.masterSyncId false)
  mutable_immutable : tree.compaction ≠ none → Over tree.memtableManager.mutable.table.entries
    (tree.memtableManager.immutable.scan tree.masterSyncId)
  immutable_over : tree.compaction ≠ none → ∀ level, ∀ entry ∈ (tree.sstManager.levelSsts level).entries,
    Over (tree.memtableManager.immutable.scan tree.masterSyncId) (entry.2.iter tree.masterSyncId false)
  levels_over : ∀ level other, ∀ newer ∈ (tree.sstManager.levelSsts level).entries,
    ∀ older ∈ (tree.sstManager.levelSsts other).entries, Newer (level, newer.1) (other, older.1) →
      Over (newer.2.iter tree.masterSyncId false) (older.2.iter tree.masterSyncId false)

theorem format_ordered (capacity : Nat) : (format capacity : TxLsmTree V).Ordered where
  current := rfl
  covered _ member := nomatch member
  waiting := le_refl _
  ids _ _ member := nomatch member
  mutable_over _ _ member := nomatch member
  mutable_immutable busy := absurd rfl busy
  immutable_over busy := absurd rfl busy
  levels_over _ _ _ member := nomatch member

/-! ### Steps in memory -/

end TxLsmTree

theorem MemTable.mem_put {key : Nat} {value : V} {entry : Nat × ValueEx V}
    (member : entry ∈ (table.put key value).table.entries) :
    entry.1 = key ∧ (entry.2 = .unsynced value ∨
      ∃ old, (key, old) ∈ table.table.entries ∧ entry.2 = (old.put value).1) ∨
    entry.1 ≠ key ∧ entry ∈ table.table.entries := by
  unfold put at member
  dsimp only at member
  rcases SortedMap.mem_insert.mp member with rfl | ⟨old, different⟩
  · refine .inl ⟨rfl, ?_⟩
    cases stored : table.table.get key with
    | none => exact .inl rfl
    | some old => exact .inr ⟨old, SortedMap.get_eq_some.mp stored, rfl⟩
  · exact .inr ⟨different, old⟩

theorem MemTable.put_over {older : List (Nat × ValueEx V)}
    (ahead : Over table.table.entries older) (key : Nat) (value : V) :
    Over (table.put key value).table.entries older := by
  intro other new old inNewer inOlder
  rcases mem_put inNewer with ⟨same, rfl | ⟨stored, held, rfl⟩⟩ | ⟨-, kept⟩
  · exact fun part => Bool.noConfusion part
  · dsimp only at same
    subst same
    intro part
    rw [containsSynced_put] at part
    exact ahead other stored old held inOlder part
  · exact ahead other new old kept inOlder

theorem MemTable.put_covered
    (covered : ∀ entry ∈ table.table.entries, entry.2.containsUnsynced = true →
      table.unsyncedAt entry.1 entry.2 = true) (key : Nat) (value : V) :
    ∀ entry ∈ (table.put key value).table.entries, entry.2.containsUnsynced = true →
      (table.put key value).unsyncedAt entry.1 entry.2 = true := by
  intro entry member unsynced
  have range : (table.put key value).unsyncedRange = table.unsyncedRange.map (widen key) := rfl
  rw [unsyncedAt, unsynced, range]
  cases before : table.unsyncedRange with
  | none => rfl
  | some span =>
    simp only [Option.map_some, Bool.true_and, Bool.and_eq_true, decide_eq_true_eq]
    unfold widen
    rcases mem_put member with ⟨same, -⟩ | ⟨-, kept⟩
    · split <;> dsimp only <;> omega
    · have inside := covered entry kept unsynced
      rw [unsyncedAt, unsynced, before] at inside
      simp only [Bool.true_and, Bool.and_eq_true, decide_eq_true_eq] at inside
      rw [if_pos (by omega)]
      dsimp only
      omega

namespace TxLsmTree

variable {tree : TxLsmTree V}

theorem putRecord_ordered (ordered : tree.Ordered) (key : Nat) (value : V) :
    Ensures (tree.putRecord key value) Ordered := by
  refine (putRecord_result tree key value).mono ?_
  rintro next rfl
  exact
    { ordered with
      covered := put_covered ordered.covered key value
      mutable_over := fun level entry member => put_over (ordered.mutable_over level entry member) _ _
      mutable_immutable := fun busy => put_over (ordered.mutable_immutable busy) _ _ }

theorem switch_ordered (ordered : tree.Ordered) : Ensures tree.switch Ordered := by
  refine (switch_result tree).mono ?_
  rintro next ⟨idle, mutable, empty, syncId, -, -, rfl⟩
  have scan : tree.memtableManager.mutable.scan tree.masterSyncId =
      tree.memtableManager.mutable.table.entries := scan_self ordered.current
  have nothing : ∀ older : List (Nat × ValueEx V), Over mutable.table.entries older := by
    intro older key new old inNewer
    rw [empty] at inNewer
    exact nomatch inNewer
  exact
    { ordered with
      current := syncId.trans ordered.current
      covered := fun entry member => by
        dsimp only at member
        rw [empty] at member
        exact nomatch member
      waiting := le_of_eq ordered.current
      mutable_over := fun _ _ _ => nothing _
      mutable_immutable := fun _ => nothing _
      immutable_over := fun _ level entry member => scan ▸ ordered.mutable_over level entry member }

theorem syncRecords_ordered (sound : tree.Sound) (ordered : tree.Ordered) : Ensures tree.syncRecords Ordered := by
  refine (syncRecords_result tree).mono ?_
  rintro next ⟨idle, mutable, sync, rfl⟩
  obtain ⟨syncId, same | ⟨-, table⟩⟩ := (sync_result _ _).of_ok sync
  · have := ordered.current
    omega
  have settled : ∀ level, ∀ entry ∈ (tree.sstManager.levelSsts level).entries,
      ∀ newer, Over newer (entry.2.iter (tree.masterSyncId + 1) false) := by
    intro level entry member newer
    have later := ordered.ids level entry member
    exact over_of_synced ((sound.levels.ssts level entry member).1.iter_synced (by omega))
  exact
    { current := syncId
      covered := fun entry member unsynced => by
        dsimp only at member
        rw [table] at member
        obtain ⟨stored, listed, rfl⟩ := mem_map.mp member
        dsimp only at unsynced
        split at unsynced
        · cases value : stored.2 <;> rw [value] at unsynced <;> exact Bool.noConfusion unsynced
        · exact absurd (ordered.covered stored listed unsynced) ‹_›
      waiting := le_succ_of_le ordered.waiting
      ids := fun level entry member => le_succ_of_le (ordered.ids level entry member)
      mutable_over := fun level entry member => settled level entry member _
      mutable_immutable := fun busy => absurd idle busy
      immutable_over := fun busy => absurd idle busy
      levels_over := fun _ other _ _ older member _ => settled other older member _ }

/-! ### Steps of the compaction thread -/

open SstManager

theorem over_of_apart {newer older : SSTable V} (one : newer.Sound) (two : older.Sound)
    (apart : Apart newer older) (syncId : Nat) : Over (newer.iter syncId false) (older.iter syncId false) := by
  intro key new old inNewer inOlder
  have left := one.mem_range_of_iter inNewer
  have right := two.mem_range_of_iter inOlder
  unfold Apart at apart
  omega

theorem upperLevel_toNat {target source : LsmLevel} (adjacent : target.upperLevel = .ok source) :
    target.toNat = source.toNat + 1 := by
  cases target <;> cases adjacent <;> rfl

section Lowers

variable {target source : LsmLevel} {upperId : Nat} {upper : SSTable V} {created : List (SSTable V)}
  {next : TxLsmTree V}

def majorSource (tree : TxLsmTree V) (target : LsmLevel) (upper : SSTable V) : List (Nat × ValueEx V) :=
  upper.iter tree.masterSyncId false ++
    (tree.lowerSsts upper.range target).flatMap fun entry => entry.2.iter tree.masterSyncId false

theorem over_majorSource {newer : List (Nat × ValueEx V)}
    (first : Over newer (upper.iter tree.masterSyncId false))
    (others : ∀ entry ∈ (tree.sstManager.levelSsts target).entries,
      Over newer (entry.2.iter tree.masterSyncId false)) : Over newer (tree.majorSource target upper) := by
  refine over_append_right first ?_
  intro key new old inNewer inOlder
  obtain ⟨entry, listed, inside⟩ := mem_flatMap.mp inOlder
  exact others entry (mem_lowerSsts.mp listed).1 key new old inNewer inside

theorem majorSource_over {older : List (Nat × ValueEx V)}
    (first : Over (upper.iter tree.masterSyncId false) older)
    (others : ∀ entry ∈ (tree.sstManager.levelSsts target).entries,
      Over (entry.2.iter tree.masterSyncId false) older) : Over (tree.majorSource target upper) older := by
  refine over_append_left first ?_
  intro key new old inNewer inOlder
  obtain ⟨entry, listed, inside⟩ := mem_flatMap.mp inNewer
  exact others entry (mem_lowerSsts.mp listed).1 key new old inside inOlder

theorem Ordered.upper_over (ordered : tree.Ordered) (adjacent : target.upperLevel = .ok source)
    (listed : (upperId, upper) ∈ (tree.sstManager.levelSsts source).entries) :
    Over (upper.iter tree.masterSyncId false)
      ((tree.lowerSsts upper.range target).flatMap fun entry => entry.2.iter tree.masterSyncId false) := by
  intro key new old inNewer inOlder
  obtain ⟨entry, inLower, inside⟩ := mem_flatMap.mp inOlder
  have below : source.toNat < target.toNat := by
    rw [upperLevel_toNat adjacent]
    exact lt_succ_self _
  exact ordered.levels_over source target _ listed entry (mem_lowerSsts.mp inLower).1 (.inl below)
    key new old inNewer inside

theorem Lowers.drawn (lowers : Lowers tree target source upperId upper created next)
    (ordered : tree.Ordered) {sst : SSTable V} (new : sst ∈ created) :
    Drawn (tree.majorSource target upper) (sst.iter tree.masterSyncId false) := by
  obtain ⟨rest, oldest⟩ := lowers.oldest
  have listed : (upperId, upper) ∈ (tree.sstManager.levelSsts source).entries :=
    oldest ▸ mem_cons_self
  rcases lowers.contents with ⟨-, rfl⟩ | ⟨-, compacted, synced⟩
  · rw [mem_singleton.mp new]
    exact Drawn.of_subset (subset_append_left _ _)
  · have drawn := ((compactRecords_returns (ordered.upper_over lowers.adjacent listed)).of_ok compacted).1
    intro key value member
    refine drawn key value ?_
    rw [(lowers.replaces.sound sst new).iter_eq, synced sst new] at member
    simp only [lt_self_iff_false, decide_false, SSTable.settled, Bool.false_eq_true, if_false,
      Prod.mk.eta, map_id'] at member
    exact mem_flatMap.mpr ⟨sst, new, member⟩

theorem Lowers.ordered (lowers : Lowers tree target source upperId upper created next)
    (sound : tree.Sound) (ordered : tree.Ordered) (busy : tree.compaction ≠ none) (task : Task) :
    Ordered { next with compaction := some task } := by
  obtain ⟨lower, different⟩ := upperLevel_ok lowers.adjacent
  obtain ⟨rest, oldest⟩ := lowers.oldest
  have listed : (upperId, upper) ∈ (tree.sstManager.levelSsts source).entries :=
    oldest ▸ mem_cons_self
  have depth := upperLevel_toNat lowers.adjacent
  have older : ∀ {newer : List (Nat × ValueEx V)} {sst : SSTable V}, sst ∈ created →
      Over newer (upper.iter tree.masterSyncId false) →
      (∀ entry ∈ (tree.sstManager.levelSsts target).entries,
        Over newer (entry.2.iter tree.masterSyncId false)) →
      Over newer (sst.iter tree.masterSyncId false) :=
    fun new first others => (over_majorSource first others).drawn_older (lowers.drawn ordered new)
  have everywhere : ∀ newer : List (Nat × ValueEx V),
      (∀ level, ∀ entry ∈ (tree.sstManager.levelSsts level).entries,
        Over newer (entry.2.iter tree.masterSyncId false)) →
      ∀ level, ∀ entry ∈ (next.sstManager.levelSsts level).entries,
        Over newer (entry.2.iter tree.masterSyncId false) := by
    intro newer all level entry member
    rcases lowers.lowered.origin different member with ⟨-, sst, new, rfl⟩ | ⟨old, -⟩
    · exact older new (all source _ listed) (all target)
    · exact all level entry old
  have levels : ∀ level other, ∀ newer ∈ (next.sstManager.levelSsts level).entries,
      ∀ old ∈ (next.sstManager.levelSsts other).entries, Newer (level, newer.1) (other, old.1) →
        Over (newer.2.iter tree.masterSyncId false) (old.2.iter tree.masterSyncId false) := by
    intro level other newer inNewer old inOld order
    rcases lowers.lowered.origin different inNewer with ⟨here, sst, new, rfl⟩ | ⟨wasNewer, stays, -⟩ <;>
      rcases lowers.lowered.origin different inOld with ⟨there, sst', new', rfl⟩ | ⟨wasOld, -⟩
    · subst here there
      rcases order with deeper | ⟨top, -⟩
      · exact absurd deeper (lt_irrefl _)
      · exact absurd top lower
    · subst here
      rcases order with deeper | ⟨top, -⟩
      · refine (majorSource_over ?_ ?_).drawn_newer (lowers.drawn ordered new)
        · exact ordered.levels_over source other _ listed old wasOld (.inl (by dsimp only at deeper ⊢; omega))
        · intro entry member
          exact ordered.levels_over level other entry member old wasOld (.inl deeper)
      · exact absurd top lower
    · subst there
      rcases order with deeper | ⟨-, top, -⟩
      · refine older new' ?_ fun entry member =>
          ordered.levels_over level other newer wasNewer entry member (.inl deeper)
        by_cases beside : level = source
        · subst beside
          by_cases top : level = .l0
          · have ascending := (tree.sstManager.levelSsts level).ascending
            rw [oldest, Ascending, pairwise_cons] at ascending
            have later : upperId < newer.1 := by
              rw [oldest] at wasNewer
              rcases mem_cons.mp wasNewer with same | later
              · exact absurd (congrArg Prod.fst same) (stays rfl)
              · exact ascending.1 newer later
            exact ordered.levels_over level level newer wasNewer _ listed (.inr ⟨top, top, later⟩)
          · exact over_of_apart (sound.levels.ssts level newer wasNewer).1
              (sound.levels.ssts level _ listed).1
              (sound.levels.apart level top newer wasNewer _ listed (stays rfl)) _
        · refine ordered.levels_over level source newer wasNewer _ listed (.inl ?_)
          have distinct : level.toNat ≠ source.toNat := by
            intro same
            apply beside
            cases level <;> cases source <;> first | rfl | exact absurd same (by decide)
          dsimp only at deeper ⊢
          omega
      · exact absurd top lower
    · exact ordered.levels_over level other newer wasNewer old wasOld order
  obtain ⟨manager, ssts, masterSyncId, nextLogId, compaction⟩ := next
  have sameManager : manager = tree.memtableManager := lowers.memtables
  have sameId : masterSyncId = tree.masterSyncId := lowers.masterSyncId
  subst sameManager sameId
  exact
    { ordered with
      ids := fun level entry member => by
        rcases lowers.lowered.origin different member with ⟨-, sst, new, rfl⟩ | ⟨old, -⟩
        · rcases lowers.contents with ⟨-, rfl⟩ | ⟨-, -, synced⟩
          · cases mem_singleton.mp new
            exact ordered.ids source (upperId, _) listed
          · exact le_of_eq (synced sst new)
        · exact ordered.ids level entry old
      mutable_over := everywhere _ ordered.mutable_over
      mutable_immutable := fun _ => ordered.mutable_immutable busy
      immutable_over := fun _ => everywhere _ (ordered.immutable_over busy)
      levels_over := levels }

end Lowers

theorem scan_eq_iter {table : MemTable V} {sst : SSTable V} (sound : sst.Sound)
    (records : sst.records = table.table.entries) (synced : sst.syncId = table.syncId) (syncId : Nat) :
    sst.iter syncId false = table.scan syncId := by
  rw [sound.iter_eq, records, synced]
  rfl

theorem doMinorCompaction_ordered (sound : tree.Sound) (ordered : tree.Ordered) (busy : tree.compaction ≠ none) :
    Ensures tree.doMinorCompaction fun next => Ordered { next with compaction := none } := by
  refine (doMinorCompaction_result tree).mono ?_
  rintro next ⟨sst, sstSound, records, id, synced, rfl⟩
  have iter := scan_eq_iter sstSound records synced tree.masterSyncId
  have member : ∀ {level entry}, entry ∈ ((tree.sstManager.insert sst .l0).levelSsts level).entries →
      level = .l0 ∧ entry = (sst.id, sst) ∨ entry ∈ (tree.sstManager.levelSsts level).entries := by
    intro level entry inside
    by_cases top : level = .l0
    · subst top
      rw [SstManager.insert, levelSsts_change_self, SortedMap.mem_insert] at inside
      exact inside.imp (fun same => ⟨rfl, same⟩) And.left
    · rw [SstManager.insert, levelSsts_change_of_ne _ top] at inside
      exact .inr inside
  exact
    { ordered with
      ids := fun level entry inside => by
        rcases member inside with ⟨-, rfl⟩ | old
        · exact synced.trans_le ordered.waiting
        · exact ordered.ids level entry old
      mutable_over := fun level entry inside => by
        rcases member inside with ⟨-, rfl⟩ | old
        · dsimp only
          rw [iter]
          exact ordered.mutable_immutable busy
        · exact ordered.mutable_over level entry old
      mutable_immutable := fun idle => absurd rfl idle
      immutable_over := fun idle => absurd rfl idle
      levels_over := fun level other newer inNewer old inOld order => by
        rcases member inNewer with ⟨top, rfl⟩ | wasNewer <;> rcases member inOld with ⟨top', rfl⟩ | wasOld
        · rcases order with deeper | ⟨-, -, later⟩
          · subst top top'
            exact absurd deeper (lt_irrefl _)
          · exact absurd later (lt_irrefl _)
        · dsimp only
          rw [iter]
          exact ordered.immutable_over busy other old wasOld
        · subst top'
          rcases order with deeper | ⟨-, -, later⟩
          · exact absurd deeper (not_lt_zero _)
          · have bound := (sound.levels.ssts level newer wasNewer).2.2
            dsimp only at later
            omega
        · exact ordered.levels_over level other newer wasNewer old wasOld order }

theorem compact_ordered (sound : tree.Sound) (ordered : tree.Ordered) : Ensures tree.compact Ordered := by
  rw [ensures_iff]
  intro next ran
  rcases (compact_cases tree).of_ok ran with ⟨-, rfl⟩ | ⟨start, task, rfl⟩ |
    ⟨toLevel, lowered, task, major, lower, rfl⟩ | ⟨minor, flushed, flush, rfl⟩
  · exact ordered
  · exact
      { ordered with
        mutable_immutable := fun _ => ordered.mutable_immutable (by simp [start])
        immutable_over := fun _ => ordered.immutable_over (by simp [start]) }
  · obtain ⟨_, _, _, _, lowers⟩ := (doMajorCompaction_lowers sound.levels toLevel).of_ok lower
    exact lowers.ordered sound ordered (by simp [major]) task
  · exact (doMinorCompaction_ordered sound ordered (by simp [minor])).of_ok flush

end TxLsmTree

end Kei.SecureDisk
