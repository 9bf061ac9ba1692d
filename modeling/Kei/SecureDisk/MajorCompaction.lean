import Kei.SecureDisk.Levels

/-! A major compaction: the oldest table of a level goes one level down, moved as it is or
merged with the tables it overlaps there, and every key is answered as before. -/

namespace Kei.SecureDisk

open Library Checked SortedMap List

variable {V : Type}

namespace SstManager

theorem eq_of_id {ssts : SortedMap Nat (SSTable V)} {left right : Nat × SSTable V}
    (inLeft : left ∈ ssts.entries) (inRight : right ∈ ssts.entries) (same : left.1 = right.1) :
    left = right := by
  have first := get_eq_some.mpr (show (left.1, left.2) ∈ ssts.entries from inLeft)
  have second := get_eq_some.mpr (show (right.1, right.2) ∈ ssts.entries from inRight)
  rw [← same, first] at second
  exact Prod.ext same (Option.some.inj second)

theorem levelSsts_change_self (manager : SstManager V) (level : LsmLevel)
    (edit : SortedMap Nat (SSTable V) → SortedMap Nat (SSTable V)) :
    (manager.change level edit).levelSsts level = edit (manager.levelSsts level) := if_pos rfl

theorem levelSsts_change_of_ne (manager : SstManager V) {level other : LsmLevel} (different : other ≠ level)
    (edit : SortedMap Nat (SSTable V) → SortedMap Nat (SSTable V)) :
    (manager.change level edit).levelSsts other = manager.levelSsts other := if_neg different

theorem levelSsts_insertAll_of_ne (created : List (SSTable V)) (manager : SstManager V)
    {level target : LsmLevel} (different : level ≠ target) :
    (created.foldl (fun manager sst => manager.insert sst target) manager).levelSsts level =
      manager.levelSsts level := by
  induction created generalizing manager with
  | nil => rfl
  | cons sst rest ih =>
    rw [foldl_cons, ih]
    exact levelSsts_change_of_ne manager different _

theorem levelSsts_removeAll_of_ne (listed : List (Nat × SSTable V)) (manager : SstManager V)
    {level target : LsmLevel} (different : level ≠ target) :
    (listed.foldl (fun manager entry => manager.remove entry.1 target) manager).levelSsts level =
      manager.levelSsts level := by
  induction listed generalizing manager with
  | nil => rfl
  | cons entry rest ih =>
    rw [foldl_cons, ih]
    exact levelSsts_change_of_ne manager different _

variable {entry : Nat × SSTable V} {manager : SstManager V}

theorem mem_insertAll {created : List (SSTable V)} {target : LsmLevel}
    (distinct : created.Pairwise fun left right => left.id ≠ right.id) :
    entry ∈ ((created.foldl (fun manager sst => manager.insert sst target) manager).levelSsts
        target).entries ↔
      (∃ sst ∈ created, entry = (sst.id, sst)) ∨
        entry ∈ (manager.levelSsts target).entries ∧ ∀ sst ∈ created, entry.1 ≠ sst.id := by
  induction created generalizing manager with
  | nil => simp
  | cons sst rest ih =>
    obtain ⟨first, others⟩ := pairwise_cons.mp distinct
    rw [foldl_cons, ih others, insert, levelSsts_change_self, mem_insert]
    simp only [exists_mem_cons_iff, forall_mem_cons]
    constructor
    · rintro (later | ⟨rfl | ⟨old, other⟩, away⟩)
      · exact .inl (.inr later)
      · exact .inl (.inl rfl)
      · exact .inr ⟨old, other, away⟩
    · rintro ((rfl | later) | ⟨old, other, away⟩)
      · exact .inr ⟨.inl rfl, first⟩
      · exact .inl later
      · exact .inr ⟨.inr ⟨old, other⟩, away⟩

theorem mem_removeAll {listed : List (Nat × SSTable V)} {target : LsmLevel} :
    entry ∈ ((listed.foldl (fun manager entry => manager.remove entry.1 target) manager).levelSsts
        target).entries ↔
      entry ∈ (manager.levelSsts target).entries ∧ ∀ other ∈ listed, entry.1 ≠ other.1 := by
  induction listed generalizing manager with
  | nil => simp
  | cons other rest ih =>
    rw [foldl_cons, ih, remove, levelSsts_change_self, mem_remove, forall_mem_cons, and_assoc]

end SstManager

namespace TxLsmTree

open SstManager

section Major

variable {tree : TxLsmTree V} {target : LsmLevel} {upper : SSTable V} {entry : Nat × SSTable V}

theorem mem_lowerSsts : entry ∈ tree.lowerSsts upper.range target ↔
      entry ∈ (tree.sstManager.levelSsts target).entries ∧ entry.2.overlapWith upper.range = true := by
  rw [lowerSsts, (mergeSort_perm _ _).mem_iff, findOverlappedSsts, mem_filter, listLevel,
    mem_reverse]

theorem lowerSsts_nodup : ((tree.lowerSsts upper.range target).map Prod.fst).Nodup := by
  have keys := (tree.sstManager.levelSsts target).ascending.keys_nodup
  have listed : ((tree.sstManager.listLevel target).map Prod.fst).Nodup := by
    rw [listLevel, map_reverse]
    exact (reverse_perm _).nodup_iff.mpr keys
  have kept : ((tree.sstManager.findOverlappedSsts upper.range target).map Prod.fst).Nodup :=
    listed.sublist (filter_sublist.map _)
  exact ((mergeSort_perm _ _).map Prod.fst).nodup_iff.mpr kept

variable {nextLogId : Nat}

section

variable (sound : tree.sstManager.Sound nextLogId) (lower : target ≠ .l0)
include sound lower

theorem lowerSsts_pairwise :
    (tree.lowerSsts upper.range target).Pairwise fun left right => left.2.range.2 < right.2.range.1 := by
  have sorted : (tree.lowerSsts upper.range target).Pairwise
      fun left right => decide (left.2.range.1 ≤ right.2.range.1) = true :=
    pairwise_mergeSort (fun a b c => by simpa using le_trans) (fun a b => by simpa using le_total _ _) _
  have distinct : (tree.lowerSsts upper.range target).Pairwise fun left right => left.1 ≠ right.1 :=
    pairwise_map.mp lowerSsts_nodup
  refine (sorted.and distinct).imp_of_mem ?_
  rintro left right inLeft inRight ⟨order, different⟩
  have memLeft := (mem_lowerSsts.mp inLeft).1
  have memRight := (mem_lowerSsts.mp inRight).1
  have apart := sound.apart target lower left memLeft right memRight different
  obtain ⟨value, held⟩ := (sound.ssts target right memRight).1.whole.first_mem
  have bounds := (sound.ssts target right memRight).1.mem_range held
  rw [decide_eq_true_eq] at order
  unfold Apart at apart
  omega

theorem lowerRecords_ascending (syncId : Nat) :
    Ascending ((tree.lowerSsts upper.range target).flatMap fun entry => entry.2.iter syncId false) := by
  refine pairwise_flatMap.mpr ⟨?_, ?_⟩
  · intro entry member
    exact (sound.ssts target entry (mem_lowerSsts.mp member).1).1.iter_ascending syncId
  · refine (lowerSsts_pairwise sound lower).imp_of_mem ?_
    rintro left right inLeft inRight order ⟨x, _⟩ inX ⟨y, _⟩ inY
    have low := (sound.ssts target left (mem_lowerSsts.mp inLeft).1).1.mem_range_of_iter inX
    have high := (sound.ssts target right (mem_lowerSsts.mp inRight).1).1.mem_range_of_iter inY
    dsimp only
    omega

theorem recent_lowerRecords (syncId key : Nat) (value : V) :
    recent ((tree.lowerSsts upper.range target).flatMap fun entry => entry.2.iter syncId false) key =
        some value ↔
      ∃ entry ∈ (tree.sstManager.levelSsts target).entries,
        entry.2.overlapWith upper.range = true ∧ entry.2.get key = some value := by
  rw [recent_eq_some (lowerRecords_ascending sound lower syncId)]
  constructor
  · rintro ⟨stored, member, same⟩
    obtain ⟨entry, listed, held⟩ := mem_flatMap.mp member
    obtain ⟨inside, overlap⟩ := mem_lowerSsts.mp listed
    exact ⟨entry, inside, overlap, (sound.ssts target entry inside).1.mem_iter.mp ⟨stored, held, same⟩⟩
  · rintro ⟨entry, inside, overlap, answer⟩
    obtain ⟨stored, held, same⟩ : ∃ stored, (key, stored) ∈ entry.2.iter syncId false ∧ stored.get = value :=
      (sound.ssts target entry inside).1.mem_iter.mpr answer
    exact ⟨stored, mem_flatMap.mpr ⟨entry, mem_lowerSsts.mpr ⟨inside, overlap⟩, held⟩, same⟩

end

theorem recent_iter {sst : SSTable V} (sound : sst.Sound) (syncId key : Nat) :
    recent (sst.iter syncId false) key = sst.get key := by
  ext value
  rw [recent_eq_some (sound.iter_ascending syncId), sound.mem_iter]

variable {created : List (SSTable V)} {merged : List (Nat × ValueEx V)}

theorem merged_replaces {nextLogId next syncId : Nat} (sound : tree.sstManager.Sound nextLogId)
    (lower : target ≠ .l0) (upperSound : upper.Sound)
    (merges : Merged (upper.iter syncId false)
      ((tree.lowerSsts upper.range target).flatMap fun entry => entry.2.iter syncId false) merged)
        (built : Built nextLogId merged created next) :
    tree.sstManager.Replaces target upper created where
  sound := built.sound
  apart left inLeft right inRight := by
    by_cases same : left = right
    · exact .inl same
    · have pairs : created.Pairwise fun left right => left.id ≠ right.id ∧ Apart left right :=
        built.order.imp fun order => ⟨Nat.ne_of_lt order.1, .inl order.2⟩
      have : Std.Symm fun left right : SSTable V => left.id ≠ right.id ∧ Apart left right :=
        ⟨fun _ _ order => ⟨order.1.symm, order.2.symm⟩⟩
      exact .inr (pairs.forall inLeft inRight same)
  reads key value := by
    rw [built.get_eq_some merges.ascending, merges.reads, Option.or_eq_some_iff,
      recent_iter upperSound, recent_lowerRecords sound lower]
  hull sst member other otherSound apart aparts := by
    have place : ∀ record ∈ merged, upper.range.1 ≤ record.1 ∧ record.1 ≤ upper.range.2 ∨
        ∃ entry ∈ (tree.sstManager.levelSsts target).entries,
          entry.2.overlapWith upper.range = true ∧ entry.2.range.1 ≤ record.1 ∧ record.1 ≤ entry.2.range.2 := by
      intro record inside
      rcases merges.keys record inside with ⟨value, held⟩ | ⟨value, held⟩
      · exact .inl (upperSound.mem_range_of_iter held)
      · obtain ⟨entry, listed, held⟩ := mem_flatMap.mp held
        obtain ⟨inside, overlap⟩ := mem_lowerSsts.mp listed
        exact .inr ⟨entry, inside, overlap, (sound.ssts target entry inside).1.mem_range_of_iter held⟩
    obtain ⟨value, held⟩ := otherSound.whole.first_mem
    have proper := otherSound.mem_range held
    obtain ⟨⟨first, low⟩, last, high⟩ := built.ends_mem member
    rcases apart with above | below
    · left
      rcases place _ high with ⟨-, upperEnd⟩ | ⟨entry, inside, overlap, -, upperEnd⟩
      · exact Nat.lt_of_le_of_lt upperEnd above
      · have away := aparts entry inside overlap
        simp only [SSTable.overlapWith, Bool.not_eq_true', Bool.or_eq_false_iff,
          decide_eq_false_iff_not] at overlap
        unfold Apart at away
        dsimp only at upperEnd
        omega
    · right
      rcases place _ low with ⟨lowerEnd, -⟩ | ⟨entry, inside, overlap, lowerEnd, -⟩
      · exact Nat.lt_of_lt_of_le below lowerEnd
      · have away := aparts entry inside overlap
        simp only [SSTable.overlapWith, Bool.not_eq_true', Bool.or_eq_false_iff,
          decide_eq_false_iff_not] at overlap
        unfold Apart at away
        dsimp only at lowerEnd
        omega

theorem moved_replaces (upperSound : upper.Sound) (alone : tree.lowerSsts upper.range target = []) :
    tree.sstManager.Replaces target upper [upper] where
  sound := by simpa using upperSound
  apart left inLeft right inRight := by
    rw [mem_singleton] at inLeft inRight
    exact .inl (inLeft.trans inRight.symm)
  reads key value := by
    have none : ∀ entry ∈ (tree.sstManager.levelSsts target).entries,
        ¬entry.2.overlapWith upper.range = true := by
      intro entry member overlap
      have listed := mem_lowerSsts.mpr ⟨member, overlap⟩
      rw [alone] at listed
      exact nomatch listed
    constructor
    · rintro ⟨sst, member, answer⟩
      exact .inl (mem_singleton.mp member ▸ answer)
    · rintro (answer | ⟨-, entry, member, overlap, -⟩)
      · exact ⟨upper, mem_singleton_self _, answer⟩
      · exact absurd overlap (none entry member)
  hull sst member other _ apart _ := mem_singleton.mp member ▸ apart

variable {source : LsmLevel}

theorem upperLevel_ok (adjacent : target.upperLevel = .ok source) :
    target ≠ .l0 ∧ source ≠ target := by
  cases target <;> cases adjacent <;> exact ⟨by decide, by decide⟩

theorem oldest_eq {manager : SstManager V}
    (last : (manager.listLevel source).getLast? = some entry) :
    ∃ rest, (manager.levelSsts source).entries = entry :: rest := by
  rw [listLevel, List.getLast?_reverse] at last
  exact List.head?_eq_some_iff.mp last

structure SameReads (before after : TxLsmTree V) : Prop where
  sound : after.sstManager.Sound after.nextLogId
  get : ∀ key, after.sstManager.get key = before.sstManager.get key
  memtables : after.memtableManager = before.memtableManager

/-- The oldest table of a level went down: as it is where it overlaps nothing, else merged
with what it overlaps into tables of the current sync ID. -/
structure Lowers (tree : TxLsmTree V) (target source : LsmLevel) (upperId : Nat) (upper : SSTable V)
    (created : List (SSTable V)) (next : TxLsmTree V) : Prop where
  adjacent : target.upperLevel = .ok source
  oldest : ∃ rest, (tree.sstManager.levelSsts source).entries = (upperId, upper) :: rest
  lowered : Lowered tree.sstManager next.sstManager source target upperId upper created
  replaces : tree.sstManager.Replaces target upper created
  ids : FreshIds tree.sstManager source upperId tree.nextLogId next.nextLogId created
  distinct : created.Pairwise fun left right => left.id ≠ right.id
  next_le : tree.nextLogId ≤ next.nextLogId
  contents : tree.lowerSsts upper.range target = [] ∧ created = [upper] ∨
    tree.lowerSsts upper.range target ≠ [] ∧
      Compactor.compactRecords (upper.iter tree.masterSyncId false)
        ((tree.lowerSsts upper.range target).flatMap fun entry => entry.2.iter tree.masterSyncId false) =
          .ok (created.flatMap SSTable.records) ∧
      ∀ sst ∈ created, sst.syncId = tree.masterSyncId
  memtables : next.memtableManager = tree.memtableManager
  masterSyncId : next.masterSyncId = tree.masterSyncId

theorem Lowers.sameReads {upperId : Nat}
    {next : TxLsmTree V} (lowers : Lowers tree target source upperId upper created next)
    (sound : tree.sstManager.Sound tree.nextLogId) : SameReads tree next := by
  obtain ⟨lower, different⟩ := upperLevel_ok lowers.adjacent
  obtain ⟨rest, oldest⟩ := lowers.oldest
  have sound' := lowers.lowered.sound sound lower different lowers.replaces lowers.next_le lowers.ids
  exact ⟨sound', lowers.lowered.get_eq sound sound' lowers.adjacent lower lowers.replaces oldest,
    lowers.memtables⟩

variable (sound : tree.sstManager.Sound tree.nextLogId)
include sound

theorem moveSst_lowers {upperId : Nat} (adjacent : target.upperLevel = .ok source) {rest : List (Nat × SSTable V)}
    (oldest : (tree.sstManager.levelSsts source).entries = (upperId, upper) :: rest)
    (alone : tree.lowerSsts upper.range target = []) :
    Ensures (tree.sstManager.moveSst upperId source target) fun manager =>
      Lowers tree target source upperId upper [upper] { tree with sstManager := manager } := by
  obtain ⟨-, different⟩ := upperLevel_ok adjacent
  have listed : (upperId, upper) ∈ (tree.sstManager.levelSsts source).entries :=
    oldest ▸ mem_cons_self
  obtain ⟨upperSound, id, bound⟩ := sound.ssts source _ listed
  unfold moveSst
  rw [get_eq_some.mpr listed, unwrap, bind_ok]
  generalize made : (tree.sstManager.remove upperId source).change target _ = manager
  have lowered : Lowered tree.sstManager manager source target upperId upper [upper] := by
    subst made
    refine ⟨?_, ?_, ?_⟩
    · intro level notSource notTarget
      rw [levelSsts_change_of_ne _ notTarget]
      exact levelSsts_change_of_ne _ notSource _
    · rw [levelSsts_change_of_ne _ different]
      exact levelSsts_change_self _ _ _
    · intro entry
      rw [levelSsts_change_self, mem_insert, SstManager.remove,
        levelSsts_change_of_ne _ different.symm]
      have alone' : entry ∈ (tree.sstManager.levelSsts target).entries →
          entry.1 ≠ upperId ∧ entry.2.overlapWith upper.range = false := by
        intro member
        refine ⟨fun same => different (sound.once _ _ _ _ entry.2 listed (same ▸ member)), ?_⟩
        rw [Bool.eq_false_iff]
        intro overlap
        have inLower := mem_lowerSsts.mpr ⟨member, overlap⟩
        rw [alone] at inLower
        exact not_mem_nil inLower
      dsimp only at id
      constructor
      · rintro (rfl | ⟨member, -⟩)
        · exact .inl ⟨upper, mem_singleton_self _, by rw [id]⟩
        · exact .inr ⟨member, (alone' member).2⟩
      · rintro (⟨sst, one, rfl⟩ | ⟨member, -⟩)
        · rw [mem_singleton] at one
          subst one
          exact .inl (by rw [id])
        · exact .inr ⟨member, (alone' member).1⟩
  have ids : FreshIds tree.sstManager source upperId tree.nextLogId tree.nextLogId [upper] := by
    intro sst one
    rw [mem_singleton] at one
    subst one
    exact ⟨by rw [id]; exact bound, .inr ⟨id, sst, listed⟩⟩
  exact ⟨adjacent, ⟨rest, oldest⟩, lowered, moved_replaces upperSound alone, ids,
    pairwise_singleton _ _, le_refl _, .inl ⟨alone, rfl⟩, rfl, rfl⟩

theorem merged_lowered {upperId next : Nat} (different : source ≠ target)
    (built : Built tree.nextLogId merged created next) :
    Lowered tree.sstManager
      ((tree.lowerSsts upper.range target).foldl (fun manager entry => manager.remove entry.1 target)
        ((created.foldl (fun manager sst => manager.insert sst target) tree.sstManager).remove
          upperId source))
      source target upperId upper created where
  others level notSource notTarget := by
    rw [levelSsts_removeAll_of_ne _ _ notTarget, SstManager.remove, levelSsts_change_of_ne _ notSource,
      levelSsts_insertAll_of_ne _ _ notTarget]
  source := by
    rw [levelSsts_removeAll_of_ne _ _ different, SstManager.remove, levelSsts_change_self,
      levelSsts_insertAll_of_ne _ _ different]
  target entry := by
    have distinct : created.Pairwise fun left right => left.id ≠ right.id :=
      built.order.imp fun order => Nat.ne_of_lt order.1
    rw [mem_removeAll, SstManager.remove, levelSsts_change_of_ne _ different.symm, mem_insertAll distinct]
    constructor
    · rintro ⟨new | ⟨old, -⟩, away⟩
      · exact .inl new
      · refine .inr ⟨old, Bool.eq_false_iff.mpr fun overlap => ?_⟩
        exact away entry (mem_lowerSsts.mpr ⟨old, overlap⟩) rfl
    · rintro (⟨sst, new, rfl⟩ | ⟨old, kept⟩)
      · refine ⟨.inl ⟨sst, new, rfl⟩, ?_⟩
        intro other listed
        have fresh := (built.ids sst new).1
        have bound := (sound.ssts target other (mem_lowerSsts.mp listed).1).2.2
        dsimp only
        omega
      · refine ⟨.inr ⟨old, ?_⟩, ?_⟩
        · intro sst new
          have fresh := (built.ids sst new).1
          have bound := (sound.ssts target entry old).2.2
          omega
        · intro other listed same
          obtain ⟨inside, overlap⟩ := mem_lowerSsts.mp listed
          rw [← eq_of_id old inside same, kept] at overlap
          exact Bool.noConfusion overlap

theorem doMajorCompaction_lowers (toLevel : LsmLevel) :
    Ensures (tree.doMajorCompaction toLevel) fun next =>
      ∃ source upperId upper created, Lowers tree toLevel source upperId upper created next := by
  unfold doMajorCompaction
  refine (ensures_result _).bind ?_
  intro source adjacent
  obtain ⟨lower, different⟩ := upperLevel_ok adjacent
  refine (unwrap_ensures _).bind ?_
  rintro ⟨upperId, upper⟩ last
  obtain ⟨rest, oldest⟩ := oldest_eq last
  have listed : (upperId, upper) ∈ (tree.sstManager.levelSsts source).entries :=
    oldest ▸ mem_cons_self
  have upperSound := (sound.ssts source _ listed).1
  dsimp only
  refine meets_ite (fun alone => ?_) fun filled => ?_
  · refine (moveSst_lowers sound adjacent oldest (isEmpty_iff.mp alone)).bind ?_
    intro manager lowers
    exact ⟨source, upperId, upper, [upper], lowers⟩
  · refine (ensures_result _).bind ?_
    intro merged compacted
    have merges := (compactRecords_ensures (upperSound.iter_ascending _)
      (lowerRecords_ascending sound lower _)).of_ok compacted
    refine (buildSsts_ensures _ _ merges.ascending).bind ?_
    rintro ⟨created, next⟩ ⟨built, synced⟩
    refine ⟨source, upperId, upper, created, adjacent, ⟨rest, oldest⟩, merged_lowered sound different built,
      merged_replaces sound lower upperSound merges built,
      fun sst new => ⟨(built.ids sst new).2, .inl (built.ids sst new).1⟩,
      built.order.imp fun order => Nat.ne_of_lt order.1, built.next_le,
      .inr ⟨fun empty => filled (isEmpty_iff.mpr empty), ?_, synced⟩, rfl, rfl⟩
    rw [built.whole]
    exact compacted

theorem doMajorCompaction_ensures (toLevel : LsmLevel) :
    Ensures (tree.doMajorCompaction toLevel) (SameReads tree) := by
  refine (doMajorCompaction_lowers sound toLevel).mono ?_
  rintro next ⟨source, upperId, upper, created, lowers⟩
  exact lowers.sameReads sound

end Major

end TxLsmTree

end Kei.SecureDisk
