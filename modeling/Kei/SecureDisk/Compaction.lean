import Kei.SecureDisk.LsmTree

/-! Compaction keeps what is read: two runs of records merge into one that answers with the
newer run first, and the new tables of a level lie where the old ones lay, apart from
each other and from the rest of the level. -/

namespace Kei.SecureDisk

open Library Checked Compactor List

variable {V : Type}

def recent (records : List (Nat × ValueEx V)) (key : Nat) : Option V :=
  (records.lookup key).map ValueEx.get

theorem recent_cons (first : Nat) (value : ValueEx V) (rest : List (Nat × ValueEx V)) (key : Nat) :
    recent ((first, value) :: rest) key = if key = first then some value.get else recent rest key := by
  unfold recent
  rw [lookup_cons]
  by_cases same : key = first
  · simp [same]
  · simp [same, beq_false_of_ne same]

variable {records : List (Nat × ValueEx V)} {key : Nat}

theorem recent_eq_none : recent records key = none ↔ ∀ record ∈ records, record.1 ≠ key := by
  rw [recent, Option.map_eq_none_iff, Ascending.lookup_eq_none]
  constructor
  · rintro absent ⟨other, value⟩ member rfl
    exact absent value member
  · intro different value member
    exact different _ member rfl

theorem recent_eq_some (ascending : Ascending records) {value : V} :
    recent records key = some value ↔ ∃ stored, (key, stored) ∈ records ∧ stored.get = value := by
  simp only [recent, Option.map_eq_some_iff, ascending.lookup_eq_some]

/-! ### Merging two runs -/

theorem compactValueEx_ensures (new old : ValueEx V) :
    Ensures (compactValueEx new old) fun result => result.1.get = new.get := by
  unfold compactValueEx
  split <;> first | rfl | trivial

/-- `merged` answers for both runs, the upper one first, and holds keys of theirs only. -/
structure Merged (upper lower merged : List (Nat × ValueEx V)) : Prop where
  ascending : Ascending merged
  reads : ∀ key, recent merged key = (recent upper key).or (recent lower key)
  keys : ∀ record ∈ merged, (∃ value, (record.1, value) ∈ upper) ∨ ∃ value, (record.1, value) ∈ lower

theorem Merged.cons {upper lower upper' lower' merged : List (Nat × ValueEx V)}
    (rest : Merged upper' lower' merged) {key : Nat} {value : ValueEx V}
    (above : ∀ record, record ∈ upper' ∨ record ∈ lower' → key < record.1)
    (recents : ∀ other, (recent upper other).or (recent lower other) =
      if other = key then some value.get else (recent upper' other).or (recent lower' other))
    (held : (∃ value, (key, value) ∈ upper) ∨ ∃ value, (key, value) ∈ lower)
    (upper_sub : upper' ⊆ upper) (lower_sub : lower' ⊆ lower) :
    Merged upper lower ((key, value) :: merged) where
  ascending := by
    refine pairwise_cons.mpr ⟨?_, rest.ascending⟩
    intro record member
    rcases rest.keys record member with ⟨stored, inside⟩ | ⟨stored, inside⟩
    · exact above (record.1, stored) (.inl inside)
    · exact above (record.1, stored) (.inr inside)
  reads other := by rw [recent_cons, rest.reads, recents]
  keys record member := by
    rcases mem_cons.mp member with rfl | later
    · exact held
    · rcases rest.keys record later with ⟨stored, inside⟩ | ⟨stored, inside⟩
      · exact .inl ⟨stored, upper_sub inside⟩
      · exact .inr ⟨stored, lower_sub inside⟩

theorem recent_none_below
    (above : ∀ record ∈ records, key < record.1) : recent records key = none :=
  recent_eq_none.mpr fun record member => Nat.ne_of_gt (above record member)

theorem above_cons {other : Nat} {value : ValueEx V} {records : List (Nat × ValueEx V)}
    (ascending : Ascending ((other, value) :: records)) (before : key < other) :
    ∀ record ∈ (other, value) :: records, key < record.1 := by
  intro record inside
  rcases mem_cons.mp inside with rfl | later
  · exact before
  · exact lt_trans before ((pairwise_cons.mp ascending).1 record later)

theorem compactRecords_ensures {upper lower : List (Nat × ValueEx V)} (one : Ascending upper)
    (two : Ascending lower) :
    Ensures (compactRecords upper lower) (Merged upper lower) := by
  fun_induction compactRecords upper lower with
  | case1 lower => exact ⟨two, fun key => rfl, fun record member => .inr ⟨record.2, member⟩⟩
  | case2 upper _ =>
    exact ⟨one, fun key => (Option.or_none).symm, fun record member => .inl ⟨record.2, member⟩⟩
  | case3 upperKey new upper lowerKey old lower before ih =>
    obtain ⟨above, tail⟩ := pairwise_cons.mp one
    refine (ih tail two).bind ?_
    intro merged rest
    refine rest.cons ?_ ?_ (.inl ⟨new, mem_cons_self⟩) (subset_cons_self _ _) (List.Subset.refl _)
    · rintro record (inside | inside)
      · exact above record inside
      · exact above_cons two before record inside
    · intro other
      rw [recent_cons]
      by_cases same : other = upperKey
      · simp [same]
      · simp [same]
  | case4 upperKey new upper lowerKey old lower _ after ih =>
    obtain ⟨above, tail⟩ := pairwise_cons.mp two
    have higher := above_cons one after
    refine (ih one tail).bind ?_
    intro merged rest
    refine rest.cons ?_ ?_ (.inr ⟨old, mem_cons_self⟩) (List.Subset.refl _) (subset_cons_self _ _)
    · rintro record (inside | inside)
      · exact higher record inside
      · exact above record inside
    · intro other
      rw [recent_cons lowerKey]
      by_cases same : other = lowerKey
      · subst same
        rw [recent_none_below higher]
        simp
      · simp [same]
  | case5 upperKey new upper lowerKey old lower notBefore notAfter ih =>
    have equal : upperKey = lowerKey := by omega
    subst equal
    obtain ⟨above, tail⟩ := pairwise_cons.mp one
    obtain ⟨above', tail'⟩ := pairwise_cons.mp two
    refine (compactValueEx_ensures new old).bind ?_
    rintro ⟨value, dropped⟩ newer
    refine (ih tail tail').bind ?_
    intro merged rest
    refine rest.cons ?_ ?_ (.inl ⟨new, mem_cons_self⟩) (subset_cons_self _ _)
      (subset_cons_self _ _)
    · rintro record (inside | inside)
      · exact above record inside
      · exact above' record inside
    · intro other
      rw [recent_cons, recent_cons]
      by_cases same : other = upperKey
      · simp [same, newer]
      · simp [same]

/-! ### Cutting the merged run into tables -/

def Apart (left right : SSTable V) : Prop :=
  left.range.2 < right.range.1 ∨ right.range.2 < left.range.1

theorem Apart.symm {left right : SSTable V} (apart : Apart left right) : Apart right left :=
  Or.symm apart

structure Built (nextLogId : Nat) (records : List (Nat × ValueEx V)) (created : List (SSTable V))
    (next : Nat) : Prop where
  whole : created.flatMap SSTable.records = records
  sound : ∀ sst ∈ created, sst.Sound
  order : created.Pairwise fun left right => left.id < right.id ∧ left.range.2 < right.range.1
  ids : ∀ sst ∈ created, nextLogId ≤ sst.id ∧ sst.id < next
  next_le : nextLogId ≤ next

theorem buildSsts_ensures (syncId nextLogId : Nat)
    (ascending : Ascending records) :
    Ensures (buildSsts syncId nextLogId records) fun result =>
      Built nextLogId records result.1 result.2 ∧ ∀ sst ∈ result.1, sst.syncId = syncId := by
  fun_induction buildSsts syncId nextLogId records with
  | case1 nextLogId => exact ⟨⟨rfl, by simp, List.Pairwise.nil, by simp, le_refl _⟩, by simp⟩
  | case2 nextLogId records filled ih =>
    refine (SSTable.build_ensures (ascending.sublist (take_sublist _ _)) nextLogId syncId).bind ?_
    rintro sst ⟨sound, front, id, synced⟩
    refine (ih (ascending.sublist (drop_sublist _ _))).bind ?_
    rintro ⟨rest, next⟩ ⟨⟨whole, sounds, order, ids, next_le⟩, restSynced⟩
    dsimp only at whole sounds order ids next_le
    refine ⟨?_, forall_mem_cons.mpr ⟨synced, restSynced⟩⟩
    refine ⟨?_, forall_mem_cons.mpr ⟨sound, sounds⟩, pairwise_cons.mpr ⟨?_, order⟩,
      forall_mem_cons.mpr ⟨by omega, ?_⟩, by omega⟩
    · rw [flatMap_cons, front, whole, take_append_drop]
    · intro other member
      refine ⟨by have := ids other member; omega, ?_⟩
      obtain ⟨last, here⟩ := sound.whole.last_mem
      obtain ⟨first, there⟩ := (sounds other member).whole.first_mem
      have early : (sst.range.2, last) ∈ records.take sstableCapacity := front ▸ here
      have late : (other.range.1, first) ∈ records.drop sstableCapacity :=
        whole ▸ mem_flatMap.mpr ⟨other, member, there⟩
      have split : Ascending (records.take sstableCapacity ++ records.drop sstableCapacity) := by
        rwa [take_append_drop]
      exact (pairwise_append.mp split).2.2 _ early _ late
    · intro other member
      have := ids other member
      omega

variable {created : List (SSTable V)} {nextLogId next : Nat}

theorem Built.get_eq_some (built : Built nextLogId records created next)
    (ascending : Ascending records) {value : V} :
    (∃ sst ∈ created, sst.get key = some value) ↔ recent records key = some value := by
  rw [recent_eq_some ascending, ← built.whole]
  constructor
  · rintro ⟨sst, member, answer⟩
    obtain ⟨stored, held, same⟩ := (built.sound sst member).get_eq_some.mp answer
    exact ⟨stored, mem_flatMap.mpr ⟨sst, member, held⟩, same⟩
  · rintro ⟨stored, held, same⟩
    obtain ⟨sst, member, inside⟩ := mem_flatMap.mp held
    exact ⟨sst, member, (built.sound sst member).get_eq_some.mpr ⟨stored, inside, same⟩⟩

theorem Built.ends_mem (built : Built nextLogId records created next) {sst : SSTable V}
    (member : sst ∈ created) : (∃ value, (sst.range.1, value) ∈ records) ∧
      ∃ value, (sst.range.2, value) ∈ records := by
  obtain ⟨first, low⟩ := (built.sound sst member).whole.first_mem
  obtain ⟨last, high⟩ := (built.sound sst member).whole.last_mem
  rw [← built.whole]
  exact ⟨⟨first, mem_flatMap.mpr ⟨sst, member, low⟩⟩, last, mem_flatMap.mpr ⟨sst, member, high⟩⟩

end Kei.SecureDisk
