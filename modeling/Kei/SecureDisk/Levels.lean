import Kei.SecureDisk.Compaction

/-! The levels of sorted tables. Below the top level the tables of a level lie apart, so
at most one of them answers for a key; a table that goes one level down, merged with the
tables it overlaps there, leaves every answer as it was. -/

namespace Kei.SecureDisk

open Library Checked List Option

variable {V : Type}

theorem findSome?_eq_some_of_agree {α β : Type} {f : α → Option β} {items : List α}
    (agree : ∀ one ∈ items, ∀ other ∈ items, ∀ x y, f one = some x → f other = some y → x = y) {x : β} :
    items.findSome? f = some x ↔ ∃ item ∈ items, f item = some x := by
  constructor
  · exact exists_of_findSome?_eq_some
  · rintro ⟨item, member, answer⟩
    cases first : items.findSome? f with
    | none =>
      rw [findSome?_eq_none_iff.mp first item member] at answer
      exact nomatch answer
    | some y =>
      obtain ⟨other, inside, found⟩ := exists_of_findSome?_eq_some first
      rw [agree item member other inside x y answer found]

theorem findSome?_cons_eq_or {α β : Type} (f : α → Option β) (first : α) (rest : List α) :
    (first :: rest).findSome? f = (f first).or (rest.findSome? f) := by
  rw [findSome?_cons]
  cases f first <;> rfl

namespace SstManager

def levelGet (manager : SstManager V) (level : LsmLevel) (key : Nat) : Option V :=
  (manager.listLevel level).findSome? fun entry => entry.2.get key

def get (manager : SstManager V) (key : Nat) : Option V :=
  LsmLevel.iter.findSome? fun level => manager.levelGet level key

structure Sound (manager : SstManager V) (nextLogId : Nat) : Prop where
  ssts : ∀ level, ∀ entry ∈ (manager.levelSsts level).entries,
    entry.2.Sound ∧ entry.2.id = entry.1 ∧ entry.1 < nextLogId
  once : ∀ level other id sst sst', (id, sst) ∈ (manager.levelSsts level).entries →
    (id, sst') ∈ (manager.levelSsts other).entries → level = other
  apart : ∀ level, level ≠ .l0 → ∀ left ∈ (manager.levelSsts level).entries,
    ∀ right ∈ (manager.levelSsts level).entries, left.1 ≠ right.1 → Apart left.2 right.2

theorem new_sound : (new : SstManager V).Sound 0 where
  ssts _ _ member := nomatch member
  once _ _ _ _ _ member := nomatch member
  apart _ _ _ member := nomatch member

theorem get_eq (manager : SstManager V) (key : Nat) :
    manager.get key = (manager.levelGet .l0 key).or ((manager.levelGet .l1 key).or
      ((manager.levelGet .l2 key).or ((manager.levelGet .l3 key).or
        ((manager.levelGet .l4 key).or (manager.levelGet .l5 key))))) := by
  simp only [get, LsmLevel.iter, findSome?_cons_eq_or, findSome?_nil, or_none]

theorem get_congr {before after : SstManager V} {source target : LsmLevel} {key : Nat}
    (adjacent : target.upperLevel = .ok source)
    (others : ∀ level, level ≠ source → level ≠ target →
      after.levelGet level key = before.levelGet level key)
    (pair : (after.levelGet source key).or (after.levelGet target key) =
      (before.levelGet source key).or (before.levelGet target key)) :
    after.get key = before.get key := by
  rw [get_eq, get_eq]
  cases target with
  | l0 => exact nomatch adjacent
  | _ =>
    cases adjacent
    grind

theorem Sound.levelGet_eq_some {manager : SstManager V} {nextLogId : Nat}
    (sound : manager.Sound nextLogId) {level : LsmLevel} (lower : level ≠ .l0) {key : Nat} {value : V} :
    manager.levelGet level key = some value ↔
      ∃ entry ∈ (manager.levelSsts level).entries, entry.2.get key = some value := by
  rw [levelGet, listLevel, findSome?_eq_some_of_agree]
  · simp only [mem_reverse]
  · intro one inOne other inOther x y answer answer'
    rw [mem_reverse] at inOne inOther
    by_cases same : one.1 = other.1
    · have equal : one.2 = other.2 := by
        have first := SortedMap.get_eq_some.mpr (show (one.1, one.2) ∈ _ from inOne)
        have second := SortedMap.get_eq_some.mpr (show (other.1, other.2) ∈ _ from inOther)
        rw [← same, first] at second
        exact some.inj second
      rw [equal, answer'] at answer
      exact (some.inj answer).symm
    · obtain ⟨_, held, _⟩ := (sound.ssts level one inOne).1.get_eq_some.mp answer
      obtain ⟨_, held', _⟩ := (sound.ssts level other inOther).1.get_eq_some.mp answer'
      have bounds := (sound.ssts level one inOne).1.mem_range held
      have bounds' := (sound.ssts level other inOther).1.mem_range held'
      have apart := sound.apart level lower one inOne other inOther same
      unfold Apart at apart
      omega

structure Replaces (manager : SstManager V) (target : LsmLevel) (upper : SSTable V)
    (created : List (SSTable V)) : Prop where
  sound : ∀ sst ∈ created, sst.Sound
  apart : ∀ left ∈ created, ∀ right ∈ created, left = right ∨ left.id ≠ right.id ∧ Apart left right
  reads : ∀ key value, (∃ sst ∈ created, sst.get key = some value) ↔
    upper.get key = some value ∨ upper.get key = none ∧
      ∃ entry ∈ (manager.levelSsts target).entries,
        entry.2.overlapWith upper.range = true ∧ entry.2.get key = some value
  /-- No range reaches beyond a table that lies apart from all that was merged. -/
  hull : ∀ sst ∈ created, ∀ other : SSTable V, other.Sound → Apart upper other →
    (∀ entry ∈ (manager.levelSsts target).entries, entry.2.overlapWith upper.range = true →
      Apart entry.2 other) → Apart sst other

structure Lowered (before after : SstManager V) (source target : LsmLevel) (upperId : Nat)
    (upper : SSTable V) (created : List (SSTable V)) : Prop where
  others : ∀ level, level ≠ source → level ≠ target → after.levelSsts level = before.levelSsts level
  source : after.levelSsts source = (before.levelSsts source).remove upperId
  target : ∀ entry, entry ∈ (after.levelSsts target).entries ↔
    (∃ sst ∈ created, entry = (sst.id, sst)) ∨
      entry ∈ (before.levelSsts target).entries ∧ entry.2.overlapWith upper.range = false

theorem apart_of_not_overlap {left right : SSTable V} (none : left.overlapWith right.range = false) :
    Apart right left := by
  simp only [SSTable.overlapWith, Bool.not_eq_false', Bool.or_eq_true, decide_eq_true_eq] at none
  exact Or.symm none

section Lowered

variable {before after : SstManager V} {source target : LsmLevel} {upperId nextLogId next : Nat}
  {upper : SSTable V} {created : List (SSTable V)}

variable {entry : Nat × SSTable V}

theorem Lowered.apart_kept (sound : before.Sound nextLogId) (lower : target ≠ .l0)
    (replaces : before.Replaces target upper created) {sst : SSTable V} (member : sst ∈ created)
    (listed : entry ∈ (before.levelSsts target).entries)
    (kept : entry.2.overlapWith upper.range = false) : Apart sst entry.2 := by
  refine replaces.hull sst member entry.2 (sound.ssts target entry listed).1 (apart_of_not_overlap kept) ?_
  intro other inside overlap
  refine sound.apart target lower other inside entry listed ?_
  intro same
  have first := SortedMap.get_eq_some.mpr (show (other.1, other.2) ∈ _ from inside)
  have second := SortedMap.get_eq_some.mpr (show (entry.1, entry.2) ∈ _ from listed)
  rw [← same, first] at second
  rw [some.inj second, kept] at overlap
  exact Bool.noConfusion overlap

theorem Lowered.origin (lowered : Lowered before after source target upperId upper created)
    (different : source ≠ target) {level : LsmLevel}
    (member : entry ∈ (after.levelSsts level).entries) :
    (level = target ∧ ∃ sst ∈ created, entry = (sst.id, sst)) ∨
      entry ∈ (before.levelSsts level).entries ∧ (level = source → entry.1 ≠ upperId) ∧
        (level = target → entry.2.overlapWith upper.range = false) := by
  by_cases isTarget : level = target
  · subst isTarget
    rcases (lowered.target entry).mp member with new | ⟨old, kept⟩
    · exact .inl ⟨rfl, new⟩
    · exact .inr ⟨old, fun same => absurd same.symm different, fun _ => kept⟩
  · right
    by_cases isSource : level = source
    · subst isSource
      rw [lowered.source, SortedMap.mem_remove] at member
      exact ⟨member.1, fun _ => member.2, fun same => absurd same isTarget⟩
    · rw [lowered.others level isSource isTarget] at member
      exact ⟨member, fun same => absurd same isSource, fun same => absurd same isTarget⟩

def FreshIds (before : SstManager V) (source : LsmLevel) (upperId nextLogId next : Nat)
    (created : List (SSTable V)) : Prop :=
  ∀ sst ∈ created, sst.id < next ∧ (nextLogId ≤ sst.id ∨
    sst.id = upperId ∧ ∃ stored, (upperId, stored) ∈ (before.levelSsts source).entries)

theorem Lowered.id_ne (sound : before.Sound nextLogId)
    (ids : FreshIds before source upperId nextLogId next created) {sst : SSTable V}
    (new : sst ∈ created) {level : LsmLevel}
    (old : entry ∈ (before.levelSsts level).entries) (stays : level = source → entry.1 ≠ upperId) :
    entry.1 ≠ sst.id := by
  intro same
  rcases (ids sst new).2 with fresh | ⟨moved, stored, listed⟩
  · have := (sound.ssts level entry old).2.2
    omega
  · have equal : entry.1 = upperId := same.trans moved
    have here : (upperId, entry.2) ∈ (before.levelSsts level).entries := equal ▸ old
    exact stays (sound.once _ _ _ _ _ here listed) equal

variable (lowered : Lowered before after source target upperId upper created)
include lowered

theorem Lowered.sound (sound : before.Sound nextLogId) (lower : target ≠ .l0) (different : source ≠ target)
    (replaces : before.Replaces target upper created) (next_le : nextLogId ≤ next)
    (ids : FreshIds before source upperId nextLogId next created) : after.Sound next where
  ssts level entry member := by
    rcases lowered.origin different member with ⟨-, sst, new, rfl⟩ | ⟨old, -⟩
    · exact ⟨replaces.sound sst new, rfl, (ids sst new).1⟩
    · obtain ⟨entrySound, id, bound⟩ := sound.ssts level entry old
      exact ⟨entrySound, id, Nat.lt_of_lt_of_le bound next_le⟩
  once level other id sst sst' member member' := by
    rcases lowered.origin different member with ⟨here, one, new, same⟩ | ⟨old, stays, -⟩ <;>
      rcases lowered.origin different member' with ⟨there, two, new', same'⟩ | ⟨old', stays', -⟩
    · exact here.trans there.symm
    · cases same
      exact absurd rfl (id_ne sound ids new old' stays')
    · cases same'
      exact absurd rfl (id_ne sound ids new' old stays)
    · exact sound.once _ _ _ _ _ old old'
  apart level below left inLeft right inRight apartIds := by
    rcases lowered.origin different inLeft with ⟨here, one, new, rfl⟩ | ⟨old, -, kept⟩ <;>
      rcases lowered.origin different inRight with ⟨there, two, new', rfl⟩ | ⟨old', -, kept'⟩
    · rcases replaces.apart one new two new' with rfl | ⟨-, apart⟩
      · exact absurd rfl apartIds
      · exact apart
    · subst here
      exact apart_kept sound lower replaces new old' (kept' rfl)
    · subst there
      exact (apart_kept sound lower replaces new' old (kept rfl)).symm
    · exact sound.apart level below left old right old' apartIds

theorem Lowered.levelGet_target (sound : before.Sound nextLogId) (sound' : after.Sound next) (lower : target ≠ .l0)
    (replaces : before.Replaces target upper created) (upperSound : upper.Sound) (key : Nat) :
    after.levelGet target key = (upper.get key).or (before.levelGet target key) := by
  ext value
  rw [sound'.levelGet_eq_some lower, or_eq_some_iff, sound.levelGet_eq_some lower]
  constructor
  · rintro ⟨entry, member, answer⟩
    rcases (lowered.target entry).mp member with ⟨sst, new, rfl⟩ | ⟨old, kept⟩
    · rcases (replaces.reads key value).mp ⟨sst, new, answer⟩ with up | ⟨none, other, listed, -, low⟩
      · exact .inl up
      · exact .inr ⟨none, other, listed, low⟩
    · refine .inr ⟨?_, entry, old, answer⟩
      obtain ⟨_, held, _⟩ := (sound.ssts target entry old).1.get_eq_some.mp answer
      have bounds := (sound.ssts target entry old).1.mem_range held
      have apart := apart_of_not_overlap kept
      refine upperSound.get_eq_none ?_
      unfold Apart at apart
      simp only [SSTable.isWithinRange, Bool.and_eq_false_iff, decide_eq_false_iff_not]
      omega
  · rintro (up | ⟨none, entry, listed, low⟩)
    · obtain ⟨sst, new, answer⟩ := (replaces.reads key value).mpr (.inl up)
      exact ⟨_, (lowered.target _).mpr (.inl ⟨sst, new, rfl⟩), answer⟩
    · cases overlap : entry.2.overlapWith upper.range with
      | true =>
        obtain ⟨sst, new, answer⟩ :=
          (replaces.reads key value).mpr (.inr ⟨none, entry, listed, overlap, low⟩)
        exact ⟨_, (lowered.target _).mpr (.inl ⟨sst, new, rfl⟩), answer⟩
      | false => exact ⟨entry, (lowered.target _).mpr (.inr ⟨listed, overlap⟩), low⟩

theorem Lowered.get_eq (sound : before.Sound nextLogId) (sound' : after.Sound next)
    (adjacent : target.upperLevel = .ok source) (lower : target ≠ .l0)
    (replaces : before.Replaces target upper created)
    {rest : List (Nat × SSTable V)}
    (oldest : (before.levelSsts source).entries = (upperId, upper) :: rest) (key : Nat) :
    after.get key = before.get key := by
  have upperSound : upper.Sound := (sound.ssts source (upperId, upper) (oldest ▸ mem_cons_self)).1
  refine get_congr adjacent ?_ ?_
  · intro level notSource notTarget
    rw [levelGet, levelGet, listLevel, listLevel, lowered.others level notSource notTarget]
  · have ascending := (before.levelSsts source).ascending
    rw [oldest, Ascending, pairwise_cons] at ascending
    have remaining : (after.levelSsts source).entries = rest := by
      rw [lowered.source]
      show (before.levelSsts source).entries.filter (fun entry => entry.1 != upperId) = rest
      rw [oldest, filter_cons_of_neg (by simp), filter_eq_self]
      intro entry member
      simpa using Nat.ne_of_gt (ascending.1 entry member)
    have split : before.levelGet source key = (after.levelGet source key).or (upper.get key) := by
      rw [levelGet, levelGet, listLevel, listLevel, remaining, oldest, reverse_cons,
        findSome?_append]
      simp [findSome?_cons_eq_or]
    rw [lowered.levelGet_target sound sound' lower replaces upperSound, split, Option.or_assoc]

end Lowered

end SstManager

end Kei.SecureDisk
