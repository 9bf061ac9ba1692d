import Mathlib.Data.List.Pairwise
import Mathlib.Order.Lattice
import Mathlib.Tactic.Common

/-! Ordered maps, kept as their entries in ascending key order. -/

namespace Library

open List

variable {κ ν : Type} [LinearOrder κ]

abbrev Ascending (entries : List (κ × ν)) : Prop :=
  entries.Pairwise fun left right => left.1 < right.1

namespace Ascending

variable {entries : List (κ × ν)}

theorem lookup_eq_some (ascending : Ascending entries) {key : κ} {value : ν} :
    entries.lookup key = some value ↔ (key, value) ∈ entries := by
  induction entries with
  | nil => simp
  | cons entry rest ih =>
    obtain ⟨first, stored⟩ := entry
    rw [Ascending, pairwise_cons] at ascending
    rw [lookup_cons, mem_cons]
    by_cases same : key = first
    · subst same
      have absent : (key, value) ∉ rest := fun member => lt_irrefl key (ascending.1 _ member)
      simp [absent, eq_comm]
    · rw [beq_false_of_ne same]
      simp [same, ih ascending.2]

theorem lookup_eq_none {key : κ} : entries.lookup key = none ↔ ∀ value, (key, value) ∉ entries := by
  rw [lookup_eq_none_iff]
  constructor
  · intro different value member
    simpa using different _ member
  · rintro absent ⟨other, value⟩ member
    rw [bne_iff_ne]
    rintro rfl
    exact absent value member

theorem lookup_congr {left right : List (κ × ν)} (one : Ascending left) (two : Ascending right)
    {key : κ} (same : ∀ value, (key, value) ∈ left ↔ (key, value) ∈ right) :
    left.lookup key = right.lookup key :=
  Option.ext fun value => by rw [one.lookup_eq_some, two.lookup_eq_some, same]

theorem keys_nodup (ascending : Ascending entries) : (entries.map Prod.fst).Nodup :=
  pairwise_map.mpr (ascending.imp fun lower => ne_of_lt lower)

end Ascending

def insertEntry (key : κ) (value : ν) : List (κ × ν) → List (κ × ν)
  | [] => [(key, value)]
  | (first, stored) :: rest =>
    if key < first then (key, value) :: (first, stored) :: rest
    else if key = first then (key, value) :: rest
    else (first, stored) :: insertEntry key value rest

variable {entries : List (κ × ν)} {value : ν}

theorem mem_insertEntry {key : κ} (ascending : Ascending entries)
    {entry : κ × ν} :
    entry ∈ insertEntry key value entries ↔ entry = (key, value) ∨ entry ∈ entries ∧ entry.1 ≠ key := by
  induction entries with
  | nil => simp [insertEntry]
  | cons head rest ih =>
    obtain ⟨first, stored⟩ := head
    rw [Ascending, pairwise_cons] at ascending
    obtain ⟨above, tail⟩ := ascending
    have later : entry ∈ rest → first < entry.1 := above entry
    unfold insertEntry
    split_ifs <;> simp only [mem_cons, ih tail] <;> grind

theorem insertEntry_ascending {key : κ}
    (ascending : Ascending entries) : Ascending (insertEntry key value entries) := by
  induction entries with
  | nil => simp [insertEntry]
  | cons head rest ih =>
    obtain ⟨first, stored⟩ := head
    have all := ascending
    rw [Ascending, pairwise_cons] at ascending
    obtain ⟨above, tail⟩ := ascending
    unfold insertEntry
    by_cases before : key < first
    · rw [if_pos before, Ascending, pairwise_cons]
      refine ⟨?_, all⟩
      rintro entry (_ | ⟨_, member⟩)
      · exact before
      · exact lt_trans before (above _ member)
    · rw [if_neg before]
      by_cases same : key = first
      · subst same
        rw [if_pos rfl, Ascending, pairwise_cons]
        exact ⟨above, tail⟩
      · rw [if_neg same, Ascending, pairwise_cons]
        refine ⟨?_, ih tail⟩
        intro entry member
        rcases (mem_insertEntry tail).mp member with rfl | ⟨old, -⟩
        · exact lt_of_le_of_ne (not_lt.mp before) (Ne.symm same)
        · exact above entry old

theorem insertEntry_last {key : κ}
    (above : ∀ entry ∈ entries, entry.1 < key) :
    insertEntry key value entries = entries ++ [(key, value)] := by
  induction entries with
  | nil => rfl
  | cons head rest ih =>
    obtain ⟨first, stored⟩ := head
    have higher : first < key := above _ mem_cons_self
    rw [insertEntry, if_neg (not_lt_of_gt higher), if_neg (ne_of_gt higher),
      ih fun entry member => above entry (mem_cons_of_mem _ member), cons_append]

structure SortedMap (κ ν : Type) [LinearOrder κ] where
  entries : List (κ × ν)
  ascending : Ascending entries

namespace SortedMap

def empty : SortedMap κ ν := ⟨[], List.Pairwise.nil⟩

def size (map : SortedMap κ ν) : Nat := map.entries.length

def get (map : SortedMap κ ν) (key : κ) : Option ν := map.entries.lookup key

def insert (map : SortedMap κ ν) (key : κ) (value : ν) : SortedMap κ ν :=
  ⟨insertEntry key value map.entries, insertEntry_ascending map.ascending⟩

def remove (map : SortedMap κ ν) (key : κ) : SortedMap κ ν :=
  ⟨map.entries.filter fun entry => entry.1 != key, map.ascending.filter _⟩

def mapValues {μ : Type} (map : SortedMap κ ν) (change : κ → ν → μ) : SortedMap κ μ :=
  ⟨map.entries.map fun entry => (entry.1, change entry.1 entry.2),
    pairwise_map.mpr (map.ascending.imp fun lower => lower)⟩

variable {map : SortedMap κ ν}

theorem get_eq_some {key : κ} {value : ν} : map.get key = some value ↔ (key, value) ∈ map.entries :=
  map.ascending.lookup_eq_some

theorem get_insert (map : SortedMap κ ν) (key other : κ) (value : ν) :
    (map.insert key value).get other = if other = key then some value else map.get other := by
  ext stored
  rw [get_eq_some, insert, mem_insertEntry map.ascending]
  by_cases same : other = key
  · subst same
    simp [eq_comm]
  · simp [same, get_eq_some]

theorem mem_insert {key : κ} {value : ν} {entry : κ × ν} : entry ∈ (map.insert key value).entries ↔
      entry = (key, value) ∨ entry ∈ map.entries ∧ entry.1 ≠ key :=
  mem_insertEntry map.ascending

theorem mem_remove {key : κ} {entry : κ × ν} :
    entry ∈ (map.remove key).entries ↔ entry ∈ map.entries ∧ entry.1 ≠ key := by
  simp [remove]

theorem get_remove (map : SortedMap κ ν) (key other : κ) :
    (map.remove key).get other = if other = key then none else map.get other := by
  ext stored
  rw [get_eq_some, mem_remove]
  by_cases same : other = key
  · simp [same]
  · simp [same, get_eq_some]

@[simp]
theorem get_empty (key : κ) : (empty : SortedMap κ ν).get key = none := rfl

theorem get_mapValues {μ : Type} (map : SortedMap κ ν) (change : κ → ν → μ) (key : κ) :
    (map.mapValues change).get key = (map.get key).map (change key) := by
  ext stored
  rw [get_eq_some, Option.map_eq_some_iff]
  simp only [mapValues, mem_map, Prod.mk.injEq, Prod.exists, get_eq_some]
  constructor
  · rintro ⟨other, value, member, rfl, rfl⟩
    exact ⟨value, member, rfl⟩
  · rintro ⟨value, member, rfl⟩
    exact ⟨key, value, member, rfl, rfl⟩

end SortedMap

end Library
