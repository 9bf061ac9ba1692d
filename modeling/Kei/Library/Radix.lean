import Mathlib.Algebra.Group.Nat.Defs
import Mathlib.Data.List.Basic

/-! Radix trees whose tables lie in memory. A table of level `level + 1` has `fanout` slots, each
for `fanout ^ level` consecutive keys; a slot is empty, holds a value, or points to a table of
the level below. Which table serves which keys is recorded beside the memory, and the rules
say what a change of one slot does to the lookup of every key. -/

namespace Library

open Function Nat

inductive Slot (κ β : Type)
  | empty
  | leaf (value : β)
  | table (address : κ)

namespace Radix

variable {κ β : Type} (fanout : Nat)

def lookup (slots : κ → Nat → Slot κ β) : Nat → κ → Nat → Option (Nat × β)
  | 0, _, _ => none
  | level + 1, table, key =>
    match slots table (key / fanout ^ level % fanout) with
    | .empty => none
    | .leaf value => some (level + 1, value)
    | .table child => lookup slots level child key

/-- The recorded place of a table is its level and the number, on that level, of the slot that
leads to it. Only keys that are `owned` are looked at. -/
structure Sound (owned : Nat → Prop) (height : Nat) (root : κ) (place : κ → Option (Nat × Nat))
    (slots : κ → Nat → Slot κ β) : Prop where
  positive : 0 < fanout
  top : place root = some (height, 0)
  fits : ∀ {key}, owned key → key < fanout ^ height
  below : ∀ {table level number}, place table = some (level, number) → 0 < level ∧ level ≤ height
  only : ∀ {table number}, place table = some (height, number) → table = root
  child : ∀ {table below level key}, owned key → place table = some (level + 1, key / fanout ^ (level + 1)) →
    slots table (key / fanout ^ level % fanout) = .table below →
    place below = some (level, key / fanout ^ level)
  parent : ∀ {table level number}, place table = some (level, number) → table ≠ root →
    ∃ above, place above = some (level + 1, number / fanout) ∧ slots above (number % fanout) = .table table

def Grows (place wider : κ → Option (Nat × Nat)) : Prop :=
  ∀ table spot, place table = some spot → wider table = some spot

theorem Grows.trans {first second third : κ → Option (Nat × Nat)} (one : Grows first second)
    (two : Grows second third) : Grows first third :=
  fun table spot here => two table spot (one table spot here)

theorem grows_update [DecidableEq κ] {place : κ → Option (Nat × Nat)} {fresh : κ} (unused : place fresh = none)
    (spot : Nat × Nat) : Grows place (update place fresh (some spot)) := by
  intro table other here
  rw [update_of_ne, here]
  rintro rfl
  rw [unused] at here
  cases here

variable {fanout}

theorem div_pow_split (key level : Nat) :
    key / fanout ^ (level + 1) * fanout + key / fanout ^ level % fanout = key / fanout ^ level := by
  rw [Nat.pow_succ, ← Nat.div_div_eq_div_mul, Nat.mul_comm, Nat.div_add_mod]

theorem div_pow_succ (key level : Nat) : key / fanout ^ (level + 1) = key / fanout ^ level / fanout := by
  rw [Nat.pow_succ, Nat.div_div_eq_div_mul]

theorem div_pow_mono {key other level upper : Nat} (order : level ≤ upper)
    (same : key / fanout ^ level = other / fanout ^ level) : key / fanout ^ upper = other / fanout ^ upper := by
  obtain ⟨depth, rfl⟩ := Nat.exists_eq_add_of_le order
  rw [Nat.pow_add, ← Nat.div_div_eq_div_mul, ← Nat.div_div_eq_div_mul, same]

theorem succ_div_carries {number : Nat} (last : (number + 1) % fanout = 0) :
    (number + 1) / fanout = number / fanout + 1 := by
  rw [Nat.succ_div, if_pos (Nat.dvd_of_mod_eq_zero last)]

theorem succ_div_stays {number : Nat} (inner : (number + 1) % fanout ≠ 0) :
    (number + 1) / fanout = number / fanout := by
  rw [Nat.succ_div, if_neg (fun divides => inner (Nat.mod_eq_zero_of_dvd divides)), Nat.add_zero]

namespace Sound

variable {owned : Nat → Prop} {height : Nat} {root : κ} {place : κ → Option (Nat × Nat)}
  {slots changed : κ → Nat → Slot κ β}

variable {level key : Nat} {table : κ}

section

variable (sound : Sound fanout owned height root place slots)
include sound

theorem lookup_place (placed : place table = some (level, key / fanout ^ level)) :
    lookup fanout slots height root key = lookup fanout slots level table key := by
  obtain ⟨depth, rest⟩ : ∃ depth, height = level + depth := Nat.exists_eq_add_of_le (sound.below placed).2
  induction depth generalizing table level with
  | zero =>
    obtain rfl : height = level := rest
    rw [sound.only placed]
  | succ depth ih =>
    have inner : table ≠ root := by
      rintro rfl
      rw [sound.top, Option.some.injEq, Prod.mk.injEq] at placed
      omega
    obtain ⟨above, placedAbove, slot⟩ := sound.parent placed inner
    rw [← div_pow_succ] at placedAbove
    rw [ih placedAbove (by omega), lookup, slot]

theorem lookup_empty (placed : place table = some (level + 1, key / fanout ^ (level + 1)))
    (slot : slots table (key / fanout ^ level % fanout) = .empty) : lookup fanout slots height root key = none := by
  rw [sound.lookup_place placed, lookup, slot]

theorem lookup_leaf {value : β} (placed : place table = some (level + 1, key / fanout ^ (level + 1)))
    (slot : slots table (key / fanout ^ level % fanout) = .leaf value) :
    lookup fanout slots height root key = some (level + 1, value) := by
  rw [sound.lookup_place placed, lookup, slot]

theorem lookup_frame {target : κ} {index level number : Nat} (placed : place target = some (level + 1, number))
    (agree : ∀ table slot, place table ≠ none → (table ≠ target ∨ slot ≠ index) →
      changed table slot = slots table slot)
    {key : Nat} (within : owned key) (outside : key / fanout ^ level ≠ number * fanout + index) :
    lookup fanout changed height root key = lookup fanout slots height root key := by
  have from_table : ∀ height table, place table = some (height, key / fanout ^ height) →
      lookup fanout changed height table key = lookup fanout slots height table key := by
    intro height
    induction height with
    | zero =>
      intro table _
      rfl
    | succ height ih =>
      intro table here
      have same : changed table (key / fanout ^ height % fanout) =
          slots table (key / fanout ^ height % fanout) := by
        refine agree _ _ (by simp [here]) ?_
        by_contra hit
        rw [not_or, not_not, not_not] at hit
        obtain ⟨rfl, rfl⟩ := hit
        rw [placed] at here
        cases here
        exact outside (div_pow_split key _).symm
      rw [lookup, lookup, same]
      cases slot : slots table (key / fanout ^ height % fanout) with
      | empty => rfl
      | leaf value => rfl
      | table below => exact ih below (sound.child within here slot)
  refine from_table height root ?_
  rw [sound.top, div_eq_of_lt (sound.fits within)]

theorem put {target : κ} {index : Nat}
    (agree : ∀ table slot, place table ≠ none → (table ≠ target ∨ slot ≠ index) →
      changed table slot = slots table slot)
    (before : ∀ below, slots target index ≠ .table below)
    (after : ∀ below, changed target index ≠ .table below) :
    Sound fanout owned height root place changed where
  __ := sound
  child := by
    intro table below level key within placed slot
    by_cases hit : table = target ∧ key / fanout ^ level % fanout = index
    · obtain ⟨rfl, rfl⟩ := hit
      exact absurd slot (after below)
    · rw [agree _ _ (by simp [placed]) (by tauto)] at slot
      exact sound.child within placed slot
  parent := by
    intro table level number placed inner
    obtain ⟨above, placedAbove, slot⟩ := sound.parent placed inner
    refine ⟨above, placedAbove, ?_⟩
    rw [agree _ _ (by simp [placedAbove]), slot]
    by_contra hit
    rw [not_or, not_not, not_not] at hit
    obtain ⟨rfl, rfl⟩ := hit
    exact before _ slot

end

variable [DecidableEq κ]

theorem attach (sound : Sound fanout owned height root place slots) {target fresh : κ}
    {index level number : Nat} (placed : place target = some (level + 1, number)) (inside : 0 < level)
    (bound : index < fanout) (unused : place fresh = none)
    (agree : ∀ table slot, place table ≠ none → (table ≠ target ∨ slot ≠ index) →
      changed table slot = slots table slot)
    (before : ∀ below, slots target index ≠ .table below)
    (after : changed target index = .table fresh) (flat : ∀ slot below, changed fresh slot ≠ .table below) :
    Sound fanout owned height root (update place fresh (some (level, number * fanout + index)))
      changed := by
  have keeps {table : κ} {spot : Nat × Nat} := grows_update unused (level, number * fanout + index) table spot
  have split : ∀ {table : κ} {spot : Nat × Nat},
      update place fresh (some (level, number * fanout + index)) table = some spot →
      (table = fresh ∧ spot = (level, number * fanout + index)) ∨
        (table ≠ fresh ∧ place table = some spot) := by
    intro table spot here
    by_cases same : table = fresh
    · subst same
      rw [update_self] at here
      cases here
      exact .inl ⟨rfl, rfl⟩
    · rw [update_of_ne same] at here
      exact .inr ⟨same, here⟩
  have limit := sound.below placed
  refine ⟨sound.positive, keeps sound.top, sound.fits, ?_, ?_, ?_, ?_⟩
  · intro table spotLevel spotNumber here
    rcases split here with ⟨_, spot⟩ | ⟨_, here⟩
    · cases spot
      omega
    · exact sound.below here
  · intro table spotNumber here
    rcases split here with ⟨_, spot⟩ | ⟨_, here⟩
    · cases spot
      omega
    · exact sound.only here
  · intro table below tableLevel key within here slot
    rcases split here with ⟨rfl, _⟩ | ⟨_, there⟩
    · exact absurd slot (flat _ _)
    · by_cases hit : table = target ∧ key / fanout ^ tableLevel % fanout = index
      · obtain ⟨rfl, rfl⟩ := hit
        rw [after] at slot
        cases slot
        rw [placed] at there
        cases there
        rw [update_self, div_pow_split]
      · rw [agree _ _ (by simp [there]) (by tauto)] at slot
        exact keeps (sound.child within there slot)
  · intro table spotLevel spotNumber here inner
    rcases split here with ⟨rfl, spot⟩ | ⟨_, here⟩
    · cases spot
      refine ⟨target, ?_, ?_⟩
      · rw [keeps placed, mul_comm, mul_add_div sound.positive, div_eq_of_lt bound]
        rfl
      · rw [mul_comm, mul_add_mod, mod_eq_of_lt bound, after]
    · obtain ⟨above, placedAbove, slot⟩ := sound.parent here inner
      refine ⟨above, keeps placedAbove, ?_⟩
      rw [agree _ _ (by simp [placedAbove]), slot]
      by_contra hit
      rw [not_or, not_not, not_not] at hit
      obtain ⟨rfl, rfl⟩ := hit
      exact before _ slot

end Sound

end Radix

end Library
