import Mathlib.Algebra.BigOperators.Group.Finset.Piecewise
import Mathlib.Algebra.GroupWithZero.Nat
import Mathlib.Algebra.Order.BigOperators.Group.Finset

/-! Numbered shelves, each with a list of items on it, and what the items weigh
together. A weight may be a size, or the indicator of a point, in which case the total
counts the items that hold the point. -/

namespace Library

open Function List

theorem sum_update {ι : Type} [DecidableEq ι] {β : ι → Type} {indices : Finset ι} {index : ι}
    (measure : (index : ι) → β index → Nat) (parts : (index : ι) → β index) (member : index ∈ indices)
    (part : β index) :
    ∑ other ∈ indices, measure other (update parts index part other) + measure index (parts index) =
      ∑ other ∈ indices, measure other (parts other) + measure index part := by
  rw [← Finset.add_sum_erase _ _ member, ← Finset.add_sum_erase _ (fun other => measure other (parts other)) member]
  have others : ∑ other ∈ indices.erase index, measure other (update parts index part other) =
      ∑ other ∈ indices.erase index, measure other (parts other) :=
    Finset.sum_congr rfl fun other erased => by
      rw [update_of_ne (Finset.ne_of_mem_erase erased)]
  rw [others, update_self]
  omega

section Shelves

variable {α : Type} [DecidableEq α]

namespace Shelves

def push (shelves : Nat → List α) (shelf : Nat) (item : α) : Nat → List α :=
  update shelves shelf (item :: shelves shelf)

def take (shelves : Nat → List α) (shelf : Nat) (item : α) : Nat → List α :=
  update shelves shelf ((shelves shelf).erase item)

def total (weight : Nat → α → Nat) (shelves : Nat → List α) (count : Nat) : Nat :=
  ∑ shelf ∈ Finset.range count, ((shelves shelf).map (weight shelf)).sum

variable {weight : Nat → α → Nat} {shelves : Nat → List α} {count shelf : Nat} {item : α}

omit [DecidableEq α] in
theorem mem_push {other : Nat} {value : α} :
    value ∈ push shelves shelf item other ↔ other = shelf ∧ value = item ∨ value ∈ shelves other := by
  unfold push
  by_cases same : other = shelf
  · subst same
    simp
  · simp [same]

omit [DecidableEq α] in
theorem push_pop {rest : List α} (front : shelves shelf = item :: rest) :
    push (update shelves shelf rest) shelf item = shelves := by
  simp [push, ← front]

omit [DecidableEq α] in
theorem total_update (bound : shelf < count) (items : List α) :
    total weight (update shelves shelf items) count + ((shelves shelf).map (weight shelf)).sum =
      total weight shelves count + (items.map (weight shelf)).sum :=
  sum_update (fun shelf items => (map (weight shelf) items).sum) shelves (Finset.mem_range.mpr bound) items

omit [DecidableEq α] in
theorem total_push (bound : shelf < count) :
    total weight (push shelves shelf item) count = total weight shelves count + weight shelf item := by
  have updated := @total_update _ weight shelves _ _ bound (item :: shelves shelf)
  rw [map_cons, sum_cons] at updated
  unfold push
  omega

theorem total_take (bound : shelf < count) (member : item ∈ shelves shelf) :
    total weight (take shelves shelf item) count + weight shelf item = total weight shelves count := by
  have updated := @total_update _ weight shelves _ _ bound ((shelves shelf).erase item)
  have split := sum_map_erase (weight shelf) member
  unfold take
  omega

omit [DecidableEq α] in
theorem le_total (bound : shelf < count) (member : item ∈ shelves shelf) :
    weight shelf item ≤ total weight shelves count := by
  calc weight shelf item ≤ ((shelves shelf).map (weight shelf)).sum :=
        single_le_sum (by simp) _ (mem_map_of_mem member)
    _ ≤ total weight shelves count :=
        Finset.single_le_sum (f := fun other => ((shelves other).map (weight other)).sum)
          (fun _ _ => Nat.zero_le _) (Finset.mem_range.mpr bound)

theorem add_le_total {second : Nat} {other : α} (bound : shelf < count) (member : item ∈ shelves shelf)
    (secondBound : second < count) (secondMember : other ∈ shelves second)
    (distinct : ¬(shelf = second ∧ item = other)) :
    weight shelf item + weight second other ≤ total weight shelves count := by
  rw [← total_take bound member]
  have remains : other ∈ take shelves shelf item second := by
    unfold take
    by_cases same : second = shelf
    · subst same
      rw [update_self]
      exact (mem_erase_of_ne fun equal => distinct ⟨rfl, equal.symm⟩).mpr secondMember
    · rwa [update_of_ne same]
  have := @le_total _ weight _ _ _ _ secondBound remains
  omega

omit [DecidableEq α] in
theorem exists_of_total_pos (positive : 0 < total weight shelves count) :
    ∃ shelf, shelf < count ∧ ∃ item ∈ shelves shelf, 0 < weight shelf item := by
  obtain ⟨shelf, member, found⟩ := Finset.exists_ne_zero_of_sum_ne_zero (Nat.pos_iff_ne_zero.mp positive)
  refine ⟨shelf, Finset.mem_range.mp member, ?_⟩
  by_contra none
  push Not at none
  refine found (sum_eq_zero ?_)
  intro value mapped
  obtain ⟨item, member, rfl⟩ := mem_map.mp mapped
  exact Nat.le_zero.mp (none item member)

end Shelves

end Shelves

end Library
