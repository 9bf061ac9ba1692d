import Kei.FrameAllocator.BuddySet
import Kei.Library.Dyadic

/-! What the lists of a buddy set and the metadata slots say about each other, and how
claiming, merging, splitting and releasing a chunk keep it. A chunk that an operation has
in hand is counted as if it were still in the list of its order. -/

namespace Kei.FrameAllocator

open Library Shelves Function

theorem sizeOfOrder_eq_two_pow (order : Nat) : sizeOfOrder order = 2 ^ (order + 12) := by
  unfold sizeOfOrder pageSize
  rw [pow_add]
  rfl

theorem sizeOfOrder_succ (order : Nat) : sizeOfOrder (order + 1) = sizeOfOrder order + sizeOfOrder order := by
  unfold sizeOfOrder
  rw [pow_succ]
  ring

theorem sizeOfOrder_pos (order : Nat) : 0 < sizeOfOrder order := by
  rw [sizeOfOrder_eq_two_pow]
  exact Nat.two_pow_pos _

def Additive (weight : Nat → Nat → Nat) : Prop :=
  ∀ order addr, weight (order + 1) addr = weight order addr + weight order (addr + sizeOfOrder order)

def holds (point order addr : Nat) : Nat :=
  if addr ≤ point ∧ point < addr + sizeOfOrder order then 1 else 0

theorem holds_eq_one {point order addr : Nat} :
    holds point order addr = 1 ↔ addr ≤ point ∧ point < addr + sizeOfOrder order := by
  simp [holds]

theorem holds_of_ne_one {point order addr : Nat} (outside : holds point order addr ≠ 1) :
    holds point order addr = 0 := by
  unfold holds at outside ⊢
  grind

theorem holds_head (order addr : Nat) : holds addr order addr = 1 :=
  holds_eq_one.mpr ⟨le_rfl, Nat.lt_add_of_pos_right (sizeOfOrder_pos order)⟩

theorem holds_additive (point : Nat) : Additive (holds point) := by
  intro order addr
  unfold holds
  rw [sizeOfOrder_succ]
  have := sizeOfOrder_pos order
  grind

theorem size_additive : Additive fun order _ => sizeOfOrder order := fun order _ => sizeOfOrder_succ order

variable {maxOrder order : Nat} {slots : Slots} {lists : Nat → List Nat} {chunk : Nat}

def covering (maxOrder : Nat) (lists : Nat → List Nat) (point : Nat) : Nat :=
  total (holds point) lists maxOrder

theorem covering_push (bound : order < maxOrder) (point : Nat) :
    covering maxOrder (push lists order chunk) point =
      covering maxOrder lists point + holds point order chunk :=
  total_push bound

structure Placed (maxOrder : Nat) (slots : Slots) (lists : Nat → List Nat) : Prop where
  aligned : ∀ {order addr}, order < maxOrder → addr ∈ lists order → sizeOfOrder order ∣ addr
  apart : ∀ point, covering maxOrder lists point ≤ 1
  tagged : ∀ {order addr}, order < maxOrder → addr ∈ lists order → slots addr = some order
  bare : ∀ {point order}, 0 < covering maxOrder lists point → slots point = some order →
    order < maxOrder ∧ point ∈ lists order

def Coalesced (maxOrder : Nat) (lists : Nat → List Nat) : Prop :=
  ∀ order addr, order + 1 < maxOrder → addr ∈ lists order → addr ^^^ sizeOfOrder order ∉ lists order

theorem covering_pos {addr : Nat} (bound : order < maxOrder) (member : addr ∈ lists order) :
    0 < covering maxOrder lists addr := by
  have := @le_total _ (holds addr) _ _ _ _ bound member
  rw [holds_head] at this
  exact this

theorem Placed.empty (slots : Slots) : Placed maxOrder slots fun _ => [] := by
  have nothing : ∀ point, covering maxOrder (fun _ => []) point = 0 := by simp [covering, total]
  exact
    { aligned := fun _ member => absurd member List.not_mem_nil
      apart := fun point => by rw [nothing]; omega
      tagged := fun _ member => absurd member List.not_mem_nil
      bare := fun covered => by rw [nothing] at covered; omega }

theorem Placed.relist {others : Nat → List Nat} (placed : Placed maxOrder slots lists)
    (members : ∀ {index addr}, addr ∈ others index ↔ addr ∈ lists index)
    (covers : ∀ point, covering maxOrder others point = covering maxOrder lists point) :
    Placed maxOrder slots others where
  aligned := fun bound member => placed.aligned bound (members.mp member)
  apart := fun point => by rw [covers]; exact placed.apart point
  tagged := fun bound member => placed.tagged bound (members.mp member)
  bare := fun covered marked => by
    rw [covers] at covered
    exact (placed.bare covered marked).imp_right members.mpr

theorem Placed.congr {changed : Slots} (placed : Placed maxOrder slots lists)
    (same : ∀ point, 0 < covering maxOrder lists point → changed point = slots point) :
    Placed maxOrder changed lists where
  __ := placed
  tagged := fun bound member => by
    rw [same _ (covering_pos bound member)]
    exact placed.tagged bound member
  bare := fun covered marked => placed.bare covered (by rw [← same _ covered]; exact marked)

section InHand

variable (bound : order < maxOrder) (placed : Placed maxOrder slots (push lists order chunk))

include bound placed

theorem Placed.uncovered {point : Nat} (inside : holds point order chunk = 1) :
    covering maxOrder lists point = 0 := by
  have := placed.apart point
  rw [covering_push bound] at this
  omega

theorem Placed.outside {other addr : Nat} (otherBound : other < maxOrder) (member : addr ∈ lists other) :
    ¬(chunk ≤ addr ∧ addr < chunk + sizeOfOrder order) := by
  intro inside
  have none := placed.uncovered bound (holds_eq_one.mpr inside)
  have some := covering_pos otherBound member
  omega

theorem Placed.inHand_tagged : slots chunk = some order :=
  placed.tagged bound (mem_push.mpr (Or.inl ⟨rfl, rfl⟩))

theorem Placed.inHand_aligned : sizeOfOrder order ∣ chunk :=
  placed.aligned bound (mem_push.mpr (Or.inl ⟨rfl, rfl⟩))

theorem Placed.tail_unused {point : Nat} (lower : chunk < point) (upper : point < chunk + sizeOfOrder order) :
    slots point = none := by
  have inside : holds point order chunk = 1 := holds_eq_one.mpr ⟨by omega, upper⟩
  have covered : 0 < covering maxOrder (push lists order chunk) point := by
    rw [covering_push bound]
    omega
  cases marked : slots point with
  | none => rfl
  | some other =>
    obtain ⟨otherBound, member⟩ := placed.bare covered marked
    rcases mem_push.mp member with ⟨_, same⟩ | listed
    · omega
    · exact absurd ⟨by omega, upper⟩ (placed.outside bound otherBound listed)

theorem Placed.released {point : Nat} (inside : holds point order chunk = 1) :
    covering maxOrder lists point = 0 ∧ slots.resetAsUnused chunk point = none := by
  refine ⟨placed.uncovered bound inside, ?_⟩
  rw [holds_eq_one] at inside
  by_cases head : point = chunk
  · subst head
    exact update_self ..
  · rw [Slots.resetAsUnused, update_of_ne head]
    exact placed.tail_unused bound (by omega) inside.2

theorem Placed.release : Placed maxOrder (slots.resetAsUnused chunk) lists where
  aligned := fun otherBound member => placed.aligned otherBound (mem_push.mpr (Or.inr member))
  apart := fun point => by
    have := placed.apart point
    rw [covering_push bound] at this
    exact le_trans (Nat.le_add_right _ _) this
  tagged := fun {other addr} otherBound member => by
    have outside := placed.outside bound otherBound member
    have different : addr ≠ chunk := by
      rintro rfl
      exact outside ⟨le_rfl, Nat.lt_add_of_pos_right (sizeOfOrder_pos order)⟩
    rw [Slots.resetAsUnused, update_of_ne different]
    exact placed.tagged otherBound (mem_push.mpr (Or.inr member))
  bare := fun {point other} covered marked => by
    have different : point ≠ chunk := by
      rintro rfl
      simp [Slots.resetAsUnused] at marked
    rw [Slots.resetAsUnused, update_of_ne different] at marked
    have covered' : 0 < covering maxOrder (push lists order chunk) point := by
      rw [covering_push bound]
      omega
    obtain ⟨otherBound, member⟩ := placed.bare covered' marked
    rcases mem_push.mp member with ⟨_, same⟩ | listed
    · exact absurd same different
    · exact ⟨otherBound, listed⟩

end InHand

theorem Placed.claim (bound : order < maxOrder) (placed : Placed maxOrder slots lists)
    (aligned : sizeOfOrder order ∣ chunk)
    (free : ∀ point, holds point order chunk = 1 → covering maxOrder lists point = 0 ∧ slots point = none) :
    Placed maxOrder (update slots chunk (some order)) (push lists order chunk) where
  aligned := fun {other addr} otherBound member => by
    rcases mem_push.mp member with ⟨rfl, rfl⟩ | listed
    · exact aligned
    · exact placed.aligned otherBound listed
  apart := fun point => by
    rw [covering_push bound]
    have before := placed.apart point
    by_cases inside : holds point order chunk = 1
    · have := (free point inside).1
      omega
    · have := holds_of_ne_one inside
      omega
  tagged := fun {other addr} otherBound member => by
    rcases mem_push.mp member with ⟨rfl, rfl⟩ | listed
    · exact update_self ..
    · have covered := covering_pos otherBound listed
      have different : addr ≠ chunk := by
        rintro rfl
        have := (free addr (holds_head order addr)).1
        omega
      rw [update_of_ne different]
      exact placed.tagged otherBound listed
  bare := fun {point other} covered marked => by
    by_cases head : point = chunk
    · subst head
      rw [update_self, Option.some.injEq] at marked
      subst marked
      exact ⟨bound, mem_push.mpr (Or.inl ⟨rfl, rfl⟩)⟩
    · rw [update_of_ne head] at marked
      by_cases inside : holds point order chunk = 1
      · rw [(free point inside).2] at marked
        exact absurd marked (by simp)
      · have covered' : 0 < covering maxOrder lists point := by
          rw [covering_push bound] at covered
          have := holds_of_ne_one inside
          omega
        obtain ⟨otherBound, listed⟩ := placed.bare covered' marked
        exact ⟨otherBound, mem_push.mpr (Or.inr listed)⟩

section Halves

variable {weight : Nat → Nat → Nat} {low : Nat}

theorem total_split (additive : Additive weight) (bound : order + 1 < maxOrder) :
    total weight (push (push lists order (low + sizeOfOrder order)) order low) maxOrder =
      total weight (push lists (order + 1) low) maxOrder := by
  rw [total_push (by omega), total_push (by omega), total_push bound, additive]
  omega

theorem total_merge {other : Nat} (additive : Additive weight) (bound : order + 1 < maxOrder)
    (member : other ∈ lists order)
    (halves : chunk = low ∧ other = low + sizeOfOrder order ∨ chunk = low + sizeOfOrder order ∧ other = low) :
    total weight (push (take lists order other) (order + 1) low) maxOrder =
      total weight (push lists order chunk) maxOrder := by
  rw [total_push bound, total_push (by omega), additive]
  have taken := @total_take _ _ weight lists maxOrder order other (by omega) member
  rcases halves with ⟨rfl, rfl⟩ | ⟨rfl, rfl⟩ <;> omega

theorem Placed.split (bound : order + 1 < maxOrder)
    (placed : Placed maxOrder slots (push lists (order + 1) low)) :
    Placed maxOrder
      (update (update slots low (some order)) (low + sizeOfOrder order) (some order))
      (push (push lists order (low + sizeOfOrder order)) order low) := by
  have positive := sizeOfOrder_pos order
  have double := sizeOfOrder_succ order
  have whole : sizeOfOrder order ∣ low :=
    Dvd.dvd.trans ⟨2, by rw [sizeOfOrder_succ]; ring⟩ (placed.inHand_aligned bound)
  have upper := (placed.release bound).claim (by omega) (Nat.dvd_add whole dvd_rfl) fun point inside => by
    rw [holds_eq_one] at inside
    exact placed.released bound (holds_eq_one.mpr (by omega))
  have both := upper.claim (by omega) whole fun point inside => by
    rw [holds_eq_one] at inside
    have apart : holds point order (low + sizeOfOrder order) = 0 := if_neg (by omega)
    rw [covering_push (by omega), apart, update_of_ne (by omega)]
    exact placed.released bound (holds_eq_one.mpr (by omega))
  rwa [update_comm (by omega), Slots.resetAsUnused, update_idem] at both

theorem Placed.merge {other : Nat} (bound : order + 1 < maxOrder)
    (placed : Placed maxOrder slots (push lists order chunk)) (member : other ∈ lists order)
    (halves : chunk = low ∧ other = low + sizeOfOrder order ∨ chunk = low + sizeOfOrder order ∧ other = low)
    (aligned : sizeOfOrder (order + 1) ∣ low) :
    Placed maxOrder
      (update (slots.resetAsUnused (low + sizeOfOrder order)) low (some (order + 1)))
      (push (take lists order other) (order + 1) low) := by
  have positive := sizeOfOrder_pos order
  have double := sizeOfOrder_succ order
  have below : order < maxOrder := by omega
  have listed : ∀ {index addr}, addr ∈ push (take lists order other) order other index ↔
    addr ∈ lists index := by
    intro index addr
    rw [mem_push, take]
    by_cases here : index = order
    · subst here
      rw [update_self]
      by_cases same : addr = other
      · simp [same, member]
      · simp [same, List.mem_erase_of_ne same]
    · simp [here]
  have whole : Placed maxOrder slots (push (push (take lists order other) order other) order chunk) := by
    refine placed.relist (by simp only [mem_push, listed, implies_true]) fun point => ?_
    rw [covering_push below, covering_push below, covering_push below]
    have := @total_take _ _ (holds point) lists maxOrder order other below member
    unfold covering
    omega
  have first := whole.release below
  have merged := (first.release below).claim bound aligned fun point inside => by
    by_cases mine : holds point order chunk = 1
    · obtain ⟨uncovered, unused⟩ := whole.released below mine
      rw [covering_push below] at uncovered
      refine ⟨by omega, ?_⟩
      rw [Slots.resetAsUnused, update_apply, unused, ite_self]
    · refine first.released below ?_
      rw [holds_eq_one] at inside mine ⊢
      omega
  rcases halves with ⟨rfl, rfl⟩ | ⟨rfl, rfl⟩
  · rwa [Slots.resetAsUnused, Slots.resetAsUnused, update_comm (by omega), update_idem,
      update_comm (by omega)] at merged
  · rwa [Slots.resetAsUnused, Slots.resetAsUnused, update_idem] at merged

end Halves

end Kei.FrameAllocator
