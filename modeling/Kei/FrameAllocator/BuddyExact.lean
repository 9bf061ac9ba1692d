import Kei.FrameAllocator.BuddyRules
import Mathlib.Order.CompletePartialOrder

/-! A buddy set over its whole life: every sequence of insertions of chunks that are not
free and of allocations. -/

namespace Kei.FrameAllocator

open Library Checked Shelves

def span (addr order : Nat) : Set Nat := Set.Ico addr (addr + sizeOfOrder order)

theorem mem_span {addr order point : Nat} : point ∈ span addr order ↔ holds point order addr = 1 := by
  rw [holds_eq_one]
  rfl

namespace BuddySet

variable {maxOrder : Nat} {slots : Slots} {set : BuddySet maxOrder} {free : Set Nat}

/-- The slots, the set and the free addresses after a sequence of calls: what was inserted, less what was
allocated. An inserted chunk is aligned and no part of it is free already. -/
inductive History (maxOrder : Nat) : Slots → BuddySet maxOrder → Set Nat → Prop
  | newEmpty : History maxOrder (fun _ => none) (newEmpty maxOrder) ∅
  | insertChunk {slots set free addr order slotsAfter setAfter} : History maxOrder slots set free →
      order < maxOrder → sizeOfOrder order ∣ addr → Disjoint free (span addr order) →
      insertChunk slots set addr order = .ok (slotsAfter, setAfter) →
      History maxOrder slotsAfter setAfter (free ∪ span addr order)
  | allocChunk {slots set free order slotsAfter setAfter addr} : History maxOrder slots set free →
      allocChunk slots set order = .ok (slotsAfter, setAfter, some addr) →
      History maxOrder slotsAfter setAfter (free \ span addr order)
  | refuse {slots set free order slotsAfter setAfter} : History maxOrder slots set free →
      allocChunk slots set order = .ok (slotsAfter, setAfter, none) → History maxOrder slotsAfter setAfter free

def Stored (set : BuddySet maxOrder) (addr order : Nat) : Prop := order < maxOrder ∧ addr ∈ set.lists order

structure Exact (set : BuddySet maxOrder) (free : Set Nat) : Prop where
  aligned : ∀ addr order, set.Stored addr order → sizeOfOrder order ∣ addr
  nodup : ∀ order, order < maxOrder → (set.lists order).Nodup
  disjoint : ∀ addr order other otherOrder, set.Stored addr order → set.Stored other otherOrder →
    (addr, order) ≠ (other, otherOrder) → Disjoint (span addr order) (span other otherOrder)
  coalesced : ∀ addr order, order + 1 < maxOrder → set.Stored addr order →
    ¬set.Stored (addr ^^^ sizeOfOrder order) order
  totalSize : set.totalSize = ∑ order ∈ Finset.range maxOrder, (set.lists order).length * sizeOfOrder order
  free : ∀ point, point ∈ free ↔ ∃ addr order, set.Stored addr order ∧ point ∈ span addr order

theorem weigh_holds_pos_iff {point : Nat} :
    0 < set.weigh (holds point) ↔ ∃ addr order, set.Stored addr order ∧ point ∈ span addr order := by
  constructor
  · intro positive
    obtain ⟨order, bound, addr, member, inside⟩ := exists_of_total_pos positive
    refine ⟨addr, order, ⟨bound, member⟩, mem_span.mpr ?_⟩
    by_contra outside
    rw [holds_of_ne_one outside] at inside
    omega
  · rintro ⟨addr, order, ⟨bound, member⟩, inside⟩
    have := @le_total _ (holds point) _ _ _ _ bound member
    rw [mem_span.mp inside] at this
    exact this

theorem Sound.nodup (sound : set.Sound slots) {order : Nat} (bound : order < maxOrder) :
    (set.lists order).Nodup := by
  refine List.nodup_iff_count_le_one.mpr fun addr => ?_
  by_contra twice
  have member : addr ∈ set.lists order := List.count_pos_iff.mp (by omega)
  have again : addr ∈ take set.lists order addr order := by
    rw [take, Function.update_self, ← List.count_pos_iff, List.count_erase_self]
    omega
  have once := sound.placed.apart addr
  have split := @total_take _ _ (holds addr) _ _ _ _ bound member
  have left := covering_pos bound again
  rw [holds_head] at split
  unfold covering at once left
  omega

theorem Sound.disjoint (sound : set.Sound slots) {addr order other otherOrder : Nat} (stored : set.Stored addr order)
    (otherStored : set.Stored other otherOrder) (distinct : (addr, order) ≠ (other, otherOrder)) :
    Disjoint (span addr order) (span other otherOrder) := by
  rw [Set.disjoint_left]
  intro point inside otherInside
  have both := @add_le_total _ _ (holds point) _ _ _ _ _ _ stored.1 stored.2 otherStored.1 otherStored.2
    (by rintro ⟨rfl, rfl⟩; exact distinct rfl)
  have once := sound.placed.apart point
  rw [mem_span.mp inside, mem_span.mp otherInside] at both
  unfold covering at once
  omega

theorem weigh_size (set : BuddySet maxOrder) : set.weigh (fun order _ => sizeOfOrder order) =
    ∑ order ∈ Finset.range maxOrder, (set.lists order).length * sizeOfOrder order := by
  unfold weigh total
  refine Finset.sum_congr rfl fun order _ => ?_
  simp

theorem Sound.exact (sound : set.Sound slots) (covers : ∀ point, point ∈ free ↔ 0 < set.weigh (holds point)) :
    set.Exact free where
  aligned := fun _ _ stored => sound.placed.aligned stored.1 stored.2
  nodup := fun _ bound => sound.nodup bound
  disjoint := fun _ _ _ _ => sound.disjoint
  coalesced := fun addr order bound stored buddy => sound.coalesced order addr bound stored.2 buddy.2
  totalSize := sound.counted.trans set.weigh_size
  free := fun point => (covers point).trans weigh_holds_pos_iff

/-- The invariant of a history: the set is sound, it covers the free addresses, and all other slots are unused. -/
structure Tracks (slots : Slots) (set : BuddySet maxOrder) (free : Set Nat) : Prop where
  sound : set.Sound slots
  covers : ∀ point, point ∈ free ↔ 0 < set.weigh (holds point)
  unused : ∀ point, point ∉ free → slots point = none

variable {addr order : Nat}

theorem Tracks.insertable (tracks : set.Tracks slots free)
    (apart : Disjoint free (span addr order)) (point : Nat) (inside : holds point order addr = 1) :
    set.weigh (holds point) = 0 ∧ slots point = none := by
  have notFree : point ∉ free := fun member => Set.disjoint_left.mp apart member (mem_span.mpr inside)
  refine ⟨?_, tracks.unused point notFree⟩
  by_contra covered
  exact notFree ((tracks.covers point).mpr (by omega))

variable {setAfter : BuddySet maxOrder}

theorem Tracks.insert (tracks : set.Tracks slots free) {slotsAfter : Slots}
    (inserted : Inserted slots set order addr slotsAfter setAfter) :
    setAfter.Tracks slotsAfter (free ∪ span addr order) := by
  have covers : ∀ point, point ∈ free ∪ span addr order ↔ 0 < setAfter.weigh (holds point) := by
    intro point
    rw [inserted.weighs (holds_additive point), Set.mem_union, tracks.covers, mem_span]
    have := @holds_of_ne_one point order addr
    omega
  refine ⟨inserted.sound, covers, ?_⟩
  intro point outside
  have uncovered : setAfter.weigh (holds point) = 0 := by
    by_contra covered
    exact outside ((covers point).mpr (by omega))
  rw [inserted.frame uncovered]
  exact tracks.unused point fun member => outside (Or.inl member)

theorem Tracks.take (tracks : set.Tracks slots free) {slotsAfter : Slots}
    (taken : Taken slots set order slotsAfter setAfter addr) :
    setAfter.Tracks slotsAfter (free \ span addr order) := by
  refine ⟨taken.sound, ?_, ?_⟩
  · intro point
    have weighs := taken.weighs (holds_additive point)
    have once := tracks.sound.placed.apart point
    change set.weigh (holds point) ≤ 1 at once
    rw [Set.mem_sdiff, tracks.covers, mem_span]
    have := @holds_of_ne_one point order addr
    omega
  · intro point outside
    by_cases inside : point ∈ span addr order
    · exact taken.unused (mem_span.mp inside)
    · have notFree : point ∉ free := fun member => outside ⟨member, inside⟩
      have uncovered : set.weigh (holds point) = 0 := by
        by_contra covered
        exact notFree ((tracks.covers point).mpr (by omega))
      rw [taken.frame uncovered]
      exact tracks.unused point notFree

theorem History.tracks (history : History maxOrder slots set free) : set.Tracks slots free := by
  induction history with
  | newEmpty =>
    refine ⟨newEmpty_sound _, fun point => ?_, fun _ _ => rfl⟩
    simp [BuddySet.newEmpty, weigh, total]
  | insertChunk _ bound aligned apart ran ih =>
    exact ih.insert ((insertChunk_rule ih.sound bound aligned (ih.insertable apart)).of_ok ran)
  | allocChunk _ ran ih => exact ih.take ((allocChunk_rule ih.sound _).of_ok ran)
  | refuse _ ran ih =>
    obtain ⟨rfl, rfl, _⟩ := (allocChunk_rule ih.sound _).of_ok ran
    exact ih

/-- What an allocation returns: nothing if no stored chunk is large enough, otherwise an aligned chunk of the
order asked for, out of a stored chunk of the smallest order that suffices. -/
def AllocatesExactly (slots : Slots) (set : BuddySet maxOrder) (free : Set Nat) (order : Nat) : Prop :=
  ∃ slotsAfter setAfter result, allocChunk slots set order = .ok (slotsAfter, setAfter, result) ∧
    (result = none ↔ ∀ addr other, set.Stored addr other → other < order) ∧
    ∀ addr, result = some addr → sizeOfOrder order ∣ addr ∧ span addr order ⊆ free ∧
      ∃ source, set.Stored addr source ∧ order ≤ source ∧ ¬setAfter.Stored addr source ∧
        ∀ smaller other, set.Stored other smaller → order ≤ smaller → source ≤ smaller

theorem Tracks.allocates (tracks : set.Tracks slots free) (order : Nat) : set.AllocatesExactly slots free order := by
  obtain ⟨⟨slotsAfter, setAfter, result⟩, ran, outcome⟩ := (allocChunk_rule tracks.sound order).exists_ok
  refine ⟨slotsAfter, setAfter, result, ran, ?_⟩
  cases result with
  | none =>
    obtain ⟨-, -, empty⟩ := outcome
    refine ⟨⟨fun _ addr other stored => ?_, fun _ => rfl⟩, fun addr found => by simp at found⟩
    by_contra large
    have nothing := empty other (by omega) stored.1
    rw [Stored, nothing] at stored
    exact List.not_mem_nil stored.2
  | some addr =>
    have taken : Taken slots set order slotsAfter setAfter addr := outcome
    obtain ⟨source, lower, bound, member, earlier⟩ := taken.smallest
    refine ⟨⟨fun found => by simp at found, fun small => ?_⟩, ?_⟩
    · exact absurd (small addr source ⟨bound, member⟩) (by omega)
    rintro _ ⟨rfl⟩
    refine ⟨taken.aligned, ?_, source, ⟨bound, member⟩, lower, ?_, ?_⟩
    · intro point inside
      have weighs := taken.weighs (holds_additive point)
      rw [mem_span.mp inside] at weighs
      exact (tracks.covers point).mpr (by omega)
    · rintro ⟨_, left⟩
      have weighs := taken.weighs (holds_additive addr)
      have once := tracks.sound.placed.apart addr
      change set.weigh (holds addr) ≤ 1 at once
      have covered := covering_pos bound left
      change 0 < setAfter.weigh (holds addr) at covered
      rw [holds_head] at weighs
      omega
    · intro smaller other stored enough
      by_contra less
      have nothing := earlier smaller enough (by omega)
      rw [Stored, nothing] at stored
      exact List.not_mem_nil stored.2

/-- In every history the set is exact, a chunk that is not free can be inserted, and every allocation is exact. -/
theorem exact_of_history (history : History maxOrder slots set free) : set.Exact free ∧
      (∀ addr order, order < maxOrder → sizeOfOrder order ∣ addr → Disjoint free (span addr order) →
        ∃ after, insertChunk slots set addr order = .ok after) ∧
      ∀ order, set.AllocatesExactly slots free order := by
  have tracks := history.tracks
  refine ⟨tracks.sound.exact tracks.covers, ?_, tracks.allocates⟩
  intro addr order bound aligned apart
  obtain ⟨after, ran, _⟩ := (insertChunk_rule tracks.sound bound aligned (tracks.insertable apart)).exists_ok
  exact ⟨after, ran⟩

set_option maxRecDepth 40000 in
/-- A chunk of two pages is inserted and a page allocated: its upper half stays free. -/
theorem exact_of_history_halved : ∃ slots, ∃ set : BuddySet 2,
    History 2 slots set ((∅ ∪ span 0 1) \ span 0 0) ∧ set.lists 0 = [4096] ∧
      set.Exact ((∅ ∪ span 0 1) \ span 0 0) := by
  have inserted := @History.insertChunk 2 _ _ _ 0 1 _ _ .newEmpty (by decide) (Nat.dvd_zero _)
    (Set.disjoint_left.mpr fun _ member => member.elim) rfl
  have history := @History.allocChunk 2 _ _ _ 0 _ _ 0 inserted rfl
  exact ⟨_, _, history, rfl, (exact_of_history history).1⟩

end BuddySet

end Kei.FrameAllocator
