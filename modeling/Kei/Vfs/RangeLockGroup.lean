import Kei.Vfs.RangeLockLoops

/-! The locks of one owner: sorted ranges that touch only where their types differ. Settling
a lock among them and releasing a range of them is described byte by byte. -/

namespace Kei.Vfs

open Library Checked RangeLockItem List

variable {ω : Type}

def FileRange.Contains (range : FileRange) (offset : Nat) : Prop :=
  range.start ≤ offset ∧ offset < range.stop

instance (range : FileRange) (offset : Nat) : Decidable (range.Contains offset) :=
  inferInstanceAs (Decidable (_ ∧ _))

def LockedAt (list : RangeLockList ω) (offset : Nat) (type : RangeLockType) : Prop :=
  ∃ item ∈ list, item.type = type ∧ item.range.Contains offset

@[simp] theorem lockedAt_nil (offset : Nat) (type : RangeLockType) :
    ¬LockedAt ([] : RangeLockList ω) offset type := by
  simp [LockedAt]

@[simp] theorem lockedAt_cons (item : RangeLockItem ω) (list : RangeLockList ω) (offset : Nat)
    (type : RangeLockType) :
    LockedAt (item :: list) offset type ↔
      item.type = type ∧ item.range.Contains offset ∨ LockedAt list offset type := by
  simp [LockedAt]

variable {item : RangeLockItem ω} {list : RangeLockList ω}

theorem LockedAt.of_mem (member : item ∈ list) : LockedAt list item.range.start item.type :=
  ⟨item, member, rfl, Nat.le_refl _, item.range.valid⟩

def Before (first second : RangeLockItem ω) : Prop :=
  first.range.stop ≤ second.range.start ∧ (first.type = second.type → first.range.stop < second.range.start)

theorem Before.trans {first second third : RangeLockItem ω} (one : Before first second)
    (two : Before second third) : Before first third := by
  have valid := second.range.valid
  have ends := one.1
  have starts := two.1
  exact ⟨by omega, fun _ => by omega⟩

variable {rest : RangeLockList ω}

theorem before_cons {item next : RangeLockItem ω} (first : Before item next)
    (sorted : (next :: rest).Pairwise Before) : ∀ other ∈ next :: rest, Before item other := by
  rw [pairwise_cons] at sorted
  exact forall_mem_cons.mpr ⟨first, fun other member => first.trans (sorted.1 other member)⟩

theorem LockedAt.behind {offset : Nat} {type : RangeLockType}
    (after : ∀ other ∈ rest, Before item other) (locked : LockedAt rest offset type) :
    item.range.stop ≤ offset ∧ (item.type = type → item.range.stop < offset) := by
  obtain ⟨other, member, rfl, starts, _⟩ := locked
  have before := after other member
  exact ⟨Nat.le_trans before.1 starts, fun same => Nat.lt_of_lt_of_le (before.2 same) starts⟩

theorem before_of_lockedAt
    (behind : ∀ offset type, LockedAt list offset type →
      item.range.stop ≤ offset ∧ (item.type = type → item.range.stop < offset)) :
    ∀ other ∈ list, Before item other :=
  fun other member => behind other.range.start other.type (LockedAt.of_mem member)

theorem before_below {newEnd : Nat} {valid : item.range.start < newEnd} (inner : newEnd < item.range.stop)
    (after : ∀ other ∈ rest, Before item other) : ∀ other ∈ rest, Before (item.below newEnd valid) other := by
  intro other member
  have before := after other member
  exact ⟨Nat.le_trans (Nat.le_of_lt inner) before.1, fun _ => Nat.lt_of_lt_of_le inner before.1⟩

theorem pairwise_above {newStart : Nat} {valid : newStart < item.range.stop}
    (sorted : (item :: rest).Pairwise Before) : (item.above newStart valid :: rest).Pairwise Before :=
  pairwise_cons.mpr ⟨(pairwise_cons.mp sorted).1, (pairwise_cons.mp sorted).2⟩

variable [DecidableEq ω] {group : RangeLockList ω} {lock : RangeLockItem ω}

section

variable (owned : ∀ item ∈ group, item.owner = lock.owner)
include owned

theorem settle_lockedAt (sorted : group.Pairwise Before) (offset : Nat) (type : RangeLockType) :
    LockedAt (settle lock group) offset type ↔
      if lock.range.Contains offset then type = lock.type else LockedAt group offset type := by
  induction group generalizing lock with
  | nil =>
    simp only [settle, lockedAt_cons, lockedAt_nil, or_false]
    split
    · simp [*, eq_comm]
    · simp [*]
  | cons next rest ih =>
    rw [forall_mem_cons] at owned
    have after := (pairwise_cons.mp sorted).1
    have behind : LockedAt rest offset type → _ := LockedAt.behind after
    have later := @ih lock owned.2 (pairwise_cons.mp sorted).2
    have merged := @ih { next with range := next.range.joined lock.range }
      (fun item member => (owned.2 item member).trans owned.1.symm) (pairwise_cons.mp sorted).2
    have nextValid := next.range.valid
    have lockValid := lock.range.valid
    clear ih sorted after
    simp only [FileRange.Contains, FileRange.joined] at later merged ⊢
    rw [settle, if_neg (by simp [owned.1])]
    split_ifs <;>
      simp only [lockedAt_cons, FileRange.Contains, FileRange.joined, below, above, later, merged] <;> grind

theorem settle_owned : ∀ item ∈ settle lock group, item.owner = lock.owner := by
  induction group generalizing lock with
  | nil => simp [settle]
  | cons next rest ih =>
    obtain ⟨here, there⟩ := forall_mem_cons.mp owned
    have merged := @ih { next with range := next.range.joined lock.range } fun item member =>
      (there item member).trans here.symm
    have passed := ih there
    rw [settle, if_neg (by simp [here])]
    split_ifs <;> grind [RangeLockItem.below, RangeLockItem.above]

theorem settle_sorted (sorted : group.Pairwise Before) : (settle lock group).Pairwise Before := by
  induction group generalizing lock with
  | nil => simp [settle]
  | cons next rest ih =>
    have whole := sorted
    rw [forall_mem_cons] at owned
    rw [pairwise_cons] at sorted
    obtain ⟨after, sorted⟩ := sorted
    have passed (item : RangeLockItem ω) (first : Before item lock) (others : ∀ other ∈ rest, Before item other) :
        (item :: settle lock rest).Pairwise Before := by
      refine pairwise_cons.mpr ⟨before_of_lockedAt fun offset type locked => ?_, ih owned.2 sorted⟩
      rw [settle_lockedAt owned.2 sorted] at locked
      split at locked
      · rename_i inside
        obtain rfl := locked
        exact ⟨Nat.le_trans first.1 inside.1, fun same => Nat.lt_of_lt_of_le (first.2 same) inside.1⟩
      · exact locked.behind others
    have front (first : Before lock next) : (lock :: next :: rest).Pairwise Before :=
      pairwise_cons.mpr ⟨before_cons first whole, whole⟩
    have lockValid := lock.range.valid
    have nextValid := next.range.valid
    rw [settle, if_neg (by simp [owned.1])]
    split
    · rename_i same
      split
      · exact front ⟨by omega, fun _ => by omega⟩
      split
      · exact passed next ⟨by omega, fun _ => by omega⟩ after
      · exact ih (fun item member => (owned.2 item member).trans owned.1.symm) sorted
    rename_i differs
    split
    · exact front ⟨by omega, fun same => absurd same.symm differs⟩
    split
    · exact passed next ⟨by omega, fun same => absurd same differs⟩ after
    have aboveSorted (right : lock.range.stop < next.range.stop) :
        (lock :: next.above lock.range.stop right :: rest).Pairwise Before := by
      have first : Before lock (next.above lock.range.stop right) :=
        ⟨Nat.le_refl _, fun same => absurd same.symm differs⟩
      exact pairwise_cons.mpr ⟨before_cons first (pairwise_above whole), pairwise_above whole⟩
    split
    · rename_i right
      split
      · rename_i left
        have first : Before (next.below lock.range.start left) lock :=
          ⟨Nat.le_refl _, fun same => absurd same differs⟩
        exact pairwise_cons.mpr ⟨before_cons first (aboveSorted right), aboveSorted right⟩
      · exact aboveSorted right
    split
    · rename_i left
      exact passed _ ⟨Nat.le_refl _, fun same => absurd same differs⟩ (before_below (by omega) after)
    · exact ih owned.2 sorted

theorem release_lockedAt (sorted : group.Pairwise Before) (offset : Nat) (type : RangeLockType) :
    LockedAt (release lock group) offset type ↔ LockedAt group offset type ∧ ¬lock.range.Contains offset := by
  induction group with
  | nil => simp [release]
  | cons existing rest ih =>
    rw [forall_mem_cons] at owned
    have behind : LockedAt rest offset type → _ := LockedAt.behind (pairwise_cons.mp sorted).1
    have later := ih owned.2 (pairwise_cons.mp sorted).2
    have existingValid := existing.range.valid
    have lockValid := lock.range.valid
    clear ih sorted
    simp only [FileRange.Contains] at later ⊢
    rw [release]
    split_ifs <;>
      simp only [lockedAt_cons, FileRange.Contains, below, above, later] <;> grind [FileRange.Overlaps]

end

theorem release_owned {owner : ω}
    (owned : ∀ item ∈ group, item.owner = owner) : ∀ item ∈ release lock group, item.owner = owner := by
  induction group with
  | nil => simp [release]
  | cons existing rest ih =>
    have here := owned existing mem_cons_self
    have there : ∀ item ∈ rest, item.owner = owner := fun item member =>
      owned item (mem_cons_of_mem _ member)
    have kept (item : RangeLockItem ω) (same : item.owner = owner) :
        ∀ other ∈ item :: rest, other.owner = owner := forall_mem_cons.mpr ⟨same, there⟩
    have passed (item : RangeLockItem ω) (same : item.owner = owner) :
        ∀ other ∈ item :: release lock rest, other.owner = owner :=
      forall_mem_cons.mpr ⟨same, ih there⟩
    rw [release]
    split
    · exact passed existing here
    split
    · split
      · exact forall_mem_cons.mpr ⟨here, kept _ here⟩
      · exact kept _ here
    split
    · exact passed _ here
    · exact ih there

theorem release_sorted
    (owned : ∀ item ∈ group, item.owner = lock.owner) (sorted : group.Pairwise Before) :
    (release lock group).Pairwise Before := by
  induction group with
  | nil => exact List.Pairwise.nil
  | cons existing rest ih =>
    have whole := sorted
    rw [forall_mem_cons] at owned
    rw [pairwise_cons] at sorted
    obtain ⟨after, sorted⟩ := sorted
    have passed (item : RangeLockItem ω) (others : ∀ other ∈ rest, Before item other) :
        (item :: release lock rest).Pairwise Before := by
      refine pairwise_cons.mpr ⟨before_of_lockedAt fun offset type locked => ?_, ih owned.2 sorted⟩
      exact ((release_lockedAt owned.2 sorted offset type).mp locked).1.behind others
    have lockValid := lock.range.valid
    rw [release]
    split
    · exact passed existing after
    rename_i overlaps
    simp only [owned.1, ne_eq, not_true_eq_false, false_or, FileRange.Overlaps, not_not] at overlaps
    split
    · rename_i right
      split
      · rename_i left
        have first : Before (existing.below lock.range.start left) (existing.above lock.range.stop right) :=
          ⟨Nat.le_of_lt lockValid, fun _ => lockValid⟩
        exact pairwise_cons.mpr ⟨before_cons first (pairwise_above whole), pairwise_above whole⟩
      · exact pairwise_above whole
    split
    · rename_i left
      exact passed _ (before_below (by omega) after)
    · exact ih owned.2 sorted

end Kei.Vfs
