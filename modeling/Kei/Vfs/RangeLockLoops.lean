import Kei.Vfs.RangeLock
import Mathlib.Data.List.InsertIdx

/-! The two loops of the lock list without their indices. A new lock moves to the right past
the locks of its owner (`settle`); a range is cut out of the locks of its owner (`release`).
Neither loop ever meets an index or a range that is not valid. -/

namespace Kei.Vfs

open Library Checked RangeLockItem RangeLockList List

variable {ω : Type}

namespace FileRange

def joined (self other : FileRange) : FileRange :=
  ⟨min self.start other.start, max self.stop other.stop, self.hull_valid other⟩

def Overlaps (self other : FileRange) : Prop := self.start < other.stop ∧ other.start < self.stop

instance (self other : FileRange) : Decidable (self.Overlaps other) :=
  inferInstanceAs (Decidable (_ ∧ _))

theorem overlapWith_eq_none_iff (self other : FileRange) :
    self.overlapWith other = none ↔ ¬self.Overlaps other := by
  unfold overlapWith Overlaps
  split
  · simp only [true_iff]
    omega
  · repeat' split
    all_goals
      simp only [reduceCtorEq, false_iff, not_not]
      omega

theorem overlapWith_eq_some {self other : FileRange} (overlaps : self.Overlaps other) :
    self.overlapWith other = some (
      if self.stop < other.stop then if other.start < self.start then .inMiddle else .toLeft
      else if other.start < self.start then .toRight else .includes) := by
  obtain ⟨start, stop⟩ := overlaps
  unfold overlapWith
  rw [if_neg (by omega)]
  split_ifs <;> first | rfl | omega

end FileRange

namespace RangeLockItem

def below (item : RangeLockItem ω) (newEnd : Nat) (valid : item.range.start < newEnd) : RangeLockItem ω :=
  { item with range := ⟨item.range.start, newEnd, valid⟩ }

def above (item : RangeLockItem ω) (newStart : Nat) (valid : newStart < item.range.stop) : RangeLockItem ω :=
  { item with range := ⟨newStart, item.range.stop, valid⟩ }

end RangeLockItem

namespace QueuedLock

def joined (self other : QueuedLock ω) : QueuedLock ω :=
  { self with lock := { self.lock with range := self.lock.range.joined other.lock.range } }

def below (item : QueuedLock ω) (newEnd : Nat) (valid : item.lock.range.start < newEnd) : QueuedLock ω :=
  { item with lock := item.lock.below newEnd valid }

def above (item : QueuedLock ω) (newStart : Nat) (valid : newStart < item.lock.range.stop) : QueuedLock ω :=
  { item with lock := item.lock.above newStart valid }

variable {item : QueuedLock ω}

theorem setStart_shrinks {newStart : Nat} (valid : newStart < item.lock.range.stop)
    (inward : item.lock.range.start < newStart) :
    item.setStart newStart = .ok (item.above newStart valid, [item.waitqueue]) := by
  rw [setStart, RangeLockItem.setStart, FileRange.setStart, dif_pos valid, FileRange.startChange, if_pos inward]
  rfl

theorem setEnd_shrinks {newEnd : Nat} (valid : item.lock.range.start < newEnd)
    (inward : newEnd < item.lock.range.stop) :
    item.setEnd newEnd = .ok (item.below newEnd valid, [item.waitqueue]) := by
  rw [setEnd, RangeLockItem.setEnd, FileRange.setEnd, dif_pos valid, FileRange.endChange, if_pos inward]
  rfl

theorem mergeWith_touching {item other : QueuedLock ω}
    (touching : ¬(item.lock.range.stop < other.lock.range.start ∨ other.lock.range.stop < item.lock.range.start)) :
    item.mergeWith other = .ok (item.joined other) := by
  rw [mergeWith, RangeLockItem.mergeWith, FileRange.merge, if_neg touching]
  rfl

end QueuedLock

section Lists

variable {α : Type} (left : List α) (first second : α) (rest : List α)

theorem index_left : index (left ++ first :: rest) left.length = .ok first :=
  index_getElem? (by simp)

theorem index_next : index (left ++ first :: second :: rest) (left.length + 1) = .ok second :=
  index_getElem? (by simp)

theorem set_next (value : α) :
    (left ++ first :: second :: rest).set (left.length + 1) value = left ++ first :: value :: rest := by
  simp

theorem swap_ok : swap (left ++ first :: second :: rest) left.length (left.length + 1) =
      .ok (left ++ second :: first :: rest) := by
  simp [swap, index_left, index_next, bind_ok, store]

theorem eraseIdx_left : (left ++ first :: rest).eraseIdx left.length = left ++ rest := by
  simp [eraseIdx_append]

theorem eraseIdx_next :
    (left ++ first :: second :: rest).eraseIdx (left.length + 1) = left ++ first :: rest := by
  rw [eraseIdx_append_of_length_le (by omega), Nat.add_sub_cancel_left]
  rfl

theorem insertIdx_left (value : α) : (left ++ rest).insertIdx left.length value = left ++ value :: rest := by
  induction left with
  | nil => cases rest <;> simp
  | cons head left ih => simp [ih]

theorem findIdx?_split {p : α → Bool} {list : List α} {found : Nat} (position : list.findIdx? p = some found) :
    ∃ before item rest, list = before ++ item :: rest ∧ found = before.length ∧ p item ∧
      ∀ other ∈ before, ¬p other := by
  obtain ⟨bound, here, earlier⟩ := findIdx?_eq_some_iff_getElem.mp position
  refine ⟨list.take found, list[found], list.drop (found + 1), by simp, by simp; omega, here, ?_⟩
  intro other member
  obtain ⟨index, inside, rfl⟩ := mem_iff_getElem.mp member
  rw [length_take] at inside
  rw [getElem_take]
  exact earlier index (by omega)

end Lists

variable [DecidableEq ω]

def settle (lock : RangeLockItem ω) : RangeLockList ω → RangeLockList ω
  | [] => [lock]
  | next :: rest =>
    if next.owner ≠ lock.owner then lock :: next :: rest
    else if next.type = lock.type then
      if lock.range.stop < next.range.start then lock :: next :: rest
      else if next.range.stop < lock.range.start then next :: settle lock rest
      else settle { next with range := next.range.joined lock.range } rest
    else if lock.range.stop ≤ next.range.start then lock :: next :: rest
    else if next.range.stop ≤ lock.range.start then next :: settle lock rest
    else if right : lock.range.stop < next.range.stop then
      if left : next.range.start < lock.range.start then
        next.below lock.range.start left :: lock :: next.above lock.range.stop right :: rest
      else lock :: next.above lock.range.stop right :: rest
    else if left : next.range.start < lock.range.start then
      next.below lock.range.start left :: settle lock rest
    else settle lock rest

def release (lock : RangeLockItem ω) : RangeLockList ω → RangeLockList ω
  | [] => []
  | existing :: rest =>
    if existing.owner ≠ lock.owner ∨ ¬lock.range.Overlaps existing.range then existing :: release lock rest
    else if right : lock.range.stop < existing.range.stop then
      if left : existing.range.start < lock.range.start then
        existing.below lock.range.start left :: existing.above lock.range.stop right :: rest
      else existing.above lock.range.stop right :: rest
    else if left : existing.range.start < lock.range.start then
      existing.below lock.range.start left :: release lock rest
    else release lock rest

variable {lock : RangeLockItem ω}

theorem release_left {before rest : RangeLockList ω}
    (absent : ∀ existing ∈ before, existing.owner ≠ lock.owner) :
    release lock (before ++ rest) = before ++ release lock rest := by
  induction before with
  | nil => rfl
  | cons head before ih =>
    rw [forall_mem_cons] at absent
    rw [cons_append, release, if_pos (.inl absent.1), ih absent.2, cons_append]

theorem release_none {list : RangeLockList ω} (absent : ∀ existing ∈ list, existing.owner ≠ lock.owner) :
    release lock list = list := by
  simpa [release] using @release_left _ _ _ _ [] absent

/-! ### With the queues -/

namespace QueuedList

open QueuedLock

def settle (lock : QueuedLock ω) : List (QueuedLock ω) → List (QueuedLock ω) × List Nat
  | [] => ([lock], [])
  | next :: rest =>
    if next.lock.owner ≠ lock.lock.owner then (lock :: next :: rest, [])
    else if next.lock.type = lock.lock.type then
      if lock.lock.range.stop < next.lock.range.start then (lock :: next :: rest, [])
      else if next.lock.range.stop < lock.lock.range.start then
        (next :: (settle lock rest).1, (settle lock rest).2)
      else ((settle (next.joined lock) rest).1, lock.waitqueue :: (settle (next.joined lock) rest).2)
    else if lock.lock.range.stop ≤ next.lock.range.start then (lock :: next :: rest, [])
    else if next.lock.range.stop ≤ lock.lock.range.start then
      (next :: (settle lock rest).1, (settle lock rest).2)
    else if right : lock.lock.range.stop < next.lock.range.stop then
      if left : next.lock.range.start < lock.lock.range.start then
        (next.below lock.lock.range.start left :: lock :: next.above lock.lock.range.stop right :: rest,
          [next.waitqueue, next.waitqueue])
      else (lock :: next.above lock.lock.range.stop right :: rest, [next.waitqueue])
    else if left : next.lock.range.start < lock.lock.range.start then
      (next.below lock.lock.range.start left :: (settle lock rest).1, next.waitqueue :: (settle lock rest).2)
    else ((settle lock rest).1, next.waitqueue :: (settle lock rest).2)

theorem adjust_eq (turns : Nat) (left : List (QueuedLock ω)) (lock : QueuedLock ω)
    (right : List (QueuedLock ω)) (woken : List Nat) (enough : right.length < turns) :
    adjust turns (left ++ lock :: right) woken left.length (left.length + 1) =
      .ok (left ++ (settle lock right).1, woken ++ (settle lock right).2) := by
  induction turns generalizing left lock right woken with
  | zero => omega
  | succ turns ih =>
    cases right with
    | nil => simp [adjust, settle]
    | cons next rest =>
      rw [length_cons] at enough
      have inside : ¬left.length + 1 ≥ (left ++ lock :: next :: rest).length := by
        simp only [length_append, length_cons]
        omega
      have passed (item : QueuedLock ω) (woke : List Nat) :
          adjust turns (left ++ item :: lock :: rest) (woken ++ woke) (left.length + 1) (left.length + 1 + 1) =
            .ok (left ++ item :: (settle lock rest).1, woken ++ (woke ++ (settle lock rest).2)) := by
        have moved := ih (left ++ [item]) lock rest (woken ++ woke) (by omega)
        simpa only [append_assoc, singleton_append, length_append, length_singleton,
          cons_append, nil_append] using moved
      have passed' := passed next []
      rw [append_nil, nil_append] at passed'
      rw [adjust, if_neg inside, index_left, bind_ok, index_next, bind_ok, settle]
      split
      · simp
      split
      · split
        · simp
        split
        · rw [swap_ok, bind_ok, passed']
        · rename_i apart apart'
          rw [mergeWith_touching (by omega), bind_ok, set_next, eraseIdx_left,
            ih left _ rest _ (by omega), append_assoc]
          rfl
      split
      · simp
      split
      · rw [swap_ok, bind_ok, passed']
      rename_i before behind
      have found := FileRange.overlapWith_eq_some
        (show lock.lock.range.Overlaps next.lock.range from ⟨by omega, by omega⟩)
      simp only [found, unwrap, bind_ok]
      split_ifs with right start start
      · have inserted := insertIdx_left (left ++ [next.below lock.lock.range.start start, lock]) rest
          (next.above lock.lock.range.stop right)
        simpa [setStart_shrinks right (by omega), setEnd_shrinks start (by omega), bind_ok, swap_ok, pure_eq_ok]
          using inserted
      · simp only [setStart_shrinks right (by omega), bind_ok, set_next, pure_eq_ok]
      · simp only [setEnd_shrinks start (by omega), bind_ok, set_next, swap_ok, passed]
        rfl
      · rw [eraseIdx_next, ih left lock rest _ (by omega), append_assoc]
        rfl

def release (lock : RangeLockItem ω) : List (QueuedLock ω) → List (QueuedLock ω) × List Nat
  | [] => ([], [])
  | existing :: rest =>
    if existing.lock.owner ≠ lock.owner ∨ ¬lock.range.Overlaps existing.lock.range then
      (existing :: (release lock rest).1, (release lock rest).2)
    else if right : lock.range.stop < existing.lock.range.stop then
      if left : existing.lock.range.start < lock.range.start then
        (existing.below lock.range.start left :: existing.above lock.range.stop right :: rest,
          [existing.waitqueue, existing.waitqueue])
      else (existing.above lock.range.stop right :: rest, [existing.waitqueue])
    else if left : existing.lock.range.start < lock.range.start then
      (existing.below lock.range.start left :: (release lock rest).1, existing.waitqueue :: (release lock rest).2)
    else ((release lock rest).1, existing.waitqueue :: (release lock rest).2)

theorem release_left {before rest : List (QueuedLock ω)}
    (absent : ∀ existing ∈ before, existing.lock.owner ≠ lock.owner) :
    release lock (before ++ rest) = (before ++ (release lock rest).1, (release lock rest).2) := by
  induction before with
  | nil => rfl
  | cons head before ih =>
    rw [forall_mem_cons] at absent
    rw [cons_append, release, if_pos (.inl absent.1), ih absent.2, cons_append]

theorem unlockLoop_eq (lock : RangeLockItem ω) (turns : Nat) (left right : List (QueuedLock ω))
    (woken : List Nat) (enough : right.length < turns) :
    unlockLoop lock turns (left ++ right) woken left.length =
      .ok (left ++ (release lock right).1, woken ++ (release lock right).2) := by
  induction turns generalizing left right woken with
  | zero => omega
  | succ turns ih =>
    rw [unlockLoop, drop_left]
    cases position : right.findIdx? fun existing => existing.lock.owner = lock.owner with
    | none =>
      rw [List.findIdx?_eq_none_iff] at position
      have released := @release_left _ _ lock right [] (by simpa using position)
      rw [append_nil] at released
      simp [released, release]
    | some found =>
      obtain ⟨before, existing, rest, rfl, rfl, owner, absent⟩ := findIdx?_split position
      rw [decide_eq_true_eq] at owner
      simp only [length_append, length_cons] at enough
      have next (item : QueuedLock ω) (woke : List Nat) : unlockLoop lock turns
          (left ++ before ++ item :: rest) (woken ++ woke) ((left ++ before).length + 1) =
            .ok (left ++ before ++ item :: (release lock rest).1,
              woken ++ (woke ++ (release lock rest).2)) := by
        have moved := ih (left ++ before ++ [item]) rest (woken ++ woke) (by omega)
        simpa only [append_assoc, singleton_append, length_append, length_singleton,
          cons_append, nil_append, Nat.add_assoc] using moved
      simp only [Nat.add_comm before.length, ← length_append, ← append_assoc]
      rw [release_left (by simpa using absent), ← append_assoc, index_left, bind_ok, release]
      by_cases overlaps : lock.range.Overlaps existing.lock.range
      · have owned : ¬(existing.lock.owner ≠ lock.owner ∨ ¬lock.range.Overlaps existing.lock.range) := by
          simp [owner, overlaps]
        obtain ⟨starts, stops⟩ := overlaps
        rw [if_neg owned]
        have found := FileRange.overlapWith_eq_some ⟨starts, stops⟩
        simp only [found]
        split_ifs with right start start
        · have inserted := insertIdx_left (left ++ before ++ [existing.below lock.range.start start]) rest
            (existing.above lock.range.stop right)
          simpa [setStart_shrinks right (by omega), setEnd_shrinks start (by omega), bind_ok, pure_eq_ok,
            Nat.add_assoc] using inserted
        · simp [setStart_shrinks right (by omega), bind_ok, pure_eq_ok]
        · simpa [setEnd_shrinks start (by omega), bind_ok] using next _ [existing.waitqueue]
        · rw [eraseIdx_left]
          simpa using ih (left ++ before) rest (woken ++ [existing.waitqueue]) (by omega)
      · have found := (FileRange.overlapWith_eq_none_iff _ _).mpr overlaps
        simp only [found, overlaps, not_false_eq_true, or_true, if_true]
        simpa using next existing []

theorem unlock_eq (list : List (QueuedLock ω)) (lock : RangeLockItem ω) :
    unlock list lock = .ok (release lock list) :=
  unlockLoop_eq lock (list.length + 1) [] list [] (Nat.lt_succ_self _)

theorem insertLockIntoList_eq (list : List (QueuedLock ω)) (lock : QueuedLock ω) :
    insertLockIntoList list lock =
      .ok (match list.findIdx? fun existing => existing.lock.owner = lock.lock.owner with
        | none => (list ++ [lock], [])
        | some first => (list.take first ++ (settle lock (list.drop first)).1, (settle lock (list.drop first)).2)) := by
  rw [insertLockIntoList]
  cases position : list.findIdx? fun existing => existing.lock.owner = lock.lock.owner with
  | none => rfl
  | some first =>
    obtain ⟨before, item, rest, rfl, rfl, -⟩ := findIdx?_split position
    simp only [insertIdx_left, take_left, drop_left]
    exact adjust_eq _ before lock _ [] (by simp only [length_append]; omega)

/-! Without their queues the lists are those of `RangeLockList`. -/

theorem settle_locks (lock : QueuedLock ω) (list : List (QueuedLock ω)) :
    (settle lock list).1.map QueuedLock.lock = Vfs.settle lock.lock (list.map QueuedLock.lock) := by
  induction list generalizing lock with
  | nil => rfl
  | cons next rest ih =>
    rw [map_cons, settle, Vfs.settle]
    split_ifs <;> simp only [map_cons, ih] <;> rfl

theorem release_locks (lock : RangeLockItem ω) (list : List (QueuedLock ω)) :
    (release lock list).1.map QueuedLock.lock = Vfs.release lock (list.map QueuedLock.lock) := by
  induction list with
  | nil => rfl
  | cons existing rest ih =>
    rw [map_cons, release, Vfs.release]
    split_ifs <;> simp only [map_cons, ih] <;> rfl

end QueuedList

theorem map_lock (list : RangeLockList ω) : (list.map (QueuedLock.mk · 0)).map QueuedLock.lock = list := by
  rw [map_map]
  exact map_id list

theorem insertLockIntoList_eq (list : RangeLockList ω) (lock : RangeLockItem ω) :
    insertLockIntoList list lock = .ok (match list.findIdx? fun existing => existing.owner = lock.owner with
      | none => list ++ [lock]
      | some first => list.take first ++ settle lock (list.drop first)) := by
  rw [insertLockIntoList, QueuedList.insertLockIntoList_eq, bind_ok, pure_eq_ok, findIdx?_map]
  dsimp only [Function.comp_def]
  cases list.findIdx? fun existing => existing.owner = lock.owner with
  | none => simp only [map_append, map_lock, map_cons, map_nil]
  | some first => simp only [map_append, map_take, QueuedList.settle_locks, map_drop, map_lock]

theorem unlock_eq (list : RangeLockList ω) (lock : RangeLockItem ω) :
    unlock list lock = .ok (release lock list) := by
  rw [unlock, QueuedList.unlock_eq, bind_ok, QueuedList.release_locks, map_lock]
  rfl

end Kei.Vfs
