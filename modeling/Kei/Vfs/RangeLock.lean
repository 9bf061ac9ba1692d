import Kei.Library.Stream

/-! POSIX record locks of a file (`fs/vfs/range_lock`): one list with the locks of all
owners, in which the locks of an owner follow one another. A clone of an item shares its wait queue;
an item wakes its queue when its range shrinks and when it is dropped. The operations report the
queues they wake, in order, since nothing in them depends on who is waiting. -/

namespace Kei.Vfs

open Library Checked

inductive RangeLockType
  | readLock
  | writeLock
  | unlock
  deriving DecidableEq, Repr

/-- The range `[start, stop)`; `FileRange::new` refuses empty ranges. -/
structure FileRange where
  start : Nat
  stop : Nat
  valid : start < stop
  deriving DecidableEq, Repr

inductive OverlapWith
  | toLeft
  | toRight
  | inMiddle
  | includes
  deriving DecidableEq, Repr

inductive FileRangeChange
  | same
  | expanded
  | shrunk
  deriving DecidableEq, Repr

namespace FileRange

def startChange (range : FileRange) (newStart : Nat) : FileRangeChange :=
  if newStart > range.start then .shrunk
  else if newStart < range.start then .expanded
  else .same

def endChange (range : FileRange) (newEnd : Nat) : FileRangeChange :=
  if newEnd < range.stop then .shrunk
  else if newEnd > range.stop then .expanded
  else .same

def setStart (range : FileRange) (newStart : Nat) : Option FileRange :=
  if valid : newStart < range.stop then some ⟨newStart, range.stop, valid⟩ else none

def setEnd (range : FileRange) (newEnd : Nat) : Option FileRange :=
  if valid : range.start < newEnd then some ⟨range.start, newEnd, valid⟩ else none

def overlapWith (self other : FileRange) : Option OverlapWith :=
  if self.start ≥ other.stop ∨ self.stop ≤ other.start then none
  else if self.start ≤ other.start ∧ self.stop < other.stop then some .toLeft
  else if self.start > other.start ∧ self.stop < other.stop then some .inMiddle
  else if self.start > other.start ∧ self.stop ≥ other.stop then some .toRight
  else some .includes

theorem hull_valid (self other : FileRange) : min self.start other.start < max self.stop other.stop := by
  have valid := self.valid
  omega

def merge (self other : FileRange) : Option FileRange :=
  if self.stop < other.start ∨ other.stop < self.start then none
  else some ⟨min self.start other.start, max self.stop other.stop, self.hull_valid other⟩

end FileRange

structure RangeLockItem (ω : Type) where
  owner : ω
  type : RangeLockType
  range : FileRange
  deriving DecidableEq

structure QueuedLock (ω : Type) where
  lock : RangeLockItem ω
  waitqueue : Nat
  deriving DecidableEq

variable {ω : Type} [DecidableEq ω]

namespace RangeLockItem

def conflictWith (self other : RangeLockItem ω) : Bool :=
  if self.owner = other.owner then false
  else if self.range.overlapWith other.range = none then false
  else self.type = .writeLock || other.type = .writeLock

def mergeWith (self other : RangeLockItem ω) : Checked (RangeLockItem ω) := do
  return { self with range := ← unwrap (self.range.merge other.range) }

def setStart (self : RangeLockItem ω) (newStart : Nat) : Checked (RangeLockItem ω) := do
  return { self with range := ← unwrap (self.range.setStart newStart) }

def setEnd (self : RangeLockItem ω) (newEnd : Nat) : Checked (RangeLockItem ω) := do
  return { self with range := ← unwrap (self.range.setEnd newEnd) }

end RangeLockItem

namespace QueuedLock

def wakes (item : QueuedLock ω) : FileRangeChange → List Nat
  | .shrunk => [item.waitqueue]
  | .same | .expanded => []

def mergeWith (self other : QueuedLock ω) : Checked (QueuedLock ω) := do
  return { self with lock := ← self.lock.mergeWith other.lock }

def setStart (self : QueuedLock ω) (newStart : Nat) : Checked (QueuedLock ω × List Nat) := do
  return ({ self with lock := ← self.lock.setStart newStart }, self.wakes (self.lock.range.startChange newStart))

def setEnd (self : QueuedLock ω) (newEnd : Nat) : Checked (QueuedLock ω × List Nat) := do
  return ({ self with lock := ← self.lock.setEnd newEnd }, self.wakes (self.lock.range.endChange newEnd))

end QueuedLock

/-- The list without the queues, which no operation reads. -/
abbrev RangeLockList (ω : Type) := List (RangeLockItem ω)

def swap {α : Type} (list : List α) (left right : Nat) : Checked (List α) := do
  let first ← index list left
  let second ← index list right
  store (← store list left second) right first

namespace QueuedList

/-- The loop of `insert_lock_into_list`; every turn passes or drops a lock, so as many turns
as there are locks are enough. -/
def adjust : Nat → List (QueuedLock ω) → List Nat → Nat → Nat → Checked (List (QueuedLock ω) × List Nat)
  | 0, _, _, _, _ => .error .hang
  | turns + 1, list, woken, preIdx, nextIdx =>
    if nextIdx ≥ list.length then .ok (list, woken)
    else do
      let preLock ← index list preIdx
      let nextLock ← index list nextIdx
      if nextLock.lock.owner ≠ preLock.lock.owner then .ok (list, woken)
      else if nextLock.lock.type = preLock.lock.type then
        if preLock.lock.range.stop < nextLock.lock.range.start then .ok (list, woken)
        else if nextLock.lock.range.stop < preLock.lock.range.start then do
          adjust turns (← swap list preIdx nextIdx) woken (preIdx + 1) (nextIdx + 1)
        else do
          let merged ← nextLock.mergeWith preLock
          adjust turns ((list.set nextIdx merged).eraseIdx preIdx) (woken ++ [preLock.waitqueue]) preIdx nextIdx
      else if preLock.lock.range.stop ≤ nextLock.lock.range.start then .ok (list, woken)
      else if nextLock.lock.range.stop ≤ preLock.lock.range.start then do
        adjust turns (← swap list preIdx nextIdx) woken (preIdx + 1) (nextIdx + 1)
      else do
        match ← unwrap (preLock.lock.range.overlapWith nextLock.lock.range) with
        | .toLeft =>
          let (shrunk, woke) ← nextLock.setStart preLock.lock.range.stop
          return (list.set nextIdx shrunk, woken ++ woke)
        | .inMiddle =>
          let (rightLk, first) ← nextLock.setStart preLock.lock.range.stop
          let (shrunk, second) ← nextLock.setEnd preLock.lock.range.start
          let list ← swap (list.set nextIdx shrunk) preIdx nextIdx
          return (list.insertIdx (nextIdx + 1) rightLk, woken ++ (first ++ second))
        | .toRight =>
          let (shrunk, woke) ← nextLock.setEnd preLock.lock.range.start
          let list ← swap (list.set nextIdx shrunk) preIdx nextIdx
          adjust turns list (woken ++ woke) (preIdx + 1) (nextIdx + 1)
        | .includes => adjust turns (list.eraseIdx nextIdx) (woken ++ [nextLock.waitqueue]) preIdx nextIdx

def insertLockIntoList (list : List (QueuedLock ω)) (lock : QueuedLock ω) :
    Checked (List (QueuedLock ω) × List Nat) :=
  match list.findIdx? fun existing => existing.lock.owner = lock.lock.owner with
  | none => .ok (list ++ [lock], [])
  | some first => adjust (list.length + 1) (list.insertIdx first lock) [] first (first + 1)

def unlockLoop (lock : RangeLockItem ω) : Nat → List (QueuedLock ω) → List Nat → Nat →
    Checked (List (QueuedLock ω) × List Nat)
  | 0, _, _, _ => .error .hang
  | turns + 1, list, woken, skipped =>
    match (list.drop skipped).findIdx? fun existing => existing.lock.owner = lock.owner with
    | none => .ok (list, woken)
    | some found => do
      let idx := found + skipped
      let existing ← index list idx
      match lock.range.overlapWith existing.lock.range with
      | none => unlockLoop lock turns list woken (idx + 1)
      | some .toLeft =>
        let (shrunk, woke) ← existing.setStart lock.range.stop
        return (list.set idx shrunk, woken ++ woke)
      | some .inMiddle =>
        let (rightLk, first) ← existing.setStart lock.range.stop
        let (shrunk, second) ← existing.setEnd lock.range.start
        return ((list.set idx shrunk).insertIdx (idx + 1) rightLk, woken ++ (first ++ second))
      | some .toRight =>
        let (shrunk, woke) ← existing.setEnd lock.range.start
        unlockLoop lock turns (list.set idx shrunk) (woken ++ woke) (idx + 1)
      | some .includes => unlockLoop lock turns (list.eraseIdx idx) (woken ++ [existing.waitqueue]) idx

def unlock (list : List (QueuedLock ω)) (lock : RangeLockItem ω) : Checked (List (QueuedLock ω) × List Nat) :=
  unlockLoop lock (list.length + 1) list [] 0

end QueuedList

namespace RangeLockList

variable (list : RangeLockList ω) (lock : RangeLockItem ω)

/-- `test_lock`: the first conflicting lock, or none, which is reported as `Unlock`. -/
def testLock : RangeLockItem ω :=
  match list.find? lock.conflictWith with
  | some existing => existing
  | none => { lock with type := .unlock }

def insertLockIntoList : Checked (RangeLockList ω) := do
  return (← QueuedList.insertLockIntoList (list.map (⟨·, 0⟩)) ⟨lock, 0⟩).1.map (·.lock)

inductive Errno
  | eagain
  deriving DecidableEq, Repr

def trySetLock : Checked (Except Errno Unit × RangeLockList ω) := do
  if (list.find? lock.conflictWith).isSome then
    return (.error .eagain, list)
  return (.ok (), ← insertLockIntoList list lock)

def unlock : Checked (RangeLockList ω) := do
  return (← QueuedList.unlock (list.map (⟨·, 0⟩)) lock).1.map (·.lock)

/-- `InodeHandle::set_range_lock`, the caller of both: a request of type `Unlock` unlocks. -/
def setRangeLock : Checked (Except Errno Unit × RangeLockList ω) := do
  if lock.type = .unlock then
    return (.ok (), ← unlock list lock)
  trySetLock list lock

end RangeLockList

end Kei.Vfs
