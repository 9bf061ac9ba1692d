import Kei.Sync.LockWord
import Mathlib.Algebra.BigOperators.Fin
import Mathlib.Algebra.Order.BigOperators.Group.Finset

/-! The reader-writer locks `RwLock` and `RwMutex`. Both keep their state in one word and change
it by the same atomic operations; only `RwMutex` has `downgrade`. A blocking call repeats its
`try_` variant, so the calls of a thread are sequences of the steps below. -/

namespace Kei.Sync

inductive Kind
  | rwLock
  | rwMutex
  deriving DecidableEq, Repr

inductive Attempt
  | none
  /-- `try_read` has failed and takes its increment back. -/
  | undoRead
  /-- `try_upread` has met a writer and takes its bit back. -/
  | undoUpread
  /-- `upgrade` has announced itself and waits for the readers. -/
  | upgrading
  /-- `try_upgrade` has exchanged the word and drops the upgradeable guard. -/
  | upgraded
  /-- `try_downgrade` has exchanged the word and drops the write guard. -/
  | downgraded
  deriving DecidableEq, Repr

structure Thread where
  reads : Nat
  upreads : Nat
  writes : Nat
  attempt : Attempt
  deriving DecidableEq

/-- The steps of a thread: each is one atomic access to the word. -/
inductive Access
  | tryRead
  | undoRead
  | tryWrite
  | tryUpread
  | undoUpread
  | upgrade
  | tryUpgrade
  | finishUpgrade
  | tryDowngrade
  | finishDowngrade
  | dropRead
  | dropUpread
  | dropWrite
  deriving DecidableEq, Repr

namespace Thread

/-- `fetch_add(READER)` of `try_read`: a guard, or an increment to take back. -/
def tryRead (lock : Word) (thread : Thread) : Word × Thread :=
  if lock &&& (writer ||| beingUpgraded ||| maxReader) = 0 then
    (lock + reader, { thread with reads := thread.reads + 1 })
  else (lock + reader, { thread with attempt := .undoRead })

def tryWrite (lock : Word) (thread : Thread) : Word × Thread :=
  if lock = 0 then (writer, { thread with writes := thread.writes + 1 }) else (lock, thread)

/-- `fetch_or(UPGRADEABLE_READER)` of `try_upread`: a guard, a bit to take back, or nothing
where the bit was set before. -/
def tryUpread (lock : Word) (thread : Thread) : Word × Thread :=
  if lock &&& (writer ||| upgradeableReader) = 0 then
    (lock ||| upgradeableReader, { thread with upreads := thread.upreads + 1 })
  else if lock &&& (writer ||| upgradeableReader) = writer then
    (lock ||| upgradeableReader, { thread with attempt := .undoUpread })
  else (lock ||| upgradeableReader, thread)

def tryUpgrade (lock : Word) (thread : Thread) : Word × Thread :=
  if lock = upgradeableReader ||| beingUpgraded then
    (writer ||| upgradeableReader, { thread with attempt := .upgraded })
  else (lock, thread)

def tryDowngrade (lock : Word) (thread : Thread) : Word × Thread :=
  if lock = writer then
    (upgradeableReader, { thread with writes := thread.writes - 1, attempt := .downgraded })
  else (lock, thread)

/-- The thread may take the step: a new call only outside another, the rest of a call only in
that call, and a guard's method only with such a guard. -/
def enabled (kind : Kind) (access : Access) (thread : Thread) : Bool :=
  match access with
  | .tryRead | .tryWrite | .tryUpread => thread.attempt = .none
  | .undoRead => thread.attempt = .undoRead
  | .undoUpread => thread.attempt = .undoUpread
  | .upgrade | .dropUpread => thread.attempt = .none && 0 < thread.upreads
  | .tryUpgrade => thread.attempt = .upgrading
  | .finishUpgrade => thread.attempt = .upgraded
  | .tryDowngrade => kind = .rwMutex && thread.attempt = .none && 0 < thread.writes
  | .finishDowngrade => thread.attempt = .downgraded
  | .dropRead => thread.attempt = .none && 0 < thread.reads
  | .dropWrite => thread.attempt = .none && 0 < thread.writes

def access (lock : Word) (thread : Thread) : Access → Word × Thread
  | .tryRead => thread.tryRead lock
  | .undoRead => (lock - reader, { thread with attempt := .none })
  | .tryWrite => thread.tryWrite lock
  | .tryUpread => thread.tryUpread lock
  | .undoUpread => (lock - upgradeableReader, { thread with attempt := .none })
  | .upgrade => (lock ||| beingUpgraded, { thread with upreads := thread.upreads - 1, attempt := .upgrading })
  | .tryUpgrade => thread.tryUpgrade lock
  | .finishUpgrade =>
    (lock - upgradeableReader, { thread with writes := thread.writes + 1, attempt := .none })
  | .tryDowngrade => thread.tryDowngrade lock
  | .finishDowngrade => (lock &&& ~~~writer, { thread with upreads := thread.upreads + 1, attempt := .none })
  | .dropRead => (lock - reader, { thread with reads := thread.reads - 1 })
  | .dropUpread => (lock - upgradeableReader, { thread with upreads := thread.upreads - 1 })
  | .dropWrite => (lock &&& ~~~writer, { thread with writes := thread.writes - 1 })

end Thread

structure State (ι : Type) where
  lock : Word
  thread : ι → Thread

namespace State

variable {ι : Type} [DecidableEq ι]

def new : State ι := ⟨0, fun _ => ⟨0, 0, 0, .none⟩⟩

def put (state : State ι) (index : ι) (outcome : Word × Thread) : State ι :=
  ⟨outcome.1, Function.update state.thread index outcome.2⟩

def step (kind : Kind) (state : State ι) (event : ι × Access) : Option (State ι) :=
  let thread := state.thread event.1
  if thread.enabled kind event.2 then some (state.put event.1 (thread.access state.lock event.2)) else none

def run (kind : Kind) (events : List (ι × Access)) : Option (State ι) := events.foldlM (step kind) new

end State

end Kei.Sync
