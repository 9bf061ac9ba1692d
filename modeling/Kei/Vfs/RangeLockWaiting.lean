import Kei.Library.WaitQueues
import Kei.Vfs.RangeLockSpec

/-! Callers of `set_lock` that wait for a lock. A step is one operation on the list under its
lock, or one operation on a waker; the steps of all callers interleave in any order. A caller is
named by its waker. -/

namespace Kei.Vfs

open Library Checked
open List hiding set

variable {ω : Type}

structure QueuedLock.Covers (item old : QueuedLock ω) : Prop where
  queue : item.waitqueue = old.waitqueue
  owner : item.lock.owner = old.lock.owner
  type : item.lock.type = old.lock.type
  start : item.lock.range.start ≤ old.lock.range.start
  stop : old.lock.range.stop ≤ item.lock.range.stop

def Kept (outcome : List (QueuedLock ω) × List Nat) (old : QueuedLock ω) : Prop :=
  old.waitqueue ∈ outcome.2 ∨ ∃ item ∈ outcome.1, item.Covers old

namespace QueuedLock

theorem Covers.refl (item : QueuedLock ω) : item.Covers item :=
  ⟨rfl, rfl, rfl, Nat.le_refl _, Nat.le_refl _⟩

theorem joined_covers (item other : QueuedLock ω) : (item.joined other).Covers item :=
  ⟨rfl, rfl, rfl, Nat.min_le_left _ _, Nat.le_max_left _ _⟩

theorem Covers.trans {first second third : QueuedLock ω} (one : first.Covers second)
    (two : second.Covers third) : first.Covers third where
  queue := one.queue.trans two.queue
  owner := one.owner.trans two.owner
  type := one.type.trans two.type
  start := Nat.le_trans one.start two.start
  stop := Nat.le_trans two.stop one.stop

theorem Covers.conflict [DecidableEq ω] {item old : QueuedLock ω} (covers : item.Covers old)
    {request : RangeLockItem ω} (conflict : request.conflictWith old.lock = true) :
    request.conflictWith item.lock = true := by
  obtain ⟨owner, ⟨starts, stops⟩, write⟩ := (conflictWith_iff request old.lock).mp conflict
  have start := covers.start
  have stop := covers.stop
  rw [conflictWith_iff, covers.owner, covers.type]
  exact ⟨owner, ⟨by omega, by omega⟩, write⟩

end QueuedLock

section Kept

variable {list : List (QueuedLock ω)} {woken : List Nat} {old : QueuedLock ω}

theorem Kept.of_mem (member : old ∈ list) : Kept (list, woken) old := .inr ⟨old, member, .refl old⟩

theorem Kept.of_woken (woke : old.waitqueue ∈ woken) : Kept (list, woken) old := .inl woke

theorem Kept.cons (kept : Kept (list, woken) old) (item : QueuedLock ω) : Kept (item :: list, woken) old :=
  kept.imp_right fun ⟨other, member, covers⟩ => ⟨other, mem_cons_of_mem _ member, covers⟩

theorem Kept.woke (kept : Kept (list, woken) old) (queue : Nat) : Kept (list, queue :: woken) old :=
  kept.imp_left (mem_cons_of_mem _)

theorem Kept.append (kept : Kept (list, woken) old) (left : List (QueuedLock ω)) :
    Kept (left ++ list, woken) old :=
  kept.imp_right fun ⟨other, member, covers⟩ => ⟨other, mem_append_right _ member, covers⟩

theorem Kept.covered {item : QueuedLock ω} (kept : Kept (list, woken) item) (covers : item.Covers old) :
    Kept (list, woken) old := by
  obtain woke | ⟨other, member, covered⟩ := kept
  · exact .inl (covers.queue ▸ woke)
  · exact .inr ⟨other, member, covered.trans covers⟩

end Kept

variable [DecidableEq ω]

namespace QueuedList

theorem settle_kept (lock : QueuedLock ω) (list : List (QueuedLock ω)) :
    ∀ old ∈ lock :: list, Kept (settle lock list) old := by
  induction list generalizing lock with
  | nil => exact fun old member => .of_mem member
  | cons next rest ih =>
    have joins := (ih (next.joined lock) _ mem_cons_self).covered (next.joined_covers lock)
    simp only [forall_mem_cons] at ih ⊢
    rw [settle]
    split_ifs <;> grind [Kept.of_mem, Kept.cons, Kept.woke, Kept.of_woken]

theorem release_kept (lock : RangeLockItem ω) (list : List (QueuedLock ω)) :
    ∀ old ∈ list, Kept (release lock list) old := by
  induction list with
  | nil => exact fun old member => absurd member not_mem_nil
  | cons existing rest ih =>
    rw [forall_mem_cons, release]
    split_ifs <;> grind [Kept.of_mem, Kept.cons, Kept.woke, Kept.of_woken]

theorem insertLockIntoList_kept (list : List (QueuedLock ω)) (lock : QueuedLock ω) :
    ∃ outcome, insertLockIntoList list lock = .ok outcome ∧ (∀ old ∈ list, Kept outcome old) ∧
      RangeLockList.insertLockIntoList (list.map QueuedLock.lock) lock.lock =
        .ok (outcome.1.map QueuedLock.lock) := by
  refine ⟨_, insertLockIntoList_eq list lock, ?_, ?_⟩
  · intro old member
    split
    · exact .of_mem (mem_append_left _ member)
    · rename_i first _
      rw [← take_append_drop first list] at member
      obtain before | behind := mem_append.mp member
      · exact .of_mem (mem_append_left _ before)
      · exact (settle_kept lock _ old (mem_cons_of_mem _ behind)).append _
  · rw [Vfs.insertLockIntoList_eq, findIdx?_map]
    dsimp only [Function.comp_def]
    split <;> simp only [map_append, map_take, map_drop, settle_locks, map_cons, map_nil]

end QueuedList

inductive Caller (ω : Type)
  | absent
  | trying (request : QueuedLock ω)
  | blocked (request : QueuedLock ω)
  | closing (request : QueuedLock ω)
  | granted
  | interrupted

structure FileLocks (ω : Type) where
  list : List (QueuedLock ω)
  queues : WaitQueues Nat Nat
  callers : Nat → Caller ω

namespace FileLocks

def new : FileLocks ω := ⟨[], .empty, fun _ => .absent⟩

def setCaller (locks : FileLocks ω) (waker : Nat) (caller : Caller ω) : FileLocks ω :=
  { locks with callers := Function.update locks.callers waker caller }

def changed (locks : FileLocks ω) (outcome : List (QueuedLock ω) × List Nat) : FileLocks ω :=
  { locks with list := outcome.1, queues := locks.queues.wakeEach outcome.2 }

def trySetLock (locks : FileLocks ω) (request : QueuedLock ω) (waker : Option Nat) :
    Checked (Bool × FileLocks ω) :=
  match locks.list.find? fun existing => request.lock.conflictWith existing.lock with
  | some conflict =>
    match waker with
    | some waker => .ok (false, { locks with queues := locks.queues.enqueue conflict.waitqueue waker })
    | none => .ok (false, locks)
  | none => do
    let outcome ← QueuedList.insertLockIntoList locks.list request
    return (true, locks.changed outcome)

def unlock (locks : FileLocks ω) (lock : RangeLockItem ω) : Checked (FileLocks ω) := do
  return locks.changed (← QueuedList.unlock locks.list lock)

inductive Event (ω : Type)
  | setLock (waker : Nat) (request : QueuedLock ω)
  | attempt (waker : Nat)
  | resume (waker : Nat)
  | interrupt (waker : Nat)
  | cancel (waker : Nat)
  | lastAttempt (waker : Nat)
  | trySetLock (request : QueuedLock ω)
  | unlock (lock : RangeLockItem ω)
  | drop (queue : Nat)

def step (locks : FileLocks ω) : Event ω → Checked (FileLocks ω)
  | .setLock waker request =>
    match locks.callers waker with
    | .absent => .ok (locks.setCaller waker (.trying request))
    | _ => .ok locks
  | .attempt waker =>
    match locks.callers waker with
    | .trying request => do
      let (set, locks) ← locks.trySetLock request (some waker)
      return locks.setCaller waker (if set then .granted else .blocked request)
    | _ => .ok locks
  -- `do_wait` returns once the waker is signalled, and takes the signal away
  | .resume waker =>
    match locks.callers waker with
    | .blocked request =>
      if locks.queues.hasWoken waker then
        .ok ({ locks with queues := locks.queues.setWoken waker false }.setCaller waker (.trying request))
      else .ok locks
    | _ => .ok locks
  | .interrupt waker => .ok { locks with queues := locks.queues.setWoken waker true }
  | .cancel waker =>
    match locks.callers waker with
    | .blocked request =>
      .ok ({ locks with queues := locks.queues.setWoken waker true }.setCaller waker (.closing request))
    | _ => .ok locks
  | .lastAttempt waker =>
    match locks.callers waker with
    | .closing request => do
      let (set, locks) ← locks.trySetLock request (some waker)
      return locks.setCaller waker (if set then .granted else .interrupted)
    | _ => .ok locks
  | .trySetLock request => do return (← locks.trySetLock request none).2
  | .unlock lock => locks.unlock lock
  -- the handle of a request, dropped outside the list
  | .drop queue => .ok { locks with queues := locks.queues.wakeAll queue }

def Blocks (list : List (QueuedLock ω)) (request : QueuedLock ω) (queue : Nat) : Prop :=
  ∃ existing ∈ list, existing.waitqueue = queue ∧ request.lock.conflictWith existing.lock = true

def NoLostWakeup (locks : FileLocks ω) : Prop :=
  ∀ waker request, locks.callers waker = .blocked request →
    locks.queues.Watches waker (Blocks locks.list request)

variable {request : QueuedLock ω}

theorem Blocks.kept {list : List (QueuedLock ω)} {outcome : List (QueuedLock ω) × List Nat}
    (kept : ∀ old ∈ list, Kept outcome old) {queue : Nat}
    (blocks : Blocks list request queue) (asleep : queue ∉ outcome.2) : Blocks outcome.1 request queue := by
  obtain ⟨existing, member, rfl, conflict⟩ := blocks
  obtain woke | ⟨item, present, covers⟩ := kept existing member
  · exact absurd woke asleep
  · exact ⟨item, present, covers.queue, covers.conflict conflict⟩

section Steps

variable {locks : FileLocks ω} (sound : locks.NoLostWakeup)

include sound

theorem NoLostWakeup.changed {outcome : List (QueuedLock ω) × List Nat}
    (kept : ∀ old ∈ locks.list, Kept outcome old) : (locks.changed outcome).NoLostWakeup := by
  intro waker request blocked
  exact (sound waker request blocked).wakeEach fun queue blocks asleep => blocks.kept kept asleep

theorem NoLostWakeup.setCaller {waker : Nat} {caller : Caller ω}
    (ready : ∀ request, caller = .blocked request → locks.queues.Watches waker (Blocks locks.list request)) :
    (locks.setCaller waker caller).NoLostWakeup := by
  intro other request blocked
  by_cases same : other = waker
  · subst same
    exact ready request (by simpa [FileLocks.setCaller] using blocked)
  · exact sound other request (by simpa [FileLocks.setCaller, same] using blocked)

theorem NoLostWakeup.trySetLock (request : QueuedLock ω) (waker : Option Nat) :
    ∃ set next, locks.trySetLock request waker = .ok (set, next) ∧ next.NoLostWakeup ∧
      (set = false → ∀ name, waker = some name → next.queues.Watches name (Blocks next.list request)) := by
  rw [FileLocks.trySetLock]
  cases found : locks.list.find? fun existing => request.lock.conflictWith existing.lock with
  | none =>
    obtain ⟨outcome, inserted, kept, _⟩ := QueuedList.insertLockIntoList_kept locks.list request
    refine ⟨true, locks.changed outcome, ?_, sound.changed kept, ?_⟩
    · simp only [inserted, bind_ok, pure_eq_ok]
    · exact fun unset => absurd unset (by decide)
  | some conflict =>
    have blocks : Blocks locks.list request conflict.waitqueue :=
      ⟨conflict, mem_of_find?_eq_some found, rfl, by simpa using find?_some found⟩
    cases waker with
    | none => exact ⟨false, locks, rfl, sound, fun _ name named => absurd named (by simp)⟩
    | some waker =>
      refine ⟨false, _, rfl, ?_, ?_⟩
      · exact fun other request blocked => (sound other request blocked).enqueue _ waker
      · rintro _ name ⟨rfl⟩
        exact WaitQueues.watches_enqueue blocks

theorem NoLostWakeup.signal (waker : Nat) :
    FileLocks.NoLostWakeup { locks with queues := locks.queues.setWoken waker true } :=
  fun other request blocked => (sound other request blocked).setWoken fun _ => rfl

theorem NoLostWakeup.attempts (request : QueuedLock ω) (waker : Nat) {refused : Caller ω}
    (waits : refused = .blocked request ∨ refused = .interrupted) :
    Returns (do
      let (set, locks) ← locks.trySetLock request (some waker)
      return locks.setCaller waker (if set then .granted else refused)) FileLocks.NoLostWakeup := by
  obtain ⟨set, next, tried, sound', watches⟩ := sound.trySetLock request (some waker)
  rw [tried]
  refine sound'.setCaller ?_
  intro other entered
  cases set with
  | true => simp at entered
  | false =>
    obtain rfl | rfl := waits
    · obtain rfl : request = other := by simpa using entered
      exact watches rfl waker rfl
    · simp at entered

theorem NoLostWakeup.step (event : Event ω) : Returns (locks.step event) FileLocks.NoLostWakeup := by
  cases event with
  | setLock waker request =>
    rw [FileLocks.step]
    split
    · exact sound.setCaller fun request entered => by simp at entered
    · exact sound
  | attempt waker =>
    rw [FileLocks.step]
    split
    · exact sound.attempts _ waker (.inl rfl)
    · exact sound
  | resume waker =>
    rw [FileLocks.step]
    split
    · split
      · intro other request blocked
        by_cases same : other = waker
        · simp [FileLocks.setCaller, same] at blocked
        · have waits := sound other request (by simpa [FileLocks.setCaller, same] using blocked)
          exact waits.setWoken fun equal => absurd equal same
      · exact sound
    · exact sound
  | interrupt waker => exact sound.signal waker
  | cancel waker =>
    rw [FileLocks.step]
    split
    · exact (sound.signal waker).setCaller fun request entered => by simp at entered
    · exact sound
  | lastAttempt waker =>
    rw [FileLocks.step]
    split
    · exact sound.attempts _ waker (.inr rfl)
    · exact sound
  | trySetLock request =>
    obtain ⟨set, next, tried, sound', _⟩ := sound.trySetLock request none
    rw [FileLocks.step, tried]
    exact sound'
  | unlock lock =>
    rw [FileLocks.step, FileLocks.unlock, QueuedList.unlock_eq]
    exact sound.changed (QueuedList.release_kept lock locks.list)
  | drop queue =>
    intro waker request blocked asleep
    obtain ⟨other, ⟨blocks, _⟩, member⟩ := (sound waker request blocked).wakeAll queue asleep
    exact ⟨other, blocks, member⟩

end Steps

theorem new_noLostWakeup : (new : FileLocks ω).NoLostWakeup := by
  intro waker request blocked
  simp [new] at blocked

theorem resume_attempt {locks : FileLocks ω} {waker : Nat}
    (blocked : locks.callers waker = .blocked request) (woken : locks.queues.hasWoken waker = true)
    (free : ∀ existing ∈ locks.list, request.lock.conflictWith existing.lock = false) :
    ∃ next, runAll step locks [.resume waker, .attempt waker] = .ok next ∧ next.callers waker = .granted := by
  obtain ⟨outcome, inserted, _⟩ := QueuedList.insertLockIntoList_kept locks.list request
  have nothing : locks.list.find? (fun existing => request.lock.conflictWith existing.lock) = none := by
    rw [find?_eq_none]
    intro existing member
    simp [free existing member]
  let resumed := { locks with queues := locks.queues.setWoken waker false }.setCaller waker (.trying request)
  have first : step locks (.resume waker) = .ok resumed := by
    rw [step, blocked]
    simp only [woken, if_true]
    rfl
  have trying : resumed.callers waker = .trying request := by simp [resumed, setCaller]
  have second : step resumed (.attempt waker) = .ok ((resumed.changed outcome).setCaller waker .granted) := by
    have tried : resumed.trySetLock request (some waker) = .ok (true, resumed.changed outcome) := by
      have sameList : resumed.list = locks.list := rfl
      rw [trySetLock, sameList, nothing]
      simp only [inserted, bind_ok, pure_eq_ok]
    rw [step, trying]
    simp only [tried, bind_ok, if_true, pure_eq_ok]
  refine ⟨_, by rw [runAll_cons first, runAll_cons second, runAll_nil], ?_⟩
  simp [setCaller]

/-- In every run, a blocked caller that has not been signalled stands in the queue of an item of
the list that conflicts with its request. So once nothing in the list conflicts, the caller has been
signalled, and trying again it gets its lock. -/
theorem no_lost_wakeup (events : List (Event ω)) :
    ∃ locks, runAll step new events = .ok locks ∧ ∀ waker request, locks.callers waker = .blocked request →
      (locks.queues.hasWoken waker = false → ∃ existing ∈ locks.list,
        request.lock.conflictWith existing.lock = true ∧ waker ∈ locks.queues.wakers existing.waitqueue) ∧
      ((∀ existing ∈ locks.list, request.lock.conflictWith existing.lock = false) →
        locks.queues.hasWoken waker = true ∧ ∃ next,
          runAll step locks [.resume waker, .attempt waker] = .ok next ∧ next.callers waker = .granted) := by
  obtain ⟨locks, ran, sound⟩ := runAll_invariant (fun _ : List (Event ω) => NoLostWakeup) new_noLostWakeup
    (fun _ _ event sound => Meets.exists_ok (NoLostWakeup.step sound event)) events
  refine ⟨locks, ran, ?_⟩
  intro waker request blocked
  have watched : locks.queues.hasWoken waker = false → ∃ existing ∈ locks.list,
      request.lock.conflictWith existing.lock = true ∧ waker ∈ locks.queues.wakers existing.waitqueue := by
    intro asleep
    obtain ⟨_, ⟨existing, member, rfl, conflict⟩, queued⟩ := sound waker request blocked asleep
    exact ⟨existing, member, conflict, queued⟩
  refine ⟨watched, ?_⟩
  intro free
  have woken : locks.queues.hasWoken waker = true := by
    by_contra asleep
    obtain ⟨existing, member, conflict, _⟩ := watched (by simpa using asleep)
    rw [free existing member] at conflict
    exact absurd conflict (by decide)
  exact ⟨woken, resume_attempt blocked woken free⟩

example :
    let item (owner queue : Nat) : QueuedLock Nat := ⟨⟨owner, .writeLock, ⟨0, 8, by decide⟩⟩, queue⟩
    let events := [.trySetLock (item 1 10), .setLock 2 (item 2 20), .attempt 2]
    ((runAll step new events).map fun locks => (locks.queues.wakers 10, locks.queues.hasWoken 2)) =
        .ok ([2], false) ∧
      ((runAll step new (events ++ [.unlock (item 1 10).lock])).map fun locks =>
        (locks.list, locks.queues.hasWoken 2)) = .ok ([], true) := by
  decide

end FileLocks

end Kei.Vfs
