import Mathlib.Data.List.Basic

/-! Wait queues. A waiter puts its waker into a queue and sleeps until the waker is signalled;
waking a queue empties it and signals every waker that stood in it. -/

namespace Library

structure WaitQueues (κ ι : Type) where
  wakers : κ → List ι
  hasWoken : ι → Bool

namespace WaitQueues

variable {κ ι : Type}

def empty : WaitQueues κ ι := ⟨fun _ => [], fun _ => false⟩

def Watches (queues : WaitQueues κ ι) (waker : ι) (blocks : κ → Prop) : Prop :=
  queues.hasWoken waker = false → ∃ queue, blocks queue ∧ waker ∈ queues.wakers queue

variable {queues : WaitQueues κ ι} {waker : ι} {blocks : κ → Prop}

section Signal

variable [DecidableEq ι]

def setWoken (queues : WaitQueues κ ι) (waker : ι) (woken : Bool) : WaitQueues κ ι :=
  { queues with hasWoken := Function.update queues.hasWoken waker woken }

theorem Watches.setWoken {other : ι} (watches : queues.Watches waker blocks) {woken : Bool}
    (harmless : waker = other → woken = true) : (queues.setWoken other woken).Watches waker blocks := by
  intro asleep
  by_cases same : waker = other
  · have signalled := harmless same
    simp [WaitQueues.setWoken, same, signalled] at asleep
  · exact watches (by simpa [WaitQueues.setWoken, same] using asleep)

end Signal

variable [DecidableEq κ]

def enqueue (queues : WaitQueues κ ι) (queue : κ) (waker : ι) : WaitQueues κ ι :=
  { queues with wakers := Function.update queues.wakers queue (queues.wakers queue ++ [waker]) }

theorem mem_enqueue (queue : κ) (waker : ι) : waker ∈ (queues.enqueue queue waker).wakers queue := by
  simp [enqueue]

theorem mem_enqueue_of_mem {other : κ} (member : waker ∈ queues.wakers other) (queue : κ) (added : ι) :
    waker ∈ (queues.enqueue queue added).wakers other := by
  by_cases same : other = queue
  · subst same
    simp [enqueue, member]
  · simpa [enqueue, same] using member

theorem watches_enqueue {queue : κ} (blocked : blocks queue) :
    (queues.enqueue queue waker).Watches waker blocks :=
  fun _ => ⟨queue, blocked, mem_enqueue queue waker⟩

theorem Watches.enqueue (watches : queues.Watches waker blocks) (queue : κ) (added : ι) :
    (queues.enqueue queue added).Watches waker blocks := by
  intro asleep
  obtain ⟨other, blocked, member⟩ := watches asleep
  exact ⟨other, blocked, mem_enqueue_of_mem member queue added⟩

variable [DecidableEq ι]

def wakeAll (queues : WaitQueues κ ι) (queue : κ) : WaitQueues κ ι where
  wakers := Function.update queues.wakers queue []
  hasWoken waker := queues.hasWoken waker || (queues.wakers queue).contains waker

def wakeEach (queues : WaitQueues κ ι) (dropped : List κ) : WaitQueues κ ι := dropped.foldl wakeAll queues

theorem Watches.wakeAll (watches : queues.Watches waker blocks) (queue : κ) :
    (queues.wakeAll queue).Watches waker fun other => blocks other ∧ other ≠ queue := by
  intro asleep
  simp only [WaitQueues.wakeAll, Bool.or_eq_false_iff] at asleep
  obtain ⟨other, blocked, member⟩ := watches asleep.1
  have kept : other ≠ queue := by
    rintro rfl
    simp [member] at asleep
  refine ⟨other, ⟨blocked, kept⟩, ?_⟩
  simpa [WaitQueues.wakeAll, kept] using member

theorem Watches.wakeEach {after : κ → Prop} (watches : queues.Watches waker blocks) {dropped : List κ}
    (kept : ∀ queue, blocks queue → queue ∉ dropped → after queue) :
    (queues.wakeEach dropped).Watches waker after := by
  induction dropped generalizing queues blocks with
  | nil =>
    intro asleep
    obtain ⟨queue, blocked, member⟩ := watches asleep
    exact ⟨queue, kept queue blocked List.not_mem_nil, member⟩
  | cons queue dropped ih =>
    refine ih (watches.wakeAll queue) ?_
    rintro other ⟨blocked, differs⟩ absent
    exact kept other blocked (by simp [differs, absent])

end WaitQueues

end Library
