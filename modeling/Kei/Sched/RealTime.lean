import Kei.Library.Checked
import Kei.Library.Shelves

/-! The run queue of the real-time scheduling class (`sched/sched_class/real_time.rs`): threads
enter the inactive array and leave the active one, and the arrays change roles when the active one
runs empty. A smaller number is a higher priority. -/

namespace Kei.Sched

open Library Checked Function Option

variable {τ : Type} {prio : Fin 100} {thread : τ} {rest : List τ}

structure PrioArray (τ : Type) where
  map : Fin 100 → Bool
  queue : Fin 100 → List τ

namespace PrioArray

def enqueue (array : PrioArray τ) (thread : τ) (prio : Fin 100) : PrioArray τ where
  map := if (array.queue prio).isEmpty then update array.map prio true else array.map
  queue := update array.queue prio (array.queue prio ++ [thread])

def peekPrio (array : PrioArray τ) : Option (Fin 100) := Fin.find? array.map

def pop (array : PrioArray τ) : Checked (Option τ × PrioArray τ) :=
  match array.peekPrio with
  | none => return (none, array)
  | some prio => do
    let thread ← unwrap (array.queue prio).head?
    let rest := (array.queue prio).tail
    return (some thread,
      { map := if rest.isEmpty then update array.map prio false else array.map
        queue := update array.queue prio rest })

end PrioArray

structure RealTimeAttr where
  prio : Fin 100
  /-- `0` for a FIFO thread. -/
  timeSlice : Nat

inductive UpdateFlags
  | tick
  | wait
  | yield
  | exit

structure RealTimeClassRq (τ : Type) where
  index : Bool
  array : Bool → PrioArray τ
  nrRunning : Nat

namespace RealTimeClassRq

def new : RealTimeClassRq τ := ⟨false, fun _ => ⟨fun _ => false, fun _ => []⟩, 0⟩

variable (rq : RealTimeClassRq τ)

def activeArray : PrioArray τ := rq.array rq.index

def inactiveArray : PrioArray τ := rq.array !rq.index

def swapArrays : RealTimeClassRq τ := { rq with index := !rq.index }

def enqueue (thread : τ) (prio : Fin 100) : RealTimeClassRq τ :=
  { rq with
    array := update rq.array (!rq.index) (rq.inactiveArray.enqueue thread prio)
    nrRunning := rq.nrRunning + 1 }

def isEmpty : Bool := rq.nrRunning == 0

def popActive : Checked (Option τ × RealTimeClassRq τ) := do
  let (thread, array) ← rq.activeArray.pop
  return (thread, { rq with array := update rq.array rq.index array })

def pickNext : Checked (Option τ × RealTimeClassRq τ) := do
  if rq.nrRunning = 0 then return (none, rq)
  let (first, rq) ← rq.popActive
  let (thread, rq) ← if first.isSome then pure (first, rq) else rq.swapArrays.popActive
  if thread.isSome then return (thread, { rq with nrRunning := ← sub rq.nrRunning 1 })
  else return (thread, rq)

def updateCurrent (periodDelta : Nat) (attr : RealTimeAttr) : UpdateFlags → Bool
  | .tick | .yield =>
    if attr.timeSlice = 0 then
      rq.activeArray.peekPrio.isSome || rq.inactiveArray.peekPrio.any fun prio => prio < attr.prio
    else attr.timeSlice ≤ periodDelta && !rq.isEmpty
  | .wait | .exit => !rq.isEmpty

end RealTimeClassRq

namespace PrioArray

variable {array : PrioArray τ}

/-- The bits tell which queues have a thread. -/
def Marked (array : PrioArray τ) : Prop := ∀ prio, array.map prio = !(array.queue prio).isEmpty

def put (array : PrioArray τ) (prio : Fin 100) (threads : List τ) : PrioArray τ :=
  ⟨update array.map prio !threads.isEmpty, update array.queue prio threads⟩

section Marked

variable (marked : array.Marked)
include marked

theorem Marked.put (threads : List τ) : (array.put prio threads).Marked := by
  intro other
  by_cases same : other = prio
  · simp [PrioArray.put, same]
  · simpa [PrioArray.put, same] using marked other

theorem Marked.enqueue : (array.enqueue thread prio).Marked := by
  have set := marked prio
  have same : array.enqueue thread prio = array.put prio (array.queue prio ++ [thread]) := by
    cases queue : array.queue prio with
    | nil => simp [PrioArray.enqueue, PrioArray.put, queue]
    | cons => simpa [PrioArray.enqueue, PrioArray.put, queue] using set
  rw [same]
  exact marked.put _

theorem Marked.pop_eq (peeked : array.peekPrio = some prio) (queue : array.queue prio = thread :: rest) :
    array.pop = .ok (some thread, array.put prio rest) := by
  have set : array.map prio = true := by rw [marked, queue]; rfl
  unfold pop
  simp only [peeked, queue, List.head?_cons, unwrap, bind_ok, List.tail_cons, pure_eq_ok, PrioArray.put]
  cases rest with
  | nil => simp
  | cons next rest => simp [← set]

theorem Marked.peekPrio_eq_none : array.peekPrio = none ↔ ∀ prio, array.queue prio = [] := by
  simp [peekPrio, marked _]

theorem Marked.peekPrio_eq_some (peeked : array.peekPrio = some prio) :
    (∃ thread rest, array.queue prio = thread :: rest) ∧ ∀ other < prio, array.queue other = [] := by
  obtain ⟨set, clear⟩ := Fin.find?_eq_some_iff.1 peeked
  refine ⟨List.exists_cons_of_ne_nil (by simpa [marked _] using set), fun other below => ?_⟩
  simpa [marked _] using clear other below

theorem Marked.queue_eq_nil (above : ∀ best ∈ array.peekPrio, prio < best) : array.queue prio = [] := by
  cases peeked : array.peekPrio with
  | none => exact marked.peekPrio_eq_none.1 peeked prio
  | some best => exact (marked.peekPrio_eq_some peeked).2 prio (above best peeked)

end Marked

end PrioArray

namespace RealTimeClassRq

variable {rq : RealTimeClassRq τ}

/-- The queued threads of one priority. Those in the active array have been there first. -/
def queued (rq : RealTimeClassRq τ) (prio : Fin 100) : List τ :=
  rq.activeArray.queue prio ++ rq.inactiveArray.queue prio

structure Sound (rq : RealTimeClassRq τ) : Prop where
  active : rq.activeArray.Marked
  inactive : rq.inactiveArray.Marked
  count : rq.nrRunning = ∑ prio, (rq.queued prio).length

theorem sound_new : (new : RealTimeClassRq τ).Sound where
  active _ := rfl
  inactive _ := rfl
  count := by simp [queued, new, activeArray, inactiveArray]

theorem queued_enqueue (rq : RealTimeClassRq τ) (thread : τ) (prio : Fin 100) :
    (rq.enqueue thread prio).queued = update rq.queued prio (rq.queued prio ++ [thread]) := by
  funext other
  by_cases same : other = prio
  · simp [queued, enqueue, activeArray, inactiveArray, PrioArray.enqueue, same]
  · simp [queued, enqueue, activeArray, inactiveArray, PrioArray.enqueue, same]

theorem popActive_eq {first : Option τ} {array : PrioArray τ} (popped : rq.activeArray.pop = .ok (first, array)) :
    rq.popActive = .ok (first, { rq with array := update rq.array rq.index array }) := by
  rw [popActive, popped]
  rfl

section Sound

variable (sound : rq.Sound)
include sound

theorem Sound.busy (waiting : rq.queued prio = thread :: rest) : 0 < rq.nrRunning := by
  have total := sum_update (fun _ => List.length) rq.queued (Finset.mem_univ prio) []
  rw [waiting, ← sound.count, List.length_cons, List.length_nil] at total
  omega

theorem Sound.enqueue : (rq.enqueue thread prio).Sound where
  active := by simpa [RealTimeClassRq.enqueue, activeArray] using sound.active
  inactive := by simpa [RealTimeClassRq.enqueue, inactiveArray] using sound.inactive.enqueue
  count := by
    have total := sum_update (fun _ => List.length) rq.queued (Finset.mem_univ prio) (rq.queued prio ++ [thread])
    rw [queued_enqueue]
    simp only [RealTimeClassRq.enqueue, sound.count, List.length_append, List.length_singleton] at total ⊢
    omega

theorem Sound.pickNext_active (peeked : rq.activeArray.peekPrio = some prio) : ∃ thread rest after,
    rq.queued prio = thread :: rest ∧ rq.pickNext = .ok (some thread, after) ∧
      after.queued = update rq.queued prio rest ∧ after.Sound := by
  obtain ⟨⟨thread, rest, queue⟩, -⟩ := sound.active.peekPrio_eq_some peeked
  have first : rq.queued prio = thread :: (rest ++ rq.inactiveArray.queue prio) := by simp [queued, queue]
  have total := sum_update (fun _ => List.length) rq.queued (Finset.mem_univ prio)
    (rest ++ rq.inactiveArray.queue prio)
  rw [first, ← sound.count, List.length_cons] at total
  have busy := sound.busy first
  have left : queued { rq with
      array := update rq.array rq.index (rq.activeArray.put prio rest)
      nrRunning := rq.nrRunning - 1 } = update rq.queued prio (rest ++ rq.inactiveArray.queue prio) := by
    funext other
    by_cases same : other = prio
    · simp [queued, activeArray, inactiveArray, PrioArray.put, same]
    · simp [queued, activeArray, inactiveArray, PrioArray.put, same]
  refine ⟨thread, _, _, first, ?_, left, ?_, ?_, ?_⟩
  · simp [pickNext, popActive_eq (sound.active.pop_eq peeked queue), busy.ne', bind_ok, pure_eq_ok, sub_ok busy]
  · simpa [activeArray] using sound.active.put rest
  · simpa [inactiveArray] using sound.inactive
  · rw [left]
    simp only
    omega

/-- With an empty active array the arrays change roles. -/
theorem Sound.pickNext_swap (empty : rq.activeArray.peekPrio = none)
    (peeked : rq.inactiveArray.peekPrio = some prio) : rq.pickNext = rq.swapArrays.pickNext ∧
      rq.swapArrays.Sound ∧ rq.swapArrays.queued = rq.queued := by
  have none_active := sound.active.peekPrio_eq_none.1 empty
  have same : rq.swapArrays.queued = rq.queued := by
    funext other
    simp only [queued, none_active other, List.nil_append]
    simpa [swapArrays, activeArray, inactiveArray] using none_active other
  obtain ⟨⟨thread, rest, queue⟩, -⟩ := sound.inactive.peekPrio_eq_some peeked
  have busy := sound.busy (show rq.queued prio = thread :: rest by rw [queued, none_active, queue]; rfl)
  have nothing : rq.activeArray.pop = .ok (none, rq.activeArray) := by
    unfold PrioArray.pop
    simp only [empty, pure_eq_ok]
  have popped : rq.popActive = .ok (none, rq) := by
    rw [popActive_eq nothing, activeArray, update_eq_self]
  have taken : rq.swapArrays.popActive = _ := popActive_eq (sound.inactive.pop_eq peeked queue)
  refine ⟨?_, ⟨sound.inactive, ?_, ?_⟩, same⟩
  · have busy' : rq.swapArrays.nrRunning ≠ 0 := busy.ne'
    simp [pickNext, popped, taken, busy.ne', busy', bind_ok, pure_eq_ok]
  · simpa [swapArrays, activeArray, inactiveArray] using sound.active
  · rw [same]
    exact sound.count

theorem Sound.pickNext_nil (active : rq.activeArray.peekPrio = none) (inactive : rq.inactiveArray.peekPrio = none) :
    (∀ prio, rq.queued prio = []) ∧ rq.pickNext = .ok (none, rq) := by
  have nothing : ∀ prio, rq.queued prio = [] := fun prio => by
    rw [queued, sound.active.peekPrio_eq_none.1 active, sound.inactive.peekPrio_eq_none.1 inactive, List.nil_append]
  exact ⟨nothing, by simp [pickNext, sound.count, nothing, pure_eq_ok]⟩

/-- The priority of the thread `pick_next` takes: the best of the active array, and only if it is
empty the best of the other. -/
theorem Sound.pickNext_some (picked : rq.activeArray.peekPrio.or rq.inactiveArray.peekPrio = some prio) :
    ∃ thread rest after, rq.queued prio = thread :: rest ∧ rq.pickNext = .ok (some thread, after) ∧
      after.queued = update rq.queued prio rest ∧ after.Sound := by
  cases peeked : rq.activeArray.peekPrio with
  | some other =>
    obtain rfl : other = prio := by simpa [peeked] using picked
    exact sound.pickNext_active peeked
  | none =>
    rw [peeked, none_or] at picked
    obtain ⟨same, swapped, queued⟩ := sound.pickNext_swap peeked picked
    rw [same, ← queued]
    exact swapped.pickNext_active picked

theorem Sound.pickNext_best (empty : ∀ other, rq.activeArray.queue other = [])
    (waiting : rq.queued prio = thread :: rest)
    (best : ∀ other < prio, rq.queued other = []) : ∃ after, rq.pickNext = .ok (some thread, after) := by
  have active := sound.active.peekPrio_eq_none.2 empty
  cases peeked : rq.inactiveArray.peekPrio with
  | none => simp [(sound.pickNext_nil active peeked).1] at waiting
  | some top =>
    obtain ⟨next, others, after, first, ran, -⟩ := sound.pickNext_some (by rw [active, none_or, peeked])
    have below := (sound.inactive.peekPrio_eq_some peeked).2 prio
    obtain rfl : top = prio := by
      rcases lt_trichotomy top prio with lower | same | higher
      · simp [best top lower] at first
      · exact same
      · simp [queued, empty, below higher] at waiting
    obtain ⟨rfl, -⟩ := List.cons.inj (first.symm.trans waiting)
    exact ⟨after, ran⟩

end Sound

inductive Reaches : RealTimeClassRq τ → Prop
  | new : Reaches .new
  | enqueue {before} (thread : τ) (prio : Fin 100) : Reaches before → Reaches (before.enqueue thread prio)
  | pickNext {before result after} : Reaches before → before.pickNext = .ok (result, after) → Reaches after

theorem Reaches.sound (reached : Reaches rq) : rq.Sound := by
  induction reached with
  | new => exact sound_new
  | enqueue thread prio _ ih => exact ih.enqueue
  | @pickNext rq result after _ ran ih =>
    cases picked : rq.activeArray.peekPrio.or rq.inactiveArray.peekPrio with
    | none =>
      obtain ⟨active, inactive⟩ := or_eq_none_iff.1 picked
      obtain ⟨-, rfl⟩ : result = none ∧ after = rq := by simpa [ran] using (ih.pickNext_nil active inactive).2
      exact ih
    | some prio =>
      obtain ⟨thread, rest, left, -, taken, -, sound⟩ := ih.pickNext_some picked
      obtain ⟨-, rfl⟩ : result = some thread ∧ after = left := by simpa [ran] using taken
      exact sound

/-- The queue of each priority is first in, first out, and `pick_next` serves the highest priority with
a thread. -/
structure Serves (rq : RealTimeClassRq τ) : Prop where
  enqueues : ∀ thread prio,
    (rq.enqueue thread prio).queued = update rq.queued prio (rq.queued prio ++ [thread])
  picks : ∃ result after, rq.pickNext = .ok (result, after) ∧ (result = none → ∀ prio, rq.queued prio = []) ∧
    ∀ thread, result = some thread → ∃ top rest, rq.queued top = thread :: rest ∧
      (∀ other < top, rq.queued other = []) ∧ after.queued = update rq.queued top rest

/-- A tick preempts a FIFO thread of priority `prio` only for a higher priority. -/
def Spares (rq : RealTimeClassRq τ) (prio : Fin 100) : Prop :=
  ∀ periodDelta, rq.updateCurrent periodDelta ⟨prio, 0⟩ .tick = true → ∃ other < prio, rq.queued other ≠ []

section Obeys

variable (sound : rq.Sound)
include sound

theorem Sound.queued_active (peeked : rq.activeArray.peekPrio = some prio) : rq.queued prio ≠ [] := by
  obtain ⟨⟨thread, rest, queue⟩, -⟩ := sound.active.peekPrio_eq_some peeked
  simp [queued, queue]

theorem Sound.queued_inactive (peeked : rq.inactiveArray.peekPrio = some prio) : rq.queued prio ≠ [] := by
  obtain ⟨⟨thread, rest, queue⟩, -⟩ := sound.inactive.peekPrio_eq_some peeked
  simp [queued, queue]

theorem Sound.queued_eq_nil (active : ∀ best ∈ rq.activeArray.peekPrio, prio < best)
    (inactive : ∀ best ∈ rq.inactiveArray.peekPrio, prio < best) : rq.queued prio = [] := by
  rw [queued, sound.active.queue_eq_nil active, sound.inactive.queue_eq_nil inactive, List.nil_append]

theorem Sound.serves_iff : rq.Serves ↔
    ∀ active ∈ rq.activeArray.peekPrio, ∀ inactive ∈ rq.inactiveArray.peekPrio, active ≤ inactive := by
  constructor
  · intro serves active peeked inactive shown
    obtain ⟨thread, rest, after, first, ran, left, -⟩ := sound.pickNext_active peeked
    obtain ⟨result, other, again, -, leading⟩ := serves.picks
    obtain ⟨rfl, rfl⟩ : result = some thread ∧ other = after := by simpa [ran, eq_comm] using again
    obtain ⟨top, below, waiting, higher, taken⟩ := leading thread rfl
    obtain rfl : top = active := by
      by_contra apart
      have := congrFun (left.symm.trans taken) active
      simp [update_of_ne (Ne.symm apart), first] at this
    by_contra above
    exact sound.queued_inactive shown (higher inactive (by omega))
  · intro ordered
    refine ⟨rq.queued_enqueue, ?_⟩
    cases picked : rq.activeArray.peekPrio.or rq.inactiveArray.peekPrio with
    | none =>
      obtain ⟨active, inactive⟩ := or_eq_none_iff.1 picked
      obtain ⟨nothing, idle⟩ := sound.pickNext_nil active inactive
      exact ⟨none, rq, idle, fun _ => nothing, nofun⟩
    | some top =>
      obtain ⟨thread, rest, after, first, ran, left, -⟩ := sound.pickNext_some picked
      refine ⟨some thread, after, ran, nofun, fun _ taken =>
        ⟨top, rest, Option.some.inj taken ▸ first, ?_, left⟩⟩
      intro other higher
      apply sound.queued_eq_nil
      · intro best shown
        simp_all
      · intro best shown
        cases peeked : rq.activeArray.peekPrio with
        | none => simp_all
        | some active =>
          obtain rfl : active = top := by simpa [peeked] using picked
          exact higher.trans_le (ordered _ peeked best shown)

theorem Sound.spares_iff : rq.Spares prio ↔ ∀ active ∈ rq.activeArray.peekPrio,
    active < prio ∨ ∃ inactive ∈ rq.inactiveArray.peekPrio, inactive < prio := by
  constructor
  · intro spares active peeked
    obtain ⟨other, above, waits⟩ := spares 0 (by simp [updateCurrent, mem_def.1 peeked])
    by_contra low
    obtain ⟨behind, others⟩ := not_or.1 low
    refine waits (sound.queued_eq_nil (fun best shown => ?_) fun best shown => ?_)
    · obtain rfl := mem_unique peeked shown
      omega
    · by_contra early
      exact others ⟨best, shown, by omega⟩
  · intro ahead periodDelta asked
    simp only [updateCurrent, if_pos, Bool.or_eq_true, isSome_iff_exists, any_eq_true,
      decide_eq_true_eq] at asked
    rcases asked with ⟨active, peeked⟩ | ⟨inactive, peeked, higher⟩
    · rcases ahead active peeked with higher | ⟨inactive, shown, higher⟩
      · exact ⟨active, higher, sound.queued_active peeked⟩
      · exact ⟨inactive, higher, sound.queued_inactive shown⟩
    · exact ⟨inactive, higher, sound.queued_inactive peeked⟩

end Obeys

theorem obeysPriorities_iff (reached : Reaches rq) :
    (rq.Serves ↔ ∀ active ∈ rq.activeArray.peekPrio, ∀ inactive ∈ rq.inactiveArray.peekPrio,
      active ≤ inactive) ∧
    ∀ prio, rq.Spares prio ↔ ∀ active ∈ rq.activeArray.peekPrio,
      active < prio ∨ ∃ inactive ∈ rq.inactiveArray.peekPrio, inactive < prio :=
  ⟨reached.sound.serves_iff, fun _ => reached.sound.spares_iff⟩

set_option maxRecDepth 4000 in
/-- After a pick one thread is left in the active array, and one of a lower priority is in the other. -/
theorem obeys_behind : ∃ rq : RealTimeClassRq Nat, Reaches rq ∧ rq.queued 50 = [2] ∧ rq.queued 60 = [3] ∧
    rq.Serves ∧ rq.Spares 55 := by
  have picked : Reaches _ := .pickNext (.enqueue 2 50 (.enqueue 1 50 .new)) rfl
  have reached := picked.enqueue 3 60
  obtain ⟨serves, spares⟩ := obeysPriorities_iff reached
  exact ⟨_, reached, rfl, rfl, serves.2 (by decide), (spares 55).2 (by decide)⟩

set_option maxRecDepth 4000 in
/-- Of two threads of priority 50 the first is picked. Then a tick preempts a FIFO thread of
priority 10 for the second, which also goes before one of priority 1. -/
theorem picked_before_higher : ∃ rq after : RealTimeClassRq Nat,
    ((new.enqueue 1 50).enqueue 2 50).pickNext = .ok (some 1, rq) ∧
      rq.updateCurrent 0 ⟨10, 0⟩ .tick = true ∧ (rq.enqueue 3 1).pickNext = .ok (some 2, after) :=
  ⟨_, _, rfl, rfl, rfl⟩

end RealTimeClassRq

end Kei.Sched
