import Mathlib.Algebra.Group.Nat.Defs
import Mathlib.Tactic.Common

/-! How a thread waits for events on a file. All it reads while it waits comes from a `World`, turn by turn, so
that the clock, the signals and the notifications may change between any two of its steps. -/

namespace Kei.Events

inductive Arch where
  | x86
  | riscv
  | loongarch
  | aarch64
deriving DecidableEq

/-- Whether anything ever fires a timer of `JIFFIES_TIMER_MANAGER`: `clocks::init` registers
`process_expired_timers` for it, `clocks::init_no_rtc` only creates it. -/
def Arch.firesJiffies : Arch → Bool
  | .x86 | .loongarch => true
  | .riscv | .aarch64 => false

inductive Errno where
  | ETIME
  | EINTR

/-- What the thread finds at each turn: the clock in nanoseconds, whether `try_op` gives anything but `EAGAIN`,
whether a signal is pending, whether its waker was used for another reason. The clock never stands still for good. -/
structure World where
  now : Nat → Nat
  ready : Nat → Bool
  pending : Nat → Bool
  notified : Nat → Bool
  pollIsEmpty : Bool
  forward : ∀ {turn later}, turn ≤ later → now turn ≤ now later
  unbounded : ∀ time, ∃ turn, time ≤ now turn

inductive Phase where
  | tryOp
  | wait
  | setSignalledWaker
  | blocked
  | timerRemain
  | hasPending
  | done (result : Except Errno Unit)
  | panicked

def Phase.isDone : Phase → Bool
  | .done _ => true
  | _ => false

variable (arch : Arch) (timeout : Option Nat) (world : World)

/-- The sum of two durations panics when its seconds leave 64 bits. -/
def World.deadlineFits : Bool := timeout.all fun duration => world.now 0 + duration < 2 ^ 64 * 10 ^ 9

def World.expired (turn : Nat) : Bool := timeout.any fun duration => world.now 0 + duration ≤ world.now turn

def waitEvents : Phase :=
  if world.ready 0 then .done (.ok ())
  else if timeout = some 0 then .done (.error .ETIME)
  else if !world.deadlineFits timeout then .panicked
  else if world.pollIsEmpty then .wait
  else .tryOp

/-- One step of the loop in `wait_events`, of `Poller::wait` or of `pause_timeout`. On aarch64 `Poller::wait` polls
the interfaces and yields, whatever the clock and the signals say. -/
def step (turn : Nat) : Phase → Phase
  | .tryOp => if world.ready turn then .done (.ok ()) else .wait
  | .wait =>
    if arch = .aarch64 then .tryOp
    else if world.expired timeout turn then .done (.error .ETIME)
    else .setSignalledWaker
  | .setSignalledWaker => if world.pending turn then .done (.error .EINTR) else .blocked
  | .blocked =>
    if arch.firesJiffies && world.expired timeout turn || world.pending turn || world.notified turn then .timerRemain
    else .blocked
  | .timerRemain => if world.expired timeout turn then .done (.error .ETIME) else .hasPending
  | .hasPending => if world.pending turn then .done (.error .EINTR) else .tryOp
  | phase => phase

def run : Nat → Phase
  | 0 => waitEvents timeout world
  | turn + 1 => step arch timeout world (turn + 1) (run turn)

def Returns : Prop := ∃ turn, (run arch timeout world turn).isDone

inductive Cause (turn : Nat) : Except Errno Unit → Prop
  | timeout : world.expired timeout turn → Cause turn (.error .ETIME)
  | signal : world.pending turn → Cause turn (.error .EINTR)

/-- The call comes back only for a cause, and each cause brings it back. -/
structure Ends : Prop where
  caused : ∀ turn result, run arch timeout world turn = .done result →
    ∃ earlier ≤ turn, Cause timeout world earlier result
  timesOut : (∃ turn, world.expired timeout turn) → Returns arch timeout world
  interrupted : (∃ turn, ∀ later ≥ turn, world.pending later) → Returns arch timeout world
  finite : timeout.isSome → Returns arch timeout world

/-- Whenever the thread blocks, a signal or a notification comes later. -/
def Roused : Prop :=
  ∀ turn, run arch timeout world turn = .blocked → ∃ later > turn, world.pending later ∨ world.notified later

variable {arch timeout world}

theorem World.expired_later {turn later : Nat} (expired : world.expired timeout turn) (after : later ≥ turn) :
    world.expired timeout later := by
  have := world.forward after
  cases timeout <;> grind [World.expired]

theorem World.expires (given : timeout.isSome) : ∃ turn, world.expired timeout turn := by
  obtain ⟨duration, rfl⟩ := Option.isSome_iff_exists.mp given
  obtain ⟨turn, reached⟩ := world.unbounded (world.now 0 + duration)
  exact ⟨turn, by simpa [World.expired] using reached⟩

section Quiet

variable (never : ∀ turn, world.ready turn = false)
include never

theorem step_done {turn : Nat} {phase : Phase} {result : Except Errno Unit}
    (stepped : step arch timeout world turn phase = .done result) :
    phase = .done result ∨ Cause timeout world turn result := by
  cases phase <;> grind [step, Cause]

theorem run_caused (turn : Nat) (result : Except Errno Unit) (ran : run arch timeout world turn = .done result) :
    ∃ earlier ≤ turn, Cause timeout world earlier result := by
  induction turn with
  | zero =>
    refine ⟨0, Nat.le_refl 0, ?_⟩
    grind [run, waitEvents, World.expired, Cause]
  | succ turn ih =>
    rcases step_done never ran with before | cause
    · obtain ⟨earlier, bound, cause⟩ := ih before
      exact ⟨earlier, by omega, cause⟩
    · exact ⟨turn + 1, Nat.le_refl _, cause⟩

variable (nonzero : timeout ≠ some 0)
include nonzero

theorem run_panicked (turn : Nat) :
    run arch timeout world turn = .panicked ↔ world.deadlineFits timeout = false := by
  induction turn with
  | zero => grind [run, waitEvents]
  | succ turn ih =>
    rw [← ih, run]
    cases run arch timeout world turn <;> grind [step]

/-- Three more turns are enough, since no phase is further than that from one that reads the cause. -/
theorem run_finishes (native : arch ≠ .aarch64) (fits : world.deadlineFits timeout) {turn : Nat}
    (cause : arch.firesJiffies ∧ (∀ later ≥ turn, world.expired timeout later) ∨
      ∀ later ≥ turn, world.pending later) :
    Returns arch timeout world := by
  have alive := (@run_panicked arch timeout world never nonzero turn).not.mpr (by simp [fits])
  refine ⟨turn + 3, ?_⟩
  simp only [run]
  generalize run arch timeout world turn = phase at alive
  cases phase <;> grind [step, Phase.isDone]

/-- Unless the thread blocks, it finds within three turns that its time has passed. -/
theorem run_expired (native : arch ≠ .aarch64) (fits : world.deadlineFits timeout) {turn : Nat}
    (expired : ∀ later ≥ turn, world.expired timeout later) :
    Returns arch timeout world ∨ ∃ later ≥ turn, run arch timeout world later = .blocked := by
  have alive := (@run_panicked arch timeout world never nonzero turn).not.mpr (by simp [fits])
  by_cases blocks : run arch timeout world turn = .blocked ∨ run arch timeout world (turn + 1) = .blocked
  · rcases blocks with here | next
    · exact Or.inr ⟨turn, Nat.le_refl turn, here⟩
    · exact Or.inr ⟨turn + 1, Nat.le_succ turn, next⟩
  · refine Or.inl ⟨turn + 3, ?_⟩
    simp only [run] at blocks ⊢
    generalize run arch timeout world turn = phase at alive blocks
    cases phase <;> grind [step, Phase.isDone]

omit never nonzero in
theorem run_leaves {turn : Nat} (blocks : run arch timeout world turn = .blocked) {later : Nat} (after : turn < later)
    (woken : world.pending later ∨ world.notified later) :
    ∃ woke ≥ turn, run arch timeout world woke = .timerRemain := by
  have stays : ∀ {next : Nat}, turn ≤ next →
      run arch timeout world next = .blocked ∨ ∃ woke ≥ turn, run arch timeout world woke = .timerRemain := by
    intro next reached
    induction reached with
    | refl => exact Or.inl blocks
    | @step next reached ih =>
      rcases ih with here | left
      · by_cases again : run arch timeout world (next + 1) = .blocked
        · exact Or.inl again
        · exact Or.inr ⟨next + 1, Nat.le_succ_of_le reached, by grind [run, step]⟩
      · exact Or.inr left
  obtain ⟨before, rfl⟩ := Nat.exists_eq_succ_of_ne_zero (Nat.ne_zero_of_lt after)
  rcases stays (Nat.le_of_lt_succ after) with here | left
  · exact ⟨before + 1, by omega, by rcases woken with woken | woken <;> simp [run, step, here, woken]⟩
  · exact left

theorem run_roused (native : arch ≠ .aarch64) (fits : world.deadlineFits timeout)
    (roused : Roused arch timeout world) (given : timeout.isSome) : Returns arch timeout world := by
  obtain ⟨turn, expired⟩ := World.expires given
  rcases run_expired never nonzero native fits fun _ =>
    World.expired_later expired with returned | ⟨on, after, blocks⟩
  · exact returned
  · obtain ⟨later, beyond, woken⟩ := roused on blocks
    obtain ⟨woke, since, remain⟩ := run_leaves blocks beyond woken
    have past : world.expired timeout (woke + 1) := World.expired_later expired (by omega)
    exact ⟨woke + 1, by simp [run, step, remain, past, Phase.isDone]⟩

theorem run_spins (turn : Nat) : (run .aarch64 timeout world turn).isDone = false := by
  have spins : run .aarch64 timeout world turn = .tryOp ∨ run .aarch64 timeout world turn = .wait ∨
      run .aarch64 timeout world turn = .panicked := by
    induction turn with
    | zero => grind [run, waitEvents]
    | succ turn ih =>
      rw [run]
      rcases ih with here | here | here <;> simp [here, step, never]
  rcases spins with here | here | here <;> rw [here] <;> rfl

end Quiet

theorem run_isDone {turn later : Nat} (after : turn ≤ later) (done : (run arch timeout world turn).isDone) :
    (run arch timeout world later).isDone := by
  induction after with
  | refl => exact done
  | @step later after ih =>
    rw [run]
    cases ran : run arch timeout world later <;> simp_all [Phase.isDone, step]

/-- A thread that is blocked with nothing left to wake it stays so where no timer fires. -/
theorem Returns.roused (mute : arch.firesJiffies = false) (returned : Returns arch timeout world) :
    Roused arch timeout world := by
  intro turn blocks
  by_contra quiet
  push Not at quiet
  have stays : ∀ {later : Nat}, turn ≤ later → run arch timeout world later = .blocked := by
    intro later after
    induction after with
    | refl => exact blocks
    | @step later after ih => simpa [run, step, ih, mute] using quiet (later + 1) (Nat.lt_succ_of_le after)
  obtain ⟨last, done⟩ := returned
  have absurdly := run_isDone (Nat.le_max_right turn last) done
  rw [stays (Nat.le_max_left turn last)] at absurdly
  cases absurdly

/-- Where the awaited event never happens, the wait ends as it should on the architectures whose timers in jiffies
fire. On riscv a thread with a timeout also needs a signal or a notification each time it blocks, and on aarch64
neither a timeout, unless it is zero, nor a signal is ever noticed. -/
theorem waitEvents_ends_iff (arch : Arch) (timeout : Option Nat) (world : World)
    (never : ∀ turn, world.ready turn = false) :
    Ends arch timeout world ↔ timeout = some 0 ∨
      arch ≠ .aarch64 ∧ world.deadlineFits timeout ∧
        (arch.firesJiffies ∨ timeout = none ∨ Roused arch timeout world) ∨
      timeout = none ∧ ¬∃ turn, ∀ later ≥ turn, world.pending later := by
  by_cases nonzero : timeout = some 0
  · have returned : Returns arch timeout world :=
      ⟨0, by simp [run, waitEvents, never, nonzero, Phase.isDone]⟩
    exact iff_of_true ⟨run_caused never, fun _ => returned, fun _ => returned, fun _ => returned⟩ (Or.inl nonzero)
  rw [or_iff_right nonzero]
  constructor
  · intro ends
    by_cases native : arch = .aarch64
    · subst native
      have spins : ¬Returns .aarch64 timeout world := by simp [Returns, run_spins never nonzero]
      refine Or.inr ⟨?_, fun pending => spins (ends.interrupted pending)⟩
      exact Option.not_isSome_iff_eq_none.mp fun given => spins (ends.finite given)
    · refine Or.inl ⟨native, ?_⟩
      cases timeout with
      | none => exact ⟨rfl, Or.inr (Or.inl rfl)⟩
      | some duration =>
        have returned := ends.finite rfl
        refine ⟨?_, ?_⟩
        · by_contra overflows
          obtain ⟨turn, finished⟩ := returned
          rw [(run_panicked never nonzero turn).mpr (by simpa using overflows)] at finished
          cases finished
        · cases mute : arch.firesJiffies with
          | true => exact Or.inl rfl
          | false => exact Or.inr (Or.inr (returned.roused mute))
  · rintro (⟨native, fits, fires⟩ | ⟨rfl, undisturbed⟩)
    · have finite : timeout.isSome → Returns arch timeout world := by
        intro given
        obtain ⟨turn, expired⟩ := World.expires given
        rcases fires with fires | rfl | roused
        · exact run_finishes never nonzero native fits (Or.inl ⟨fires, fun _ => World.expired_later expired⟩)
        · cases given
        · exact run_roused never nonzero native fits roused given
      have timesOut : (∃ turn, world.expired timeout turn) → Returns arch timeout world := by
        rintro ⟨turn, expired⟩
        cases timeout with
        | none => cases expired
        | some duration => exact finite rfl
      refine ⟨run_caused never, timesOut, ?_, finite⟩
      exact fun ⟨_, pending⟩ => run_finishes never nonzero native fits (Or.inr pending)
    · exact ⟨run_caused never, by simp [World.expired], fun pending => absurd pending undisturbed, by simp⟩

def silent : World where
  now := id
  ready := fun _ => false
  pending := fun _ => false
  notified := fun _ => false
  pollIsEmpty := true
  forward := id
  unbounded := fun time => ⟨time, Nat.le_refl time⟩

/-- On x86 the timer ends the wait, on riscv the notifications that come at every turn do. -/
theorem silent_ends : Ends .x86 (some 10) silent ∧ Ends .riscv (some 10) { silent with notified := fun _ => true } :=
  ⟨(waitEvents_ends_iff .x86 (some 10) silent fun _ => rfl).mpr
      (Or.inr (Or.inl ⟨by decide, by decide, Or.inl rfl⟩)),
    (waitEvents_ends_iff .riscv (some 10) { silent with notified := fun _ => true } fun _ => rfl).mpr
      (Or.inr (Or.inl ⟨by decide, by decide, Or.inr (Or.inr fun turn _ => ⟨turn + 1, by simp⟩)⟩))⟩

/-- The timeout of ten nanoseconds has elapsed at the tenth turn, and neither on aarch64 nor on riscv, where the
thread is blocked since the second turn, does the call come back at any. -/
theorem silent_never_returns : silent.expired (some 10) 10 ∧ run .riscv (some 10) silent 2 = .blocked ∧
    ¬Returns .riscv (some 10) silent ∧ ¬Returns .aarch64 (some 10) silent := by
  have blocks : run .riscv (some 10) silent 2 = .blocked := rfl
  refine ⟨by decide, blocks, ?_, ?_⟩
  · intro returned
    obtain ⟨later, -, woken⟩ := returned.roused rfl 2 blocks
    simp [silent] at woken
  · rintro ⟨turn, finished⟩
    exact Bool.eq_false_iff.mp (run_spins (fun _ => rfl) (by simp) turn) finished

end Kei.Events
