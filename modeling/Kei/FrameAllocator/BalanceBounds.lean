import Kei.FrameAllocator.Partition

/-! How much a call of `balance` moves, and between which pools. -/

namespace Kei.FrameAllocator

open Library Checked Function Nat Finset

variable {cpus : Nat}

namespace Session

variable {session before after final : Session cpus}

def pooled (session : Session cpus) (cpu : Fin cpus) : Set Nat :=
  { point | 0 < (session.sets (.ofCpu cpu)).weigh (holds point) + (session.sets .global).weigh (holds point) }

end Session

theorem sum_two {ι : Type} [Fintype ι] [DecidableEq ι] {before after : ι → Nat} {first second : ι}
    (differ : first ≠ second) (others : ∀ i, i ≠ first → i ≠ second → after i = before i)
    (total : ∑ i, after i = ∑ i, before i) : after first + after second = before first + before second := by
  have inside : second ∈ univ.erase first := mem_erase.mpr ⟨differ.symm, mem_univ _⟩
  have rest : ∑ i ∈ (univ.erase first).erase second, after i =
      ∑ i ∈ (univ.erase first).erase second, before i := by
    refine sum_congr rfl fun i member => ?_
    simp only [mem_erase] at member
    exact others i member.2.1 member.1
  rw [← add_sum_erase _ after (mem_univ first), ← add_sum_erase _ after inside,
    ← add_sum_erase _ before (mem_univ first), ← add_sum_erase _ before inside] at total
  omega

theorem Session.Shifted.pooled {session after : Session cpus} {cpu : Fin cpus}
    (shifted : Session.Shifted session after (fun _ => 0) fun _ => 0)
    (others : ∀ pool, pool ≠ .ofCpu cpu → pool ≠ .global → after.sets pool = session.sets pool) :
    after.pooled cpu = session.pooled cpu := by
  ext point
  have total : after.weigh (covers point) = session.weigh (covers point) := shifted.weighs (covers_spread point)
  have both := sum_two (by simp : PoolId.ofCpu cpu ≠ .global)
    (fun pool notOwn notGlobal => by rw [others pool notOwn notGlobal]) total
  change 0 < _ + _ ↔ 0 < _ + _
  exact iff_of_eq (congrArg (0 < ·) both)

theorem Session.Sound.pages {session : Session cpus} (sound : session.Sound) (pool : PoolId cpus) :
    pageSize ∣ (session.sets pool).totalSize := by
  rw [(sound.each pool).counted, BuddySet.weigh_size]
  exact dvd_sum fun order _ => Dvd.dvd.mul_left (pageSize_dvd_sizeOfOrder order) _

section Balance

variable (globalPoolSize : Nat) (cpu : Fin cpus) (session : Session cpus)

def WithinSizes (cpus localSize globalSize : Nat) : Prop :=
  cacheMaximalSize cpus globalSize ≤ globalSize ∧
    ∀ order, lesserOrderOf (localSize - cacheExpectedSize cpus globalSize) = .ok order ∨
        lesserOrderOf (cacheExpectedSize cpus globalSize - localSize) = .ok order →
      sizeOfOrder order ≤ max localSize globalSize

def Approaches (expected localSize after : Nat) : Prop :=
  (expected ≤ localSize → expected ≤ after ∧ after ≤ localSize) ∧
    (localSize ≤ expected → localSize ≤ after ∧ after ≤ expected)

/-- The balancing returns; it touches the two pools only and keeps what they hold together; and the local
size comes no further from the expected one. -/
def BalancesSafely : Prop :=
  ∃ after, balance globalPoolSize cpu session = .ok after ∧ after.Sound ∧
    WithinSizes cpus (session.sets (.ofCpu cpu)).totalSize (session.getGlobalSize globalPoolSize) ∧
    (∀ pool, pool ≠ .ofCpu cpu → pool ≠ .global → after.sets pool = session.sets pool) ∧
    after.pooled cpu = session.pooled cpu ∧
    (after.sets (.ofCpu cpu)).totalSize + (after.sets .global).totalSize =
      (session.sets (.ofCpu cpu)).totalSize + (session.sets .global).totalSize ∧
    Approaches (cacheExpectedSize cpus (session.getGlobalSize globalPoolSize))
      (session.sets (.ofCpu cpu)).totalSize (after.sets (.ofCpu cpu)).totalSize

end Balance

theorem sizeOfOrder_le_of_lesserOrderOf {amount order : Nat} (found : lesserOrderOf amount = .ok order) :
    sizeOfOrder order ≤ amount :=
  ((lesserOrderOf_rule amount).of_ok found).2.1

theorem cacheExpectedSize_le (cpus globalSize : Nat) : 2 * cacheExpectedSize cpus globalSize ≤ globalSize := by
  have share : globalSize / cpus ≤ globalSize := div_le_self _ _
  unfold cacheExpectedSize
  omega

theorem withinSizes (cpus localSize globalSize : Nat) : WithinSizes cpus localSize globalSize := by
  have half := cacheExpectedSize_le cpus globalSize
  refine ⟨?_, ?_⟩
  · unfold cacheMaximalSize
    omega
  · rintro order (found | found)
    · have bound := sizeOfOrder_le_of_lesserOrderOf found
      omega
    · have bound := sizeOfOrder_le_of_lesserOrderOf found
      omega

variable {globalPoolSize : Nat} {cpu : Fin cpus} {session : Session cpus}

theorem balancesSafely_iff (sound : session.Sound) : BalancesSafely globalPoolSize cpu session ↔
    Movable cpus (session.getGlobalSize globalPoolSize) (session.sets (.ofCpu cpu)).totalSize := by
  refine ⟨fun ⟨after, returned, _⟩ => ((balance_rule sound).of_ok returned).1, fun movable => ?_⟩
  obtain ⟨after, returned, rfl | ⟨excess, moved⟩ | ⟨under, moved⟩⟩ :=
    ((balance_moved sound).returns movable).exists_ok
  · refine ⟨after, returned, sound, withinSizes _ _ _, fun _ _ _ => rfl, rfl, rfl, ?_⟩
    exact ⟨fun le => ⟨le, le_refl _⟩, fun le => ⟨le_refl _, le⟩⟩
  · obtain ⟨amount, few, out, into⟩ := moved.amount
    refine ⟨after, returned, moved.shifted.sound, withinSizes _ _ _, moved.others, moved.shifted.pooled moved.others,
      by omega, ?_⟩
    unfold Approaches
    omega
  · obtain ⟨amount, few, out, into⟩ := moved.amount
    have others : ∀ pool, pool ≠ .ofCpu cpu → pool ≠ .global → after.sets pool = session.sets pool :=
      fun pool notOwn notGlobal => moved.others pool notGlobal notOwn
    refine ⟨after, returned, moved.shifted.sound, withinSizes _ _ _, others, moved.shifted.pooled others,
      by omega, ?_⟩
    unfold Approaches
    omega

/-- The pools after any calls of `balance`, each with or without the lock and with any snapshot. -/
inductive Balanced (start : Session cpus) : Session cpus → Prop
  | start : Balanced start start
  | reopen {current : Session cpus} (locked : Bool) : Balanced start current → Balanced start { current with locked }
  | step {current after : Session cpus} (globalPoolSize : Nat) (cpu : Fin cpus) : Balanced start current →
      balance globalPoolSize cpu current = .ok after → Balanced start after

theorem Balanced.sound {start : Session cpus} (sound : start.Sound) (run : Balanced start session) :
    session.Sound := by
  induction run with
  | start => exact sound
  | reopen locked _ ih => exact { ih with }
  | step globalPoolSize cpu _ returned ih =>
    exact ((balance_rule ih).of_ok returned).2.sound

/-- After any calls of `balance` on any pools, the next one is safe unless the local pool has one page and
should have up to half a page, or has nothing and should have some bytes, but less than a page. -/
theorem balance_safe_iff {start : Session cpus} (sound : start.Sound) (run : Balanced start session)
    (globalPoolSize : Nat) (cpu : Fin cpus) :
    BalancesSafely globalPoolSize cpu session ↔ ¬((session.sets (.ofCpu cpu)).totalSize = pageSize ∧
          0 < cacheExpectedSize cpus (session.getGlobalSize globalPoolSize) ∧
          2 * cacheExpectedSize cpus (session.getGlobalSize globalPoolSize) ≤ pageSize) ∧
        ¬((session.sets (.ofCpu cpu)).totalSize = 0 ∧
          8 ≤ cacheExpectedSize cpus (session.getGlobalSize globalPoolSize) ∧
          cacheExpectedSize cpus (session.getGlobalSize globalPoolSize) < pageSize) := by
  have here := run.sound sound
  rw [← movable_iff (here.pages (.ofCpu cpu))]
  exact balancesSafely_iff here

set_option maxRecDepth 40000 in
/-- With sixteen free pages the empty pool of the only CPU is filled. -/
theorem balance_safe_sixteen : ∃ state : Allocator 1, BalancesSafely state.globalPoolSize 0 state.openSession := by
  have added := @Allocator.Run.addFreeMemory 1 _ _ _ 0 (pageSize * 0) (pageSize * 16) _ .new
    (Set.disjoint_left.mpr fun _ member => member.elim) (Allocator.fits_frames 0 16 (by omega)) rfl
  refine ⟨_, (balance_safe_iff added.consistent.sound.pools .start _ 0).mpr ⟨?_, ?_⟩⟩
  · exact fun ⟨one, _⟩ => absurd one (by decide)
  · exact fun ⟨_, _, small⟩ => absurd small (by decide)

set_option maxRecDepth 40000 in
/-- One free page and one CPU: half a page is expected, and no order is that small. -/
theorem balance_panics_on_one_page : ∃ state : Allocator 1,
    Allocator.Run 1 state ∅ (∅ ∪ range (pageSize * 0) (pageSize * 1)) ∧
      balance state.globalPoolSize 0 state.openSession = .error .subOverflow := by
  have added := @Allocator.Run.addFreeMemory 1 _ _ _ 0 (pageSize * 0) (pageSize * 1) _ .new
    (Set.disjoint_left.mpr fun _ member => member.elim) (Allocator.fits_frames 0 1 (by omega)) rfl
  exact ⟨_, added, rfl⟩

end Kei.FrameAllocator
