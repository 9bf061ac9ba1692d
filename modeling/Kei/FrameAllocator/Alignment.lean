import Kei.FrameAllocator.Partition

/-! The alignment of allocated addresses. The pools serve a layout from a chunk that is aligned as
the layout asks; a cache of segments hands out whatever it holds. -/

namespace Kei.FrameAllocator

open Library Checked Nat

variable {cpus : Nat}

theorem Layout.align_dvd_sizeOfOrder (layout : Layout) :
    layout.align ∣ sizeOfOrder (greaterOrderOf layout.align) := by
  obtain ⟨exponent, power⟩ := layout.power
  rw [sizeOfOrder_eq_two_pow, power]
  refine pow_dvd_pow 2 ?_
  obtain small | large := lt_or_ge exponent 12
  · omega
  · have page : pageSize ∣ 2 ^ exponent := pow_dvd_pow 2 large
    have fits := Session.size_le_greaterOrderOf page
    rw [sizeOfOrder_eq_two_pow] at fits
    exact (Nat.pow_le_pow_iff_right (by decide)).mp fits

theorem Layout.align_dvd (layout : Layout) : layout.align ∣ sizeOfOrder layout.order :=
  layout.align_dvd_sizeOfOrder.trans (sizeOfOrder_dvd (le_max_right _ _))

namespace Allocator

variable {state after : Allocator cpus} {live memory : Set Nat} {cpu : Fin cpus} {layout : Layout} {addr : Nat}

variable {kind : CacheKind}

theorem align_le_of_servedBy (served : servedBy layout = some kind) :
    layout.align ≤ 4 * pageSize := by
  unfold servedBy at served
  split at served
  · simp at served
  · have few : layout.size / pageSize ≤ 4 := by
      unfold CacheKind.ofFrames at served
      split at served
      all_goals first | omega | simp at served
    obtain ⟨frames, size⟩ := layout.pages
    rw [size, Nat.mul_div_cancel_left _ (by decide)] at few
    have bound : pageSize * frames ≤ pageSize * 4 := mul_le_mul_left _ few
    omega

theorem fillLayout_aligned (served : servedBy layout = some kind) :
    layout.align ∣ sizeOfOrder kind.fillLayout.order := by
  have four : sizeOfOrder 2 ∣ sizeOfOrder kind.fillLayout.order := by
    refine sizeOfOrder_dvd ?_
    cases kind <;> decide
  have bound := align_le_of_servedBy served
  obtain ⟨exponent, power⟩ := layout.power
  refine Dvd.dvd.trans ?_ four
  rw [sizeOfOrder_eq_two_pow, power]
  refine Nat.pow_dvd_pow 2 ((Nat.pow_le_pow_iff_right (by decide : 1 < 2)).mp ?_)
  rw [power] at bound
  exact bound

/-- What the call promises: an address that it returns is aligned and begins a range of the layout's size
that was free. -/
def Honours (state : Allocator cpus) (live memory : Set Nat) (cpu : Fin cpus) (layout : Layout) : Prop :=
  ∀ after addr, state.alloc cpu layout = .ok (after, some addr) →
    layout.align ∣ addr ∧ range addr layout.size ⊆ memory \ live

def FrontAligned (state : Allocator cpus) (cpu : Fin cpus) (layout : Layout) : Prop :=
  ∀ kind, servedBy layout = some kind →
    ∀ front, (state.caches (cpu, kind)).segments.head? = some front → layout.align ∣ front

theorem cacheAlloc_of_alloc (ran : state.alloc cpu layout = .ok (after, some addr)) :
    ∃ next, state.cacheAlloc cpu layout = .ok (next, some addr) := by
  obtain ⟨⟨next, result⟩, served, rest⟩ := bind_eq_ok.mp ran
  cases result with
  | none => simp [pure_eq_ok] at rest
  | some found =>
    simp only [pure_eq_ok, Except.ok.injEq, Prod.mk.injEq, Option.some.injEq] at rest
    rw [rest.2] at served
    exact ⟨next, served⟩

theorem cacheArrayAlloc_front (ran : state.cacheArrayAlloc cpu kind = .ok (after, some addr)) :
    (state.caches (cpu, kind)).segments.head? = some addr ∨
      ∃ next, state.poolsAlloc cpu kind.fillLayout = .ok (next, some addr) := by
  unfold cacheArrayAlloc at ran
  cases contents : (state.caches (cpu, kind)).segments with
  | cons front rest =>
    obtain ⟨left, popped, _⟩ := CacheArray.popFront_of_cons contents
    rw [popped] at ran
    simp only [Except.ok.injEq, Prod.mk.injEq, Option.some.injEq] at ran
    exact .inl (congrArg some ran.2)
  | nil =>
    rw [CacheArray.popFront_of_nil contents] at ran
    obtain ⟨⟨next, result⟩, taken, rest⟩ := bind_eq_ok.mp ran
    cases result with
    | none => simp [pure_eq_ok] at rest
    | some found =>
      simp only [pure_eq_ok, Except.ok.injEq, Prod.mk.injEq, Option.some.injEq] at rest
      rw [rest.2] at taken
      exact .inr ⟨next, taken⟩

theorem alloc_aligned (sound : state.Sound) (front : state.FrontAligned cpu layout)
    (ran : state.alloc cpu layout = .ok (after, some addr)) : layout.align ∣ addr := by
  obtain ⟨next, served⟩ := cacheAlloc_of_alloc ran
  rw [cacheAlloc_eq] at served
  cases kind : servedBy layout with
  | none =>
    rw [kind] at served
    exact layout.align_dvd.trans ((poolsAlloc_rule sound layout).of_ok served).2.2.1
  | some kind' =>
    rw [kind] at served
    obtain cached | ⟨_, filled⟩ := cacheArrayAlloc_front served
    · exact front kind' kind addr cached
    · exact (fillLayout_aligned kind).trans ((poolsAlloc_rule sound _).of_ok filled).2.2.1

theorem alloc_front {front : Nat} (served : servedBy layout = some kind)
    (cached : (state.caches (cpu, kind)).segments.head? = some front) :
    ∃ after, state.alloc cpu layout = .ok (after, some front) := by
  cases contents : (state.caches (cpu, kind)).segments with
  | nil => simp [contents] at cached
  | cons first rest =>
    obtain rfl : first = front := by simpa [contents] using cached
    obtain ⟨left, popped, _⟩ := CacheArray.popFront_of_cons contents
    unfold alloc
    rw [cacheAlloc_eq, served]
    simp only [cacheArrayAlloc, popped, bind_ok, pure_eq_ok]
    exact ⟨_, rfl⟩

/-- After any run, a call honours its layout exactly when the segment in front of the cache that serves it,
if there is one, has the layout's alignment. -/
theorem honours_iff (run : Run cpus state live memory) (cpu : Fin cpus) (layout : Layout) :
    state.Honours live memory cpu layout ↔ state.FrontAligned cpu layout := by
  have consistent := run.consistent
  constructor
  · intro honours kind served front cached
    obtain ⟨after, ran⟩ := alloc_front served cached
    exact (honours after front ran).1
  · intro front after addr ran
    refine ⟨alloc_aligned consistent.sound front ran, ?_⟩
    exact (consistent.allocates.of_ok ran).2.1

def evenLayout : Layout where
  size := pageSize * 3
  align := pageSize * 2
  pages := dvd_mul_right _ _
  power := ⟨13, rfl⟩

set_option maxRecDepth 40000 in
/-- The first call for three pages on an even page is honoured. -/
theorem honours_fresh : ∃ state : Allocator 1, ∃ memory, Run 1 state ∅ memory ∧
    state.Honours ∅ memory 0 evenLayout ∧ ∃ after, state.alloc 0 evenLayout = .ok (after, some 0) := by
  have added := @Run.addFreeMemory 1 _ _ _ 0 (pageSize * 0) (pageSize * 16) _ .new
    (Set.disjoint_left.mpr fun _ member => member.elim) (fits_frames 0 16 (by omega)) rfl
  refine ⟨_, _, added, (honours_iff added 0 evenLayout).mpr ?_, _, rfl⟩
  intro kind _ front cached
  have nothing : none = some front := cached
  exact absurd nothing (by simp)

set_option maxRecDepth 40000 in
/-- The second call gets the last segment of the cache that the first one filled, at page nine. -/
theorem alloc_misaligned : ∃ state : Allocator 1, ∃ live memory, Run 1 state live memory ∧
    (∃ after, state.alloc 0 evenLayout = .ok (after, some (pageSize * 9))) ∧
      ¬evenLayout.align ∣ pageSize * 9 := by
  have added := @Run.addFreeMemory 1 _ _ _ 0 (pageSize * 0) (pageSize * 16) _ .new
    (Set.disjoint_left.mpr fun _ member => member.elim) (fits_frames 0 16 (by omega)) rfl
  have allocated := @Run.alloc 1 _ _ _ 0 evenLayout _ 0 added (added.consistent.allocates.of_ok rfl).1 rfl
  exact ⟨_, _, _, allocated, ⟨_, rfl⟩, by decide⟩

end Allocator

end Kei.FrameAllocator
