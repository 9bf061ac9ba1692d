import Kei.FrameAllocator.Conservation
import Kei.FrameAllocator.BuddyExact
import Mathlib.Algebra.BigOperators.Fin

/-! The runs of the allocator: any calls, on any CPUs, in any order. -/

namespace Kei.FrameAllocator

open Library Checked List

def range (addr size : Nat) : Set Nat := Set.Ico addr (addr + size)

theorem mem_range {addr size point : Nat} : point ∈ range addr size ↔ covers point addr size = 1 := by
  rw [covers_eq_one]
  rfl

variable {cpus : Nat}

namespace Allocator

variable {state : Allocator cpus} {live memory : Set Nat}

/-- The state, the allocated addresses and the addresses added after a sequence of calls. Callers return
what was allocated, in any pieces, and add what was not added before. -/
inductive Run (cpus : Nat) : Allocator cpus → Set Nat → Set Nat → Prop
  | new : Run cpus (new cpus) ∅ ∅
  | alloc {state live memory cpu layout after addr} : Run cpus state live memory → state.AllocRoomy cpu layout →
      state.alloc cpu layout = .ok (after, some addr) → Run cpus after (live ∪ range addr layout.size) memory
  | refuse {state live memory cpu layout after} : Run cpus state live memory → state.AllocRoomy cpu layout →
      state.alloc cpu layout = .ok (after, none) → Run cpus after live memory
  | dealloc {state live memory cpu addr size after} : Run cpus state live memory → pageSize ∣ addr →
      pageSize ∣ size →
      range addr size ⊆ live → state.DeallocRoomy cpu addr size → state.dealloc cpu addr size = .ok after →
      Run cpus after (live \ range addr size) memory
  | addFreeMemory {state live memory cpu addr size after} : Run cpus state live memory →
      Disjoint memory (range addr size) → Session.Fits [(addr, size)] →
      state.addFreeMemory cpu addr size = .ok after → Run cpus after live (memory ∪ range addr size)

open Classical in
/-- Every address that was added has exactly one holder, a pool, a cache or the caller it was allocated to,
and no other address has one. -/
def Partition (state : Allocator cpus) (live memory : Set Nat) : Prop :=
  ∀ point, state.weigh (covers point) + (if point ∈ live then 1 else 0) = if point ∈ memory then 1 else 0

/-- The recorded sizes: of each pool, of the global pool in the snapshot, and of all that is free. The last
is a sum of counters that wrap, so it can be read back as long as it is representable. -/
structure Recorded (state : Allocator cpus) : Prop where
  pools : ∀ pool, (state.sets pool).totalSize =
    ∑ order ∈ Finset.range pool.maxOrder, ((state.sets pool).lists order).length * sizeOfOrder order
  snapshot : state.globalPoolSize = (state.sets .global).totalSize
  free : (state.weigh fun _ size => size) < 2 ^ 63 → state.loadTotalFreeSize = state.weigh fun _ size => size

theorem sum_countFree (state : Allocator cpus) (cpu : Fin cpus) (change : BitVec 64) :
    ∑ other, (state.countFree cpu change).totalFreeSize other = ∑ other, state.totalFreeSize other + change := by
  unfold countFree
  dsimp only
  rw [Finset.sum_update_of_mem (Finset.mem_univ cpu),
    Finset.sum_eq_add_sum_sdiff_singleton_of_mem (Finset.mem_univ cpu)]
  ring

theorem loadTotalFreeSize_eq {free : Nat} (counted : ∑ cpu, state.totalFreeSize cpu = BitVec.ofNat 64 free)
    (small : free < 2 ^ 63) : state.loadTotalFreeSize = free := by
  have total : (finRange cpus).foldl (fun total cpu => total + state.totalFreeSize cpu) 0 =
      BitVec.ofNat 64 free := by
    rw [← counted, Fin.sum_univ_def, sum_eq_foldl, foldl_map]
  unfold loadTotalFreeSize
  rw [total, BitVec.toInt_ofNat', Int.bmod_eq_of_le (by omega) (by omega), Int.toNat_natCast]

theorem countFree_sound (sound : state.Sound) (cpu : Fin cpus) (change : BitVec 64) :
    (state.countFree cpu change).Sound := { sound with }

structure Consistent (state : Allocator cpus) (live memory : Set Nat) : Prop where
  sound : state.Sound
  partition : state.Partition live memory
  counted : ∑ cpu, state.totalFreeSize cpu = BitVec.ofNat 64 (state.weigh fun _ size => size)

theorem new_consistent (cpus : Nat) : (new cpus).Consistent ∅ ∅ := by
  have nothing : ∀ weight, (new cpus).weigh weight = 0 := by
    intro weight
    simp [weigh, Session.weigh, openSession, new, BuddySet.newEmpty, BuddySet.weigh, Shelves.total, CacheArray.weigh,
      CacheArray.new]
  refine ⟨new_sound cpus, fun point => ?_, ?_⟩
  · simp [nothing]
  · rw [nothing]
    simp [new]

section Steps

variable {cpu : Fin cpus} {addr size : Nat} {layout : Layout}

variable (consistent : state.Consistent live memory)
include consistent

theorem Consistent.allocates :
    Settles (state.AllocRoomy cpu layout) (state.alloc cpu layout) fun (after, result) =>
      match result with
      | none => after.Consistent live memory
      | some addr => range addr layout.size ⊆ memory \ live ∧
          after.Consistent (live ∪ range addr layout.size) memory := by
  refine (cacheAlloc_rule consistent.sound layout).returning ?_
  rintro ⟨after, result⟩ - outcome
  cases result with
  | none =>
    have changed : Changed state after (fun _ => 0) fun _ => 0 := outcome
    refine ⟨_, rfl, changed.sound, fun point => ?_, ?_⟩
    · have same : after.weigh (covers point) = state.weigh (covers point) := changed.weighs (covers_spread point)
      rw [same]
      exact consistent.partition point
    · have same : (after.weigh fun _ size => size) = state.weigh fun _ size => size := changed.weighs size_spread
      rw [same, changed.counters]
      exact consistent.counted
  | some addr =>
    have changed : Changed state after (fun _ => 0) fun weight => weight addr layout.size := outcome
    have taken : ∀ point, after.weigh (covers point) + covers point addr layout.size = state.weigh (covers point) :=
      fun point => changed.weighs (covers_spread point)
    refine ⟨_, rfl, ?_, countFree_sound changed.sound _ _, ?_, ?_⟩
    · intro point inside
      have := taken point
      have := consistent.partition point
      rw [mem_range.mp inside] at *
      rw [Set.mem_sdiff]
      grind
    · intro point
      show after.weigh (covers point) + _ = _
      have := taken point
      have := consistent.partition point
      have := @mem_range addr layout.size point
      have := covers_le_one point addr layout.size
      grind
    · rw [sum_countFree, changed.counters, consistent.counted]
      have less : (after.weigh fun _ size => size) + layout.size = state.weigh fun _ size => size :=
        changed.weighs size_spread
      show _ = BitVec.ofNat 64 (after.weigh fun _ size => size)
      rw [← less, BitVec.ofNat_add]
      ring

theorem Consistent.gains {after : Allocator cpus} {liveAfter memoryAfter : Set Nat}
    (changed : Changed (state.countFree cpu (BitVec.ofNat 64 size)) after (fun weight => weight addr size) fun _ => 0)
    (partition : ∀ point, after.weigh (covers point) = state.weigh (covers point) + covers point addr size →
      after.weigh (covers point) + (open Classical in if point ∈ liveAfter then 1 else 0) =
      open Classical in if point ∈ memoryAfter then 1 else 0) :
    after.Consistent liveAfter memoryAfter := by
  refine ⟨changed.sound, fun point => partition point (changed.weighs (covers_spread point)), ?_⟩
  have more : (after.weigh fun _ size => size) = (state.weigh fun _ size => size) + size := changed.weighs size_spread
  rw [more, changed.counters, sum_countFree, consistent.counted, BitVec.ofNat_add]

theorem Consistent.room {point : Nat} (unheld : covers point addr size = 1 → point ∈ live ∨ point ∉ memory) :
    state.weigh (covers point) + covers point addr size ≤ 1 := by
  have := consistent.partition point
  have := covers_le_one point addr size
  grind

theorem Consistent.deallocates (addrPage : pageSize ∣ addr) (sizePage : pageSize ∣ size)
    (allocated : range addr size ⊆ live) :
    Settles (state.DeallocRoomy cpu addr size) (state.dealloc cpu addr size) fun after =>
      after.Consistent (live \ range addr size) memory := by
  have inside : ∀ point, covers point addr size = 1 → point ∈ live :=
    fun point held => allocated (mem_range.mpr held)
  refine (cacheDealloc_rule (countFree_sound consistent.sound _ _) addrPage sizePage fun point => ?_).mono .rfl ?_
  · exact consistent.room fun held => .inl (inside point held)
  · intro after _ changed
    refine consistent.gains changed fun point more => ?_
    rw [more]
    have := consistent.partition point
    have := covers_le_one point addr size
    have := inside point
    have := @mem_range addr size point
    grind

theorem Consistent.adds (addrPage : pageSize ∣ addr) (sizePage : pageSize ∣ size)
    (apart : Disjoint memory (range addr size)) :
    Settles (Session.Fits [(addr, size)]) (state.addFreeMemory cpu addr size) fun after =>
      after.Consistent live (memory ∪ range addr size) := by
  have outside : ∀ point, covers point addr size = 1 → point ∉ memory :=
    fun point held member => Set.disjoint_left.mp apart member (mem_range.mpr held)
  refine (poolsAddFreeMemory_rule (countFree_sound consistent.sound _ _) addrPage sizePage fun point => ?_).mono .rfl ?_
  · have part : state.openSession.weigh (covers point) ≤ state.weigh (covers point) := Nat.le_add_right _ _
    exact (Nat.add_le_add_right part _).trans (consistent.room fun held => .inr (outside point held))
  · intro after _ changed
    refine consistent.gains changed fun point more => ?_
    rw [more]
    have := consistent.partition point
    have := covers_le_one point addr size
    have := outside point
    have := @mem_range addr size point
    grind

end Steps

theorem Run.consistent (run : Run cpus state live memory) : state.Consistent live memory := by
  induction run with
  | new => exact new_consistent cpus
  | alloc _ _ ran ih => exact (ih.allocates.of_ok ran).2.2
  | refuse _ _ ran ih => exact (ih.allocates.of_ok ran).2
  | dealloc _ addrPage sizePage allocated _ ran ih => exact ((ih.deallocates addrPage sizePage allocated).of_ok ran).2
  | addFreeMemory _ apart fits ran ih =>
    obtain ⟨addrPage, sizePage, -⟩ := fits _ mem_cons_self
    exact ((ih.adds addrPage sizePage apart).of_ok ran).2

theorem Consistent.recorded (consistent : state.Consistent live memory) : state.Recorded where
  pools := fun pool => (consistent.sound.pools.each pool).counted.trans (state.sets pool).weigh_size
  snapshot := consistent.sound.snapshot
  free := loadTotalFreeSize_eq consistent.counted

/-- In every run that never balances over less than a page and adds no chunk beyond the buddy system, the
memory is exactly partitioned, all sizes are recorded, nothing is handed out twice, and the next call returns
exactly if it keeps to the same conditions. -/
theorem partition_of_run (run : Run cpus state live memory) :
    state.Partition live memory ∧ state.Recorded ∧
      (∀ cpu layout after addr, state.alloc cpu layout = .ok (after, some addr) →
        range addr layout.size ⊆ memory \ live) ∧
      (∀ cpu layout, (∃ after, state.alloc cpu layout = .ok after) ↔ state.AllocRoomy cpu layout) ∧
      (∀ cpu addr size, pageSize ∣ addr → pageSize ∣ size → range addr size ⊆ live →
        ((∃ after, state.dealloc cpu addr size = .ok after) ↔ state.DeallocRoomy cpu addr size)) ∧
      ∀ cpu addr size, pageSize ∣ addr → pageSize ∣ size → Disjoint memory (range addr size) →
        ((∃ after, state.addFreeMemory cpu addr size = .ok after) ↔ Session.Fits [(addr, size)]) := by
  have consistent := run.consistent
  refine ⟨consistent.partition, consistent.recorded, ?_, ?_, ?_, ?_⟩
  · intro cpu layout after addr ran
    exact (consistent.allocates.of_ok ran).2.1
  · exact fun cpu layout => consistent.allocates.exists_iff
  · exact fun cpu addr size addrPage sizePage allocated =>
      (consistent.deallocates addrPage sizePage allocated).exists_iff
  · exact fun cpu addr size addrPage sizePage apart => (consistent.adds addrPage sizePage apart).exists_iff

def framesLayout (frames : Nat) : Layout where
  size := pageSize * frames
  align := pageSize
  pages := Nat.dvd_mul_right _ _
  power := pageSize_power

theorem fits_frames (first frames : Nat) (few : frames ≤ 16) :
    Session.Fits [(pageSize * first, pageSize * frames)] := by
  refine Session.fits_of_small fun segment member => ?_
  rw [mem_singleton.mp member]
  refine ⟨Nat.dvd_mul_right _ _, Nat.dvd_mul_right _ _, ?_⟩
  calc pageSize * frames ≤ pageSize * 16 := Nat.mul_le_mul_left _ few
    _ < sizeOfOrder maxBuddyOrder := by decide

set_option maxRecDepth 40000 in
/-- Eight pages are added and one is allocated: seven stay in the cache of the CPU. -/
theorem partition_of_run_cached : ∃ state : Allocator 1, (state.caches (0, .cache1)).segments.length = 7 ∧
    state.Partition (∅ ∪ range 0 (pageSize * 1)) (∅ ∪ range (pageSize * 0) (pageSize * 8)) := by
  have added := @Run.addFreeMemory 1 _ _ _ 0 (pageSize * 0) (pageSize * 8) _ .new
    (Set.disjoint_left.mpr fun _ member => member.elim) (fits_frames 0 8 (by omega)) rfl
  have allocated := @Run.alloc 1 _ _ _ 0 (framesLayout 1) _ 0 added (added.consistent.allocates.of_ok rfl).1 rfl
  exact ⟨_, rfl, (partition_of_run allocated).1⟩

set_option maxRecDepth 40000 in
/-- One CPU has eight pages and one page that is apart from them. An allocation of the eight takes them out
of the pools, and then the balancing panics: it wants to move half a page. -/
theorem balance_panics_on_half_page : ∃ state : Allocator 1,
    Run 1 state ∅ (∅ ∪ range (pageSize * 0) (pageSize * 8) ∪ range (pageSize * 16) (pageSize * 1)) ∧
      state.alloc 0 (framesLayout 8) = .error .subOverflow ∧
      ∃ session, state.openSession.takeLayout 0 (framesLayout 8) = .ok (session, some 0) ∧
        session.weigh (covers 0) = 0 := by
  have first := @Run.addFreeMemory 1 _ _ _ 0 (pageSize * 0) (pageSize * 8) _ .new
    (Set.disjoint_left.mpr fun _ member => member.elim) (fits_frames 0 8 (by omega)) rfl
  have apart : Disjoint (∅ ∪ range (pageSize * 0) (pageSize * 8)) (range (pageSize * 16) (pageSize * 1)) := by
    refine Set.disjoint_left.mpr fun point member other => ?_
    simp only [range, pageSize, Set.mem_union, Set.mem_empty_iff_false, false_or, Set.mem_Ico] at member other
    omega
  have second := @Run.addFreeMemory 1 _ _ _ 0 (pageSize * 16) (pageSize * 1) _ first apart
    (fits_frames 16 1 (by omega)) rfl
  exact ⟨_, second, rfl, _, rfl, rfl⟩

end Allocator

end Kei.FrameAllocator
