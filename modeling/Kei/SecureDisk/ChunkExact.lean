import Kei.SecureDisk.ChunkReplay

/-! Chunk allocation by interleaved transactions that deallocate only what they may. -/

namespace Kei.SecureDisk

open Library Checked ChunkAllocState List

theorem ChunkAllocState.freeChunks_eq_nil {state : ChunkAllocState} (counted : state.Counted) :
    state.freeChunks = [] ↔ state.freeCount = 0 := by
  rw [counted.free, count_eq_zero, eq_nil_iff_forall_not_mem]
  simp only [mem_freeChunks]
  simp only [mem_iff_getElem?, not_exists]

theorem ChunkAllocState.allocMany_returns_iff {state : ChunkAllocState} {count : Nat} (counted : state.Counted)
    (ids : List Nat) : (∃ result, allocMany count ids state = .ok result) ↔ count ≤ state.freeCount := by
  induction count generalizing ids state with
  | zero => exact iff_of_true ⟨_, rfl⟩ (Nat.zero_le _)
  | succ count ih =>
    have none_left := freeChunks_eq_nil counted
    cases free : state.freeChunks with
    | nil =>
      obtain ⟨panic, stuck⟩ := alloc_of_full counted free
      rw [none_left.1 free, allocMany, stuck]
      exact iff_of_false (by rintro ⟨_, ⟨⟩⟩) (Nat.not_succ_le_zero _)
    | cons id rest =>
      have clear : state.allocMap[id]? = some false := mem_freeChunks.1 (free ▸ mem_cons_self)
      rw [allocMany, alloc_of_free counted free, bind_ok]
      refine (ih (counted_taking counted clear) _).trans ?_
      simp only [free, reduceCtorEq, false_iff] at none_left
      simp only [taking]
      omega

theorem ChunkAllocEdit.allocAll_returns {edit : ChunkAllocEdit} {ids : List Nat} (distinct : ids.Nodup)
    (fresh : ∀ id ∈ ids, edit.editTable.get id = none) : ∃ grown, ids.foldlM alloc edit = .ok grown := by
  induction ids generalizing edit with
  | nil => exact ⟨edit, rfl⟩
  | cons first rest ih =>
    obtain ⟨unlisted, distinct⟩ := nodup_cons.1 distinct
    have one : edit.alloc first = .ok ⟨edit.editTable.insert first .alloc⟩ := by
      simp [alloc, fresh first mem_cons_self, assert, bind_ok, pure_eq_ok]
    rw [foldlM_cons, one, bind_ok]
    refine ih distinct fun id member => ?_
    have different : id ≠ first := fun same => unlisted (same ▸ member)
    rw [SortedMap.get_insert, if_neg different, fresh id (mem_cons_of_mem _ member)]

namespace ChunkAlloc

variable {capacity tid count : Nat} {chunks after : ChunkAlloc} {edit : ChunkAllocEdit}

/-- What an ongoing transaction has deallocated, and not just allocated, belongs to a committed one. -/
def Promised (chunks : ChunkAlloc) : Prop :=
  ∀ tid edit id, chunks.txs.get tid = some edit → edit.editTable.get id = some .dealloc → Owns chunks.committed id

/-- The states between two recoveries, if every transaction keeps the promise. -/
inductive Reaches (capacity : Nat) : ChunkAlloc → Prop
  | new : Reaches capacity (.new capacity)
  | step {before event after} : Reaches capacity before → event ≠ .recover → before.step event = .ok after →
      after.Promised → Reaches capacity after

theorem Reaches.promised (reached : Reaches capacity chunks) : chunks.Promised := by
  cases reached with
  | new =>
    intro tid edit id found
    simp [ChunkAlloc.new] at found
  | step _ _ _ promised => exact promised

theorem Reaches.accounts (reached : Reaches capacity chunks) : Accounts capacity chunks := by
  induction reached with
  | new => exact accounts_new capacity
  | @step before event after reached live ran _ ih =>
    refine Meets.of_ok (?_ : Ensures (before.step event) (Accounts capacity)) ran
    cases event with
    | newTx tid => exact ih.newTx
    | alloc tid => exact ih.alloc.bind fun _ kept => kept.1
    | allocBatch tid count => exact (ih.allocBatch count).bind fun _ kept => kept.1
    | dealloc tid id => exact (ih.dealloc id).mono fun _ kept => kept.1
    | deallocBatch tid ids => exact (ih.deallocBatch ids).mono fun _ kept => kept.1
    | abort tid => exact ih.abort.mono fun _ kept => kept.1
    | recover => exact absurd rfl live
    | commit tid =>
      refine ih.commit.mono ?_
      rintro next (⟨-, kept⟩ | ⟨edit, found, -, -, kept⟩)
      · exact kept
      · exact kept fun id member => reached.promised tid edit id found (ChunkAllocEdit.mem_chunksWith.1 member)

section Accounts

variable (accounts : Accounts capacity chunks) (found : chunks.txs.get tid = some edit)
include accounts found

theorem Accounts.exists_abort : ∃ after, chunks.abort tid = .ok after ∧ after.txs = chunks.txs.remove tid := by
  have marked : ∀ id ∈ edit.allocatedChunks, chunks.state.Allocated id := fun id member =>
    (accounts.allocated id).2 (.inr ⟨tid, edit, found, ChunkAllocEdit.mem_chunksWith.1 member⟩)
  have distinct : edit.allocatedChunks.Nodup := ChunkAllocEdit.nodup_chunksWith
  obtain ⟨state, ran, -⟩ := (deallocAll_returns accounts.counted distinct marked).exists_ok
  exact ⟨_, by rw [ChunkAlloc.abort, found, unwrap, bind_ok, ran]; rfl, rfl⟩

theorem Accounts.allocBatch_of_enough (promised : chunks.Promised) (enough : count ≤ chunks.state.freeCount) :
    ∃ ids after, chunks.allocBatch tid count = .ok (some ids, after) ∧
      ids.length = count ∧ ids.Nodup ∧ ∀ id ∈ ids, ¬chunks.state.Allocated id := by
  obtain ⟨⟨_, state⟩, ran⟩ := (allocMany_returns_iff accounts.counted []).2 enough
  obtain ⟨ids, rfl, length, distinct, unused, -⟩ := (allocMany_ensures count accounts.counted).of_ok ran
  have sorted := perm_insertionSort (· ≤ ·) ids
  have fresh : ∀ id ∈ ids.insertionSort (· ≤ ·), edit.editTable.get id = none := by
    intro id member
    have free := unused id (sorted.mem_iff.1 member)
    rw [accounts.allocated, not_or] at free
    cases entry : edit.editTable.get id with
    | none => rfl
    | some kind =>
      cases kind with
      | alloc => exact absurd ⟨tid, edit, found, entry⟩ free.2
      | dealloc => exact absurd (promised tid edit id found entry) free.1
  obtain ⟨grown, recorded⟩ := ChunkAllocEdit.allocAll_returns (sorted.nodup_iff.2 distinct) fresh
  refine ⟨ids.insertionSort (· ≤ ·), { chunks with state := state, txs := chunks.txs.insert tid grown }, ?_,
    sorted.length_eq.trans length, sorted.nodup_iff.2 distinct, fun id member => unused id (sorted.mem_iff.1 member)⟩
  rw [ChunkAlloc.allocBatch, ran, bind_ok]
  simp only [nil_append, found, unwrap, bind_ok, recorded]
  rfl

end Accounts

/-- What is asked of the allocator in a state in which transaction `tid` is ongoing. -/
structure Exact (chunks : ChunkAlloc) (tid count : Nat) : Prop where
  alone : ∀ one other id, Holds chunks.txs one id → Holds chunks.txs other id → other = one
  unowned : ∀ one id, Holds chunks.txs one id → ¬Owns chunks.committed id
  alloc : ∃ result after, chunks.alloc tid = .ok (result, after) ∧
    (result = none ↔ chunks.state.allocMap.count false = 0) ∧ (result = none → after = chunks) ∧
    ∀ id ∈ result, ¬chunks.state.Allocated id
  allocBatch : ∃ result after, chunks.allocBatch tid count = .ok (result, after) ∧
    (result = none ↔ chunks.state.allocMap.count false < count) ∧ (result = none → after = chunks) ∧
    ∀ ids ∈ result, ids.length = count ∧ ids.Nodup ∧ ∀ id ∈ ids, ¬chunks.state.Allocated id
  abort : ∃ after, chunks.abort tid = .ok after ∧
    ∀ id, after.state.Allocated id ↔ Owns chunks.committed id ∨ ∃ other ≠ tid, Holds chunks.txs other id

theorem allocation_exact_iff (reached : Reaches capacity chunks) (found : chunks.txs.get tid = some edit)
    (count : Nat) :
    chunks.Exact tid count ↔ 0 < chunks.state.allocMap.count false ∧
      count ≤ chunks.state.allocMap.count false := by
  have accounts := reached.accounts
  rw [← accounts.counted.free]
  constructor
  · intro exact
    refine ⟨?_, ?_⟩
    · obtain ⟨_, _, ran, -⟩ := exact.alloc
      rw [alloc_eq_allocBatch] at ran
      obtain ⟨_, batch, -⟩ := bind_eq_ok.1 ran
      obtain ⟨result, taken, -⟩ := bind_eq_ok.1 batch
      exact (allocMany_returns_iff accounts.counted []).1 ⟨result, taken⟩
    · obtain ⟨_, _, batch, -⟩ := exact.allocBatch
      obtain ⟨result, taken, -⟩ := bind_eq_ok.1 batch
      exact (allocMany_returns_iff accounts.counted []).1 ⟨result, taken⟩
  · rintro ⟨some_left, enough⟩
    obtain ⟨ids, after, ran, fits⟩ := accounts.allocBatch_of_enough found reached.promised enough
    obtain ⟨first, left, one, single, -, unused⟩ := accounts.allocBatch_of_enough found reached.promised some_left
    obtain ⟨id, rfl⟩ := length_eq_one_iff.1 single
    obtain ⟨aborted, left_all, txs⟩ := accounts.exists_abort found
    refine ⟨accounts.alone, accounts.unowned, ⟨some id, left, ?_, ?_, nofun, ?_⟩,
      ⟨some ids, after, ran, ?_, nofun, ?_⟩, ⟨aborted, left_all, ?_⟩⟩
    · rw [alloc_eq_allocBatch, one]
      rfl
    · simp [← accounts.counted.free, some_left.ne']
    · simpa using unused
    · simp [← accounts.counted.free, enough]
    · simpa using fits
    · intro id
      obtain ⟨after, log⟩ := accounts.abort.of_ok left_all
      rw [after.allocated, log, txs]
      simp only [holds_remove, ne_eq]

theorem Reaches.allocs (reached : Reaches capacity chunks) (event : Event) (live : event ≠ .recover)
    (ran : chunks.step event = .ok after)
    (allocs : ∀ tx ∈ after.txs.entries, ∀ entry ∈ tx.2.editTable.entries, entry.2 = .alloc) :
    Reaches capacity after := by
  refine .step reached live ran fun tid edit id found entry => ?_
  cases allocs _ (SortedMap.get_eq_some.mp found) _ (SortedMap.get_eq_some.mp entry)

/-- One transaction has committed a chunk, and two that have one each are ongoing. -/
theorem exact_beside : ∃ chunks, Reaches 6 chunks ∧ Owns chunks.committed 0 ∧ Holds chunks.txs 1 1 ∧
    Holds chunks.txs 2 2 ∧ chunks.Exact 2 3 := by
  have first := (@Reaches.new 6).allocs (.newTx 0) nofun rfl (by decide)
  have committed := (first.allocs (.alloc 0) nofun rfl (by decide)).allocs (.commit 0) nofun rfl (by decide)
  have second := (committed.allocs (.newTx 1) nofun rfl (by decide)).allocs (.allocBatch 1 1) nofun rfl (by decide)
  have reached := (second.allocs (.newTx 2) nofun rfl (by decide)).allocs (.alloc 2) nofun rfl (by decide)
  exact ⟨_, reached, ⟨[], _, [], rfl, rfl, nofun⟩, ⟨_, rfl, rfl⟩, ⟨_, rfl, rfl⟩,
    (allocation_exact_iff reached rfl 3).2 (by decide)⟩

/-- Allocating from a full map panics instead of returning `None`. -/
theorem alloc_panics_on_full : ∃ chunks, run 1 [.newTx 0, .alloc 0] = .ok chunks ∧
    chunks.state.allocMap.count false = 0 ∧ chunks.alloc 0 = .error .unwrapNone ∧
    chunks.allocBatch 0 1 = .error .unwrapNone :=
  ⟨_, rfl, rfl, rfl, rfl⟩

end ChunkAlloc

end Kei.SecureDisk
