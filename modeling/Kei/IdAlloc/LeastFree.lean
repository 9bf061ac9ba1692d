import Kei.IdAlloc.IdAlloc
import Mathlib.Data.List.Range
import Mathlib.Data.List.Nodup

/-! The id allocator over its whole life: which ids are held, and that the ids it gives out are
the least free ones. -/

namespace Kei.IdAlloc

open Library Checked List

variable {capacity : Nat} {held range : List Nat} {start stop id : Nat}

def marked (capacity : Nat) (held : List Nat) : List Bool :=
  (List.range capacity).map fun id => decide (id ∈ held)

theorem length_marked (capacity : Nat) (held : List Nat) : (marked capacity held).length = capacity := by
  simp [marked]

theorem getElem?_marked (inside : id < capacity) : (marked capacity held)[id]? = some (decide (id ∈ held)) := by
  simp [marked, inside]

theorem index_marked (inside : id < capacity) : index (marked capacity held) id = .ok (decide (id ∈ held)) :=
  index_getElem? (getElem?_marked inside)

theorem store_marked {value : Bool} {after : List Nat} (inside : id < capacity)
    (changed : ∀ other, other ∈ after ↔ if other = id then value = true else other ∈ held) :
    store (marked capacity held) id value = .ok (marked capacity after) := by
  rw [store, length_marked, if_pos inside]
  refine congrArg Except.ok (ext_getElem? fun other => ?_)
  by_cases bound : other < capacity
  · rw [List.getElem?_set, length_marked, if_pos inside, getElem?_marked bound, getElem?_marked bound]
    have here := changed other
    by_cases same : other = id
    · rw [if_pos same] at here
      simp [same.symm, here]
    · rw [if_neg same] at here
      simp [Ne.symm same, here]
  · have beyond : capacity ≤ other := Nat.not_lt.mp bound
    rw [List.getElem?_eq_none (by simpa [length_marked] using beyond),
      List.getElem?_eq_none (by simpa [length_marked] using beyond)]

theorem storeAll_marked (inside : ∀ id ∈ range, id < capacity) :
    storeAll true (marked capacity held) range = .ok (marked capacity (range.reverse ++ held)) := by
  induction range generalizing held with
  | nil => rfl
  | cons first rest ih =>
    have stored : store (marked capacity held) first true = .ok (marked capacity (first :: held)) := by
      refine store_marked (inside first mem_cons_self) fun other => ?_
      by_cases same : other = first <;> simp [same]
    rw [storeAll, foldlM_cons, stored, bind_ok, ← storeAll,
      ih fun id member => inside id (mem_cons_of_mem _ member), reverse_cons, append_assoc]
    rfl

theorem clearAll_marked (distinct : range.Nodup) (inside : ∀ id ∈ range, id < capacity ∧ id ∈ held) :
    clearAll (marked capacity held) range = .ok (marked capacity (held.filter (· ∉ range))) := by
  induction range generalizing held with
  | nil => simp [clearAll, pure_eq_ok]
  | cons first rest ih =>
    obtain ⟨fresh, others⟩ := nodup_cons.mp distinct
    obtain ⟨bound, listed⟩ := inside first mem_cons_self
    have stored : store (marked capacity held) first false =
        .ok (marked capacity (held.filter (· ≠ first))) := by
      refine store_marked bound fun other => ?_
      by_cases same : other = first <;> simp [same]
    rw [clearAll, foldlM_cons, index_marked bound, bind_ok, decide_eq_true listed, assert, if_pos rfl,
      bind_ok, stored, bind_ok, ← clearAll, ih others]
    · refine congrArg (fun left => Except.ok (marked capacity left)) ?_
      rw [filter_filter]
      refine filter_congr fun id _ => ?_
      simp [Bool.and_comm]
    · intro id member
      obtain ⟨below, kept⟩ := inside id (mem_cons_of_mem _ member)
      refine ⟨below, mem_filter.mpr ⟨kept, ?_⟩⟩
      simpa using fun same : id = first => fresh (same ▸ member)

structure LeastFree (capacity : Nat) (held : List Nat) (first : Nat) : Prop where
  le : first ≤ capacity
  free : first ∉ held
  below : ∀ id < first, id ∈ held

theorem free_marked (inside : id < capacity) : ((marked capacity held)[id]? == some false) = !decide (id ∈ held) := by
  rw [getElem?_marked inside]
  cases decide (id ∈ held) <;> rfl

theorem leastFree_findFrom (inside : ∀ id ∈ held, id < capacity) (le : start ≤ capacity)
    (below : ∀ id < start, id ∈ held) : LeastFree capacity held (findFrom (marked capacity held) start) := by
  rw [findFrom, length_marked]
  cases found : (List.range' start (capacity - start)).find? fun id => (marked capacity held)[id]? == some false with
  | none =>
    have none := List.find?_range'_eq_none.mp found
    refine ⟨le_rfl, fun member => absurd (inside _ member) (lt_irrefl _), fun id bound => ?_⟩
    dsimp only [Option.getD_none] at bound
    by_cases early : id < start
    · exact below id early
    · have taken := none id (by omega) (by omega)
      rw [free_marked bound] at taken
      simpa using taken
  | some first =>
    obtain ⟨free, listed, passed⟩ := List.find?_range'_eq_some.mp found
    have bound : first < capacity := by
      rw [mem_range'_1] at listed
      omega
    rw [free_marked bound] at free
    refine ⟨bound.le, by simpa using free, fun id early => ?_⟩
    dsimp only [Option.getD_some] at early
    by_cases before : id < start
    · exact below id before
    · have taken := passed id (by omega) early
      rw [free_marked (by omega)] at taken
      simpa using taken

structure FreeRun (capacity : Nat) (held : List Nat) (count start : Nat) : Prop where
  positive : 0 < count
  fits : start + count ≤ capacity
  free : ∀ id, start ≤ id → id < start + count → id ∉ held

/-- The current range of the scan: its ids are free, and no run starts before it. -/
structure Scanning (capacity : Nat) (held : List Nat) (count start stop : Nat) : Prop where
  order : start ≤ stop
  few : stop - start ≤ count
  bound : stop ≤ capacity
  free : ∀ id, start ≤ id → id < stop → id ∉ held
  none : ∀ earlier < start, ¬FreeRun capacity held count earlier

theorem scan_returns {count turns : Nat} (scanning : Scanning capacity held count start stop)
    (enough : capacity - stop < turns) :
    Returns (scan (marked capacity held) count turns (start, stop)) fun (first, last) =>
      Scanning capacity held count first last ∧ (last - first < count → last = capacity) := by
  induction turns generalizing start stop with
  | zero => omega
  | succ turns ih =>
    rw [scan, length_marked]
    refine meets_ite (fun more => ?_) fun done => ?_
    · rw [index_marked more.2, bind_ok]
      have grown := scanning.order
      by_cases taken : stop ∈ held
      · rw [decide_eq_true taken]
        refine ih ⟨le_rfl, by omega, more.2, fun id lower upper => by omega, ?_⟩ (by omega)
        intro earlier early run
        by_cases before : earlier < start
        · exact scanning.none earlier before run
        · exact run.free stop (by omega) (by omega) taken
      · rw [decide_eq_false taken]
        refine ih ⟨by omega, by omega, more.2, ?_, scanning.none⟩ (by omega)
        intro id lower upper
        by_cases last : id = stop
        · exact last ▸ taken
        · exact scanning.free id lower (by omega)
    · refine ⟨scanning, fun less => ?_⟩
      have bound := scanning.bound
      omega

/-! ### The calls -/

structure Exact (capacity : Nat) (ids : IdAlloc) (held : List Nat) : Prop where
  bitset : ids.bitset = marked capacity held
  inside : ∀ id ∈ held, id < capacity
  once : held.Nodup
  first : LeastFree capacity held ids.firstAvailableId

variable {ids : IdAlloc}

theorem exact_withCapacity (capacity : Nat) : Exact capacity (withCapacity capacity) [] where
  bitset := by
    refine ext_getElem? fun id => ?_
    by_cases bound : id < capacity
    · rw [getElem?_marked bound]
      simp [withCapacity, bound]
    · simp [withCapacity, marked, bound]
  inside := by simp
  once := nodup_nil
  first := ⟨Nat.zero_le _, by simp, fun id bound => absurd bound (Nat.not_lt_zero _)⟩

namespace Exact

variable {given : List Nat}

section

variable (exact : Exact capacity ids held)
include exact

theorem give {next : IdAlloc} (bitset : next.bitset = marked capacity (given ++ held))
    (bounded : ∀ id ∈ given, id < capacity) (fresh : ∀ id ∈ given, id ∉ held) (distinct : given.Nodup)
    (first : LeastFree capacity (given ++ held) next.firstAvailableId) : Exact capacity next (given ++ held) := by
  refine ⟨bitset, ?_, nodup_append.mpr ⟨distinct, exact.once, ?_⟩, first⟩
  · intro id member
    rcases mem_append.mp member with new | old
    · exact bounded id new
    · exact exact.inside id old
  · rintro id new _ old rfl
    exact fresh id new old

section

variable (bounded : ∀ id ∈ given, id < capacity) (fresh : ∀ id ∈ given, id ∉ held) (distinct : given.Nodup)
include bounded fresh distinct

theorem give_first (le : stop ≤ capacity) (all : ∀ id, ids.firstAvailableId ≤ id → id < stop → id ∈ given) :
    Exact capacity ⟨marked capacity (given ++ held), findFrom (marked capacity (given ++ held)) stop⟩
      (given ++ held) := by
  refine exact.give rfl bounded fresh distinct (leastFree_findFrom ?_ le ?_)
  · intro id member
    rcases mem_append.mp member with new | old
    · exact bounded id new
    · exact exact.inside id old
  · intro id early
    by_cases below : id < ids.firstAvailableId
    · exact mem_append_right _ (exact.first.below id below)
    · exact mem_append_left _ (all id (Nat.not_lt.mp below) early)

theorem give_other (other : ids.firstAvailableId ∉ given) :
    Exact capacity ⟨marked capacity (given ++ held), ids.firstAvailableId⟩ (given ++ held) := by
  refine exact.give rfl bounded fresh distinct ⟨exact.first.le, ?_, ?_⟩
  · intro member
    exact (mem_append.mp member).elim other exact.first.free
  · exact fun id below => mem_append_right _ (exact.first.below id below)

end

theorem store_one (inside : id < capacity) : store ids.bitset id true = .ok (marked capacity ([id] ++ held)) := by
  rw [exact.bitset]
  refine store_marked inside fun other => ?_
  by_cases same : other = id <;> simp [same]

theorem alloc_returns :
    Returns ids.alloc fun (result, next) => Exact capacity next (result.toList ++ held) ∧
      result = if ids.firstAvailableId < capacity then some ids.firstAvailableId else none := by
  unfold alloc
  rw [exact.bitset, length_marked, ← exact.bitset]
  refine meets_ite (fun some => ?_) fun full => ?_
  · dsimp only
    rw [exact.store_one some, bind_ok]
    refine ⟨exact.give_first ?_ ?_ (nodup_singleton _) some ?_, (if_pos some).symm⟩
    · simpa using some
    · simpa using exact.first.free
    · intro id lower upper
      exact mem_singleton.mpr (by omega)
  · exact ⟨exact, (if_neg full).symm⟩

theorem allocSpecific_returns (inside : id < capacity) :
    Returns (ids.allocSpecific id) fun (result, next) => Exact capacity next (result.toList ++ held) ∧
      result = if id ∈ held then none else some id := by
  unfold allocSpecific
  rw [exact.bitset, index_marked inside, bind_ok, ← exact.bitset]
  refine meets_ite (fun taken => ?_) fun free => ?_
  · exact ⟨exact, (if_pos (of_decide_eq_true taken)).symm⟩
  have fresh : id ∉ held := by simpa using free
  rw [exact.store_one inside, bind_ok, if_neg fresh]
  refine meets_ite (fun first => ?_) fun other => ?_
  · refine ⟨exact.give_first ?_ ?_ (nodup_singleton _) inside ?_, rfl⟩
    · simpa using inside
    · simpa using fresh
    · intro other lower upper
      exact mem_singleton.mpr (by omega)
  · refine ⟨exact.give_other ?_ ?_ (nodup_singleton _) ?_, rfl⟩
    · simpa using inside
    · simpa using fresh
    · simpa using Ne.symm other

end

def givenOf : Option (Nat × Nat) → List Nat
  | none => []
  | some (start, stop) => (List.range' start (stop - start)).reverse

variable (exact : Exact capacity ids held)
include exact

theorem allocConsecutive_returns (count : Nat) :
    Returns (ids.allocConsecutive count) fun (result, next) => Exact capacity next (givenOf result ++ held) ∧
      (∀ start stop, result = some (start, stop) → stop = start + count ∧ FreeRun capacity held count start ∧
        ∀ earlier < start, ¬FreeRun capacity held count earlier) ∧
      (result = none → ∀ start, ¬FreeRun capacity held count start) := by
  have first := exact.first
  have early : ∀ earlier < ids.firstAvailableId, ¬FreeRun capacity held count earlier := fun earlier below run =>
    run.free earlier le_rfl (Nat.lt_add_of_pos_right run.positive) (first.below earlier below)
  unfold allocConsecutive
  refine meets_ite (fun zero => ?_) fun positive => ?_
  · exact ⟨exact, nofun, fun _ start run => absurd zero run.positive.ne'⟩
  rw [exact.bitset, length_marked]
  refine meets_ite (fun large => ?_) fun fits => ?_
  · refine ⟨exact, nofun, fun _ start run => ?_⟩
    have fits := run.fits
    exact early start (by omega) run
  have scanning : Scanning capacity held count ids.firstAvailableId (ids.firstAvailableId + 1) := by
    refine ⟨Nat.le_succ _, by omega, by omega, fun id lower upper => ?_, early⟩
    obtain rfl : id = ids.firstAvailableId := by omega
    exact first.free
  refine (scan_returns scanning (by omega)).bind ?_
  rintro ⟨start, stop⟩ ⟨scanned, ended⟩
  have order := scanned.order
  have few := scanned.few
  dsimp only
  refine meets_ite (fun less => ?_) fun found => ?_
  · refine ⟨exact, nofun, fun _ other run => ?_⟩
    have fits := run.fits
    have last := ended less
    by_cases before : other < start
    · exact scanned.none other before run
    · omega
  have size : stop - start = count := by omega
  have bound := scanned.bound
  have listed : ∀ id, id ∈ (List.range' start count).reverse ↔ start ≤ id ∧ id < stop := by
    intro id
    rw [mem_reverse, mem_range'_1]
    omega
  have bounded : ∀ id ∈ (List.range' start count).reverse, id < capacity := fun id member =>
    ((listed id).mp member).2.trans_le bound
  have fresh : ∀ id ∈ (List.range' start count).reverse, id ∉ held := fun id member =>
    scanned.free id ((listed id).mp member).1 ((listed id).mp member).2
  have distinct : (List.range' start count).reverse.Nodup := nodup_reverse.mpr nodup_range'
  have leftmost : stop = start + count ∧ FreeRun capacity held count start ∧
      ∀ earlier < start, ¬FreeRun capacity held count earlier := by
    refine ⟨by omega, ⟨by omega, by omega, fun id lower upper => ?_⟩, scanned.none⟩
    exact scanned.free id lower (by omega)
  have result : ∀ first last, some (start, stop) = some (first, last) → last = first + count ∧
      FreeRun capacity held count first ∧ ∀ earlier < first, ¬FreeRun capacity held count earlier := by
    rintro _ _ ⟨⟩
    exact leftmost
  rw [size, storeAll_marked fun id member => bounded id (mem_reverse.mpr member), bind_ok,
    index_marked (by omega), bind_ok]
  refine meets_ite (fun taken => ?_) fun free => ?_
  · refine ⟨?_, result, nofun⟩
    rw [givenOf, size]
    have mine : ids.firstAvailableId ∈ (List.range' start count).reverse := by
      have taken := of_decide_eq_true taken
      exact (mem_append.mp taken).resolve_right first.free
    refine exact.give_first bounded fresh distinct bound fun id lower upper => (listed id).mpr ⟨?_, upper⟩
    exact ((listed _).mp mine).1.trans lower
  · refine ⟨?_, result, nofun⟩
    rw [givenOf, size]
    exact exact.give_other bounded fresh distinct fun mine =>
      free (decide_eq_true (mem_append_left _ mine))

theorem release (listed : start ∈ range) (least : ∀ id ∈ range, start ≤ id) : Exact capacity
      ⟨marked capacity (held.filter (· ∉ range)),
        if start < ids.firstAvailableId then start else ids.firstAvailableId⟩
      (held.filter (· ∉ range)) := by
  refine ⟨rfl, fun id member => exact.inside id (mem_of_mem_filter member), exact.once.filter _, ?_⟩
  have kept : ∀ id, id < start → id < ids.firstAvailableId → id ∈ held.filter (· ∉ range) := by
    intro id before below
    refine mem_filter.mpr ⟨exact.first.below id below, ?_⟩
    simpa using fun member => absurd (least id member) (by omega)
  dsimp only
  split
  next below =>
    refine ⟨below.le.trans exact.first.le, by simp [listed], fun id before => kept id before (by omega)⟩
  next above =>
    refine ⟨exact.first.le, fun member => exact.first.free (mem_of_mem_filter member), fun id below => ?_⟩
    exact kept id (by omega) below

theorem clearAll_eq (distinct : range.Nodup) (own : ∀ id ∈ range, id ∈ held) :
    clearAll ids.bitset range = .ok (marked capacity (held.filter (· ∉ range))) := by
  rw [exact.bitset]
  exact clearAll_marked distinct fun id member => ⟨exact.inside id (own id member), own id member⟩

theorem free_returns (own : id ∈ held) :
    Returns (ids.free id) fun next => Exact capacity next (held.filter (· ∉ [id])) := by
  unfold free
  have mine : ∀ other ∈ [id], other ∈ held := by simpa using own
  rw [exact.clearAll_eq (nodup_singleton _) mine, bind_ok]
  exact exact.release mem_cons_self (by simp)

theorem freeConsecutive_returns (own : ∀ id, start ≤ id → id < stop → id ∈ held) :
    Returns (ids.freeConsecutive start stop) fun next =>
      Exact capacity next (held.filter (· ∉ List.range' start (stop - start))) := by
  unfold freeConsecutive
  refine meets_ite (fun empty => ?_) fun filled => ?_
  · rw [Nat.sub_eq_zero_of_le empty]
    change Exact capacity ids (held.filter (· ∉ []))
    simpa using exact
  have listed : ∀ id, id ∈ List.range' start (stop - start) ↔ start ≤ id ∧ id < stop := by
    intro id
    rw [mem_range'_1]
    omega
  have mine : ∀ id ∈ List.range' start (stop - start), id ∈ held := fun id member =>
    own id ((listed id).mp member).1 ((listed id).mp member).2
  rw [exact.clearAll_eq nodup_range' mine, bind_ok]
  exact exact.release ((listed start).mpr ⟨le_rfl, by omega⟩) fun id member => ((listed id).mp member).1

end Exact

/-- The states of an allocator, with the ids that its callers hold. Only held ids are freed. -/
inductive Reaches (capacity : Nat) : IdAlloc → List Nat → Prop
  | new : Reaches capacity (withCapacity capacity) []
  | alloc {ids next : IdAlloc} {held : List Nat} {result : Option Nat} (reached : Reaches capacity ids held)
      (ran : ids.alloc = .ok (result, next)) : Reaches capacity next (result.toList ++ held)
  | allocConsecutive {ids next : IdAlloc} {held : List Nat} {result : Option (Nat × Nat)} (count : Nat)
      (reached : Reaches capacity ids held) (ran : ids.allocConsecutive count = .ok (result, next)) :
      Reaches capacity next (Exact.givenOf result ++ held)
  | allocSpecific {ids next : IdAlloc} {held : List Nat} {result : Option Nat} (id : Nat)
      (reached : Reaches capacity ids held) (ran : ids.allocSpecific id = .ok (result, next)) :
      Reaches capacity next (result.toList ++ held)
  | free {ids next : IdAlloc} {held : List Nat} (id : Nat) (reached : Reaches capacity ids held) (own : id ∈ held)
      (ran : ids.free id = .ok next) : Reaches capacity next (held.filter (· ∉ [id]))
  | freeConsecutive {ids next : IdAlloc} {held : List Nat} (start stop : Nat) (reached : Reaches capacity ids held)
      (own : ∀ id, start ≤ id → id < stop → id ∈ held) (ran : ids.freeConsecutive start stop = .ok next) :
      Reaches capacity next (held.filter (· ∉ List.range' start (stop - start)))

theorem Reaches.exact (reached : Reaches capacity ids held) : Exact capacity ids held := by
  induction reached with
  | new => exact exact_withCapacity capacity
  | alloc _ ran exact => exact (exact.alloc_returns.of_ok ran).1
  | allocConsecutive count _ ran exact => exact ((exact.allocConsecutive_returns count).of_ok ran).1
  | allocSpecific id _ ran exact =>
    have inside : id < capacity := by
      by_contra beyond
      rw [IdAlloc.allocSpecific, exact.bitset, index,
        List.getElem?_eq_none (by simpa [length_marked] using beyond)] at ran
      cases ran
    exact ((exact.allocSpecific_returns inside).of_ok ran).1
  | free id _ own ran exact => exact (exact.free_returns own).of_ok ran
  | freeConsecutive start stop _ own ran exact => exact (exact.freeConsecutive_returns own).of_ok ran

/-- What the allocator is for: an id has one holder at most, and the next call gives out the least
free ids there are. -/
structure Serves (capacity : Nat) (ids : IdAlloc) (held : List Nat) : Prop where
  once : held.Nodup
  allocated : ∀ id < capacity, ids.isAllocated id = .ok (decide (id ∈ held))
  first : LeastFree capacity held ids.firstAvailableId
  alloc : ∃ next, ids.alloc =
    .ok (if ids.firstAvailableId < capacity then some ids.firstAvailableId else none, next)
  consecutive : ∀ count, ∃ result next, ids.allocConsecutive count = .ok (result, next) ∧
    (∀ start stop, result = some (start, stop) → stop = start + count ∧ FreeRun capacity held count start ∧
      ∀ earlier < start, ¬FreeRun capacity held count earlier) ∧
    (result = none → ∀ start, ¬FreeRun capacity held count start)
  specific : ∀ id < capacity, ∃ next, ids.allocSpecific id = .ok (if id ∈ held then none else some id, next)
  free : ∀ id ∈ held, ∃ next, ids.free id = .ok next
  freeConsecutive : ∀ start stop, (∀ id, start ≤ id → id < stop → id ∈ held) →
    ∃ next, ids.freeConsecutive start stop = .ok next

/-- In every state, whatever was allocated and freed before. -/
theorem reaches_serves (capacity : Nat) (ids : IdAlloc) (held : List Nat) (reached : Reaches capacity ids held) :
    Serves capacity ids held := by
  have exact := reached.exact
  refine ⟨exact.once, fun id inside => ?_, exact.first, ?_, fun count => ?_, fun id inside => ?_, fun id own => ?_,
    fun start stop own => ?_⟩
  · rw [isAllocated, exact.bitset, index_marked inside]
  · obtain ⟨⟨result, next⟩, ran, -, rfl⟩ := exact.alloc_returns.exists_ok
    exact ⟨next, ran⟩
  · obtain ⟨⟨result, next⟩, ran, -, found, none⟩ := (exact.allocConsecutive_returns count).exists_ok
    exact ⟨result, next, ran, found, none⟩
  · obtain ⟨⟨result, next⟩, ran, -, rfl⟩ := (exact.allocSpecific_returns inside).exists_ok
    exact ⟨next, ran⟩
  · obtain ⟨next, ran, -⟩ := (exact.free_returns own).exists_ok
    exact ⟨next, ran⟩
  · obtain ⟨next, ran, -⟩ := (exact.freeConsecutive_returns own).exists_ok
    exact ⟨next, ran⟩

/-- Two ids of three are given out together, and the first of them is freed. -/
theorem reaches_serves_three : Serves 3 ⟨[false, true, false], 0⟩ [1] := by
  have ran : (withCapacity 3).allocConsecutive 2 = .ok (some (0, 2), ⟨[true, true, false], 2⟩) := rfl
  have both : Reaches 3 ⟨[true, true, false], 2⟩ [1, 0] := .allocConsecutive 2 .new ran
  exact reaches_serves 3 _ _ (.free 0 both (by decide) rfl)

end Kei.IdAlloc
