import Kei.Library.SortedMap
import Kei.Library.Checked
import Mathlib.Data.Nat.Basic

/-! The context of a range query over the logical block table: a slot for each key
of the range, a bitmap of the slots that are done, and what was found so far. -/

namespace Kei.SecureDisk

open Library Checked List Nat

abbrev BitMap := List Bool

namespace BitMap

def firstZero (bits : BitMap) (first : Nat) : Checked (Option Nat) :=
  if first < bits.length then
    .ok ((List.range bits.length).find? fun index => first ≤ index && bits[index]? == some false)
  else .error .indexOutOfBounds

def lastZero (bits : BitMap) : Option Nat :=
  (List.range bits.length).reverse.find? fun index => bits[index]? == some false

variable {bits : BitMap}

theorem getElem?_eq_true {index : Nat} (bound : index < bits.length)
    (set : bits[index]? ≠ some false) : bits[index]? = some true := by
  rw [List.getElem?_eq_getElem bound] at set ⊢
  cases bit : bits[index] with
  | false => simp [bit] at set
  | true => rfl

def FirstClear (bits : BitMap) (first : Nat) : Option Nat → Prop
  | some index => index < bits.length ∧ bits[index]? = some false ∧
      ∀ earlier, first ≤ earlier → earlier < index → bits[earlier]? = some true
  | none => ∀ later, first ≤ later → later < bits.length → bits[later]? = some true

theorem firstZero_returns {first : Nat} (bound : first < bits.length) :
    Returns (bits.firstZero first) (FirstClear bits first) := by
  unfold firstZero
  rw [if_pos bound]
  show FirstClear bits first _
  cases found : (List.range bits.length).find? fun index => first ≤ index && bits[index]? == some false with
  | none =>
    intro later order inside
    have clear := List.find?_eq_none.mp found later (mem_range.mpr inside)
    refine getElem?_eq_true inside ?_
    simpa [order] using clear
  | some index =>
    obtain ⟨holds, member, none⟩ := List.find?_range_eq_some.mp found
    simp only [Bool.and_eq_true, decide_eq_true_eq, beq_iff_eq] at holds
    have inside : index < bits.length := mem_range.mp member
    refine ⟨inside, holds.2, fun earlier order lower => ?_⟩
    refine getElem?_eq_true (lt_trans lower inside) ?_
    simpa [order] using none earlier lower

theorem lastZero_spec {index : Nat} (bound : index < bits.length)
    (clear : bits[index]? = some false) : ∃ last, bits.lastZero = some last ∧ index ≤ last ∧
      last < bits.length := by
  unfold lastZero
  cases found : (List.range bits.length).reverse.find? fun index => bits[index]? == some false with
  | none =>
    have := List.find?_eq_none.mp found index (by simpa using bound)
    simp [clear] at this
  | some last =>
    obtain ⟨-, before, after, whole, none⟩ := List.find?_eq_some_iff_append.mp found
    have sorted : (before ++ last :: after).Pairwise (· > ·) := by
      rw [← whole, pairwise_reverse]
      exact pairwise_lt_range
    have inside : last < bits.length := by
      have member : last ∈ (List.range bits.length).reverse := by
        rw [whole]
        exact mem_append_right _ mem_cons_self
      simpa using member
    refine ⟨last, rfl, ?_, inside⟩
    have member : index ∈ before ++ last :: after := by
      rw [← whole]
      simpa using bound
    rcases mem_append.mp member with early | late
    · have := none index early
      simp [clear] at this
    · rcases mem_cons.mp late with rfl | later
      · exact le_refl _
      · have := rel_of_pairwise_cons (pairwise_append.mp sorted).2.1 later
        omega

end BitMap

structure RangeQueryCtx (V : Type) where
  start : Nat
  numValues : Nat
  completeTable : BitMap
  minUncompleted : Nat
  res : List (Nat × V)

namespace RangeQueryCtx

variable {V : Type}

def new (start numValues : Nat) : RangeQueryCtx V where
  start := start
  numValues := numValues
  completeTable := List.replicate numValues false
  minUncompleted := 0
  res := []

def isCompleted (ctx : RangeQueryCtx V) : Bool := ctx.minUncompleted == ctx.numValues

def rangeUncompleted (ctx : RangeQueryCtx V) : Checked (Option (Nat × Nat)) :=
  if ctx.isCompleted then .ok none
  else do
    assert (decide (ctx.minUncompleted < ctx.numValues))
    .ok (ctx.completeTable.lastZero.map fun last => (ctx.start + ctx.minUncompleted, ctx.start + last))

def updateMinUncompleted (ctx : RangeQueryCtx V) (completed : Nat) : Checked (RangeQueryCtx V) :=
  if ctx.minUncompleted = completed then do
    match ← ctx.completeTable.firstZero completed with
    | some next => .ok { ctx with minUncompleted := next }
    | none => .ok { ctx with minUncompleted := ctx.numValues }
  else .ok ctx

def complete (ctx : RangeQueryCtx V) (key : Nat) (value : V) : Checked (RangeQueryCtx V) := do
  let nth ← sub key ctx.start
  let done ← index ctx.completeTable nth
  if done then .ok ctx
  else
    let table ← store ctx.completeTable nth true
    updateMinUncompleted { ctx with completeTable := table, res := ctx.res ++ [(key, value)] } nth

def markCompleted (ctx : RangeQueryCtx V) (key : Nat) : Checked (RangeQueryCtx V) := do
  let nth ← sub key ctx.start
  let table ← store ctx.completeTable nth true
  updateMinUncompleted { ctx with completeTable := table } nth

def intoResults (ctx : RangeQueryCtx V) : Checked (List (Nat × V)) := do
  assert ctx.isCompleted
  .ok ctx.res

def Covers (ctx : RangeQueryCtx V) (key : Nat) : Prop :=
  ctx.start ≤ key ∧ key < ctx.start + ctx.numValues

structure Marks (ctx : RangeQueryCtx V) (done : Nat → Bool) : Prop where
  length : ctx.completeTable.length = ctx.numValues
  slot : ∀ nth, nth < ctx.numValues → ctx.completeTable[nth]? = some (done (ctx.start + nth))
  least_le : ctx.minUncompleted ≤ ctx.numValues
  below : ∀ nth, nth < ctx.minUncompleted → done (ctx.start + nth) = true
  least : ctx.minUncompleted < ctx.numValues → done (ctx.start + ctx.minUncompleted) = false

structure Tracks (ctx : RangeQueryCtx V) (skip : Nat → Bool) (found : Nat → Option V) : Prop where
  marks : ctx.Marks fun key => skip key || (found key).isSome
  mem_res : ∀ key value, (key, value) ∈ ctx.res ↔
    ctx.Covers key ∧ skip key = false ∧ found key = some value
  nodup : (ctx.res.map Prod.fst).Nodup

abbrev SameRange (ctx other : RangeQueryCtx V) : Prop :=
  other.start = ctx.start ∧ other.numValues = ctx.numValues

variable {ctx : RangeQueryCtx V}

theorem Marks.congr {done other : Nat → Bool} (marks : ctx.Marks done)
    (agree : ∀ key, ctx.Covers key → done key = other key) : ctx.Marks other where
  length := marks.length
  slot nth bound := by
    rw [marks.slot nth bound, agree _ ⟨le_add_right _ _, by omega⟩]
  least_le := marks.least_le
  below nth lower := by
    have := marks.least_le
    rw [← agree _ ⟨le_add_right _ _, by omega⟩, marks.below nth lower]
  least lower := by rw [← agree _ ⟨le_add_right _ _, by omega⟩, marks.least lower]

variable {skip : Nat → Bool}

theorem Tracks.congr {found other : Nat → Option V}
    (tracks : ctx.Tracks skip found)
    (agree : ∀ key, ctx.Covers key → skip key = false → found key = other key) :
    ctx.Tracks skip other where
  marks := by
    refine tracks.marks.congr ?_
    intro key covers
    cases skipped : skip key with
    | true => rfl
    | false => rw [agree key covers skipped]
  mem_res key value := by
    rw [tracks.mem_res]
    constructor
    · rintro ⟨covers, skipped, answer⟩
      exact ⟨covers, skipped, agree key covers skipped ▸ answer⟩
    · rintro ⟨covers, skipped, answer⟩
      exact ⟨covers, skipped, (agree key covers skipped).symm ▸ answer⟩
  nodup := tracks.nodup

variable {done : Nat → Bool}

theorem Marks.isCompleted_iff (marks : ctx.Marks done) :
    ctx.isCompleted = true ↔ ∀ key, ctx.Covers key → done key = true := by
  rw [isCompleted, beq_iff_eq]
  constructor
  · intro all key covers
    obtain ⟨lower, upper⟩ := covers
    have := marks.below (key - ctx.start) (by omega)
    rwa [Nat.add_sub_cancel' lower] at this
  · intro all
    by_contra open_
    have room : ctx.minUncompleted < ctx.numValues := lt_of_le_of_ne marks.least_le open_
    have clear := marks.least room
    rw [all _ ⟨le_add_right _ _, by omega⟩] at clear
    exact Bool.noConfusion clear

theorem Marks.rangeUncompleted_returns
    (marks : ctx.Marks done) (some_left : ctx.isCompleted = false) :
    Returns ctx.rangeUncompleted fun range => ∃ first last, range = some (first, last) ∧
      (∀ key, ctx.Covers key → done key = false → first ≤ key ∧ key ≤ last) ∧
      ∀ key, first ≤ key → key ≤ last → ctx.Covers key := by
  have room : ctx.minUncompleted < ctx.numValues := by
    rw [isCompleted, beq_eq_false_iff_ne] at some_left
    exact lt_of_le_of_ne marks.least_le some_left
  have inside : ctx.minUncompleted < ctx.completeTable.length := by rwa [marks.length]
  obtain ⟨last, found, order, bound⟩ :=
    BitMap.lastZero_spec inside (by rw [marks.slot _ room, marks.least room])
  rw [marks.length] at bound
  unfold rangeUncompleted
  rw [if_neg (by simp [some_left]), assert, if_pos (by simpa using room), bind_ok, found]
  refine ⟨_, _, rfl, ?_, ?_⟩
  · rintro key ⟨lower, upper⟩ clear
    have slot := marks.slot (key - ctx.start) (by omega)
    rw [Nat.add_sub_cancel' lower, clear] at slot
    obtain ⟨highest, same, above, -⟩ := BitMap.lastZero_spec (by rw [marks.length]; omega) slot
    rw [found] at same
    cases same
    refine ⟨?_, by omega⟩
    by_contra early
    have := marks.below (key - ctx.start) (by omega)
    rw [Nat.add_sub_cancel' lower, clear] at this
    exact Bool.noConfusion this
  · intro key lower upper
    exact ⟨by omega, by omega⟩

theorem Marks.set_returns (marks : ctx.Marks done)
    {nth : Nat} (bound : nth < ctx.numValues) (res : List (Nat × V)) :
    Returns (updateMinUncompleted
        { ctx with completeTable := ctx.completeTable.set nth true, res := res } nth) fun next =>
      next.Marks (fun key => done key || key == ctx.start + nth) ∧ ctx.SameRange next ∧ next.res = res := by
  have length : (ctx.completeTable.set nth true).length = ctx.numValues := by
    rw [length_set, marks.length]
  have slot : ∀ other, other < ctx.numValues → (ctx.completeTable.set nth true)[other]? =
      some (done (ctx.start + other) || ctx.start + other == ctx.start + nth) := by
    intro other inside
    by_cases same : nth = other
    · subst same
      rw [List.getElem?_set_self (by rw [marks.length]; exact inside)]
      simp
    · rw [List.getElem?_set_ne same, marks.slot other inside]
      have : (ctx.start + other == ctx.start + nth) = false := by
        rw [beq_eq_false_iff_ne]
        omega
      rw [this, Bool.or_false]
  unfold updateMinUncompleted
  by_cases lowest : ctx.minUncompleted = nth
  · rw [if_pos lowest]
    refine (BitMap.firstZero_returns (by rw [length]; exact bound)).bind ?_
    rintro (_ | next) clear
    · refine ⟨⟨length, slot, le_refl _, ?_, fun room => absurd room (lt_irrefl _)⟩, ⟨rfl, rfl⟩, rfl⟩
      intro other inside
      by_cases early : other < ctx.minUncompleted
      · rw [marks.below other early, Bool.true_or]
      · have set := clear other (by omega) (by rw [length]; exact inside)
        rw [slot other inside] at set
        exact Option.some.inj set
    · obtain ⟨inside, zero, between⟩ := clear
      rw [length] at inside
      refine ⟨⟨length, slot, le_of_lt inside, ?_, ?_⟩, ⟨rfl, rfl⟩, rfl⟩
      · intro other lower
        by_cases early : other < ctx.minUncompleted
        · rw [marks.below other early, Bool.true_or]
        · have set := between other (by omega) lower
          rw [slot other (lt_trans lower inside)] at set
          exact Option.some.inj set
      · intro room
        rw [slot next room] at zero
        exact Option.some.inj zero
  · rw [if_neg lowest]
    refine ⟨⟨length, slot, marks.least_le, ?_, ?_⟩, ⟨rfl, rfl⟩, rfl⟩
    · intro other lower
      rw [marks.below other lower, Bool.true_or]
    · intro room
      rw [marks.least room, Bool.false_or, beq_eq_false_iff_ne]
      show ctx.start + ctx.minUncompleted ≠ _
      omega

theorem Tracks.markCompleted_returns
    (tracks : ctx.Tracks skip fun _ => none) {key : Nat} (covers : ctx.Covers key) :
    Returns (ctx.markCompleted key) fun next =>
      next.Tracks (fun other => skip other || other == key) (fun _ => none) ∧ ctx.SameRange next := by
  obtain ⟨lower, upper⟩ := covers
  have empty : ctx.res = [] := by
    refine eq_nil_iff_forall_not_mem.mpr ?_
    rintro ⟨other, value⟩ member
    exact nomatch ((tracks.mem_res other value).mp member).2.2
  unfold markCompleted
  rw [sub_ok lower, bind_ok, store, if_pos (by rw [tracks.marks.length]; omega), bind_ok]
  have inside : key - ctx.start < ctx.numValues := by omega
  refine (tracks.marks.set_returns inside ctx.res).mono ?_
  rintro next ⟨marks, range, res⟩
  rw [Nat.add_sub_cancel' lower] at marks
  refine ⟨⟨marks.congr (fun other _ => by simp), ?_, ?_⟩, range⟩
  · intro other value
    simp [res, empty]
  · simp [res, empty]

def answered (found : Nat → Option V) (key : Nat) (value : V) (other : Nat) : Option V :=
  (found other).or (if other = key then some value else none)

variable {found : Nat → Option V}

theorem Tracks.complete_returns
    (tracks : ctx.Tracks skip found) {key : Nat} (covers : ctx.Covers key) (value : V) :
    Returns (ctx.complete key value) fun next =>
      next.Tracks skip (answered found key value) ∧ ctx.SameRange next := by
  obtain ⟨lower, upper⟩ := covers
  have slot := tracks.marks.slot (key - ctx.start) (by omega)
  rw [Nat.add_sub_cancel' lower] at slot
  unfold complete
  rw [sub_ok lower, bind_ok, index_getElem? slot, bind_ok]
  cases done : (skip key || (found key).isSome) with
  | true =>
    refine ⟨tracks.congr ?_, rfl, rfl⟩
    intro other _ skipped
    by_cases same : other = key
    · subst same
      rw [skipped, Bool.false_or] at done
      obtain ⟨stored, answer⟩ := Option.isSome_iff_exists.mp done
      simp [answered, answer]
    · simp [answered, same]
  | false =>
    obtain ⟨skipped, fresh⟩ := Bool.or_eq_false_iff.mp done
    rw [Option.isSome_eq_false_iff, Option.isNone_iff_eq_none] at fresh
    rw [if_neg Bool.false_ne_true, store, if_pos (by rw [tracks.marks.length]; omega), bind_ok]
    have inside : key - ctx.start < ctx.numValues := by omega
    refine (tracks.marks.set_returns inside _).mono ?_
    rintro next ⟨marks, ⟨start, num⟩, res⟩
    rw [Nat.add_sub_cancel' lower] at marks
    refine ⟨⟨marks.congr ?_, ?_, ?_⟩, start, num⟩
    · intro other _
      by_cases same : other = key
      · simp [answered, same]
      · simp [answered, same]
    · intro other stored
      rw [res, mem_append, tracks.mem_res, mem_singleton, Covers, Covers, start, num]
      by_cases same : other = key
      · subst same
        simp [answered, fresh, skipped, lower, upper, eq_comm]
      · simp [answered, same]
    · rw [res, map_append, nodup_append]
      refine ⟨tracks.nodup, by simp, ?_⟩
      rintro other member _ last rfl
      obtain ⟨⟨_, stored⟩, entry, rfl⟩ := mem_map.mp member
      simp only [map_cons, map_nil, mem_singleton] at last
      subst last
      have answer := ((tracks.mem_res _ stored).mp entry).2.2
      rw [fresh] at answer
      exact nomatch answer

theorem Tracks.completeAll_returns (tracks : ctx.Tracks skip found) {answers : List (Nat × V)}
    (covers : ∀ answer ∈ answers, ctx.Covers answer.1) :
    Returns (answers.foldlM (fun ctx answer => ctx.complete answer.1 answer.2) ctx) fun next =>
      next.Tracks skip (fun key => (found key).or (answers.lookup key)) ∧ ctx.SameRange next := by
  induction answers generalizing ctx found with
  | nil => exact ⟨tracks.congr (by simp), rfl, rfl⟩
  | cons answer rest ih =>
    obtain ⟨key, value⟩ := answer
    rw [foldlM_cons]
    refine (tracks.complete_returns (covers _ mem_cons_self) value).bind ?_
    rintro next ⟨tracks', start, num⟩
    refine (ih tracks' ?_).mono ?_
    · intro answer member
      rw [Covers, start, num]
      exact covers answer (mem_cons_of_mem _ member)
    · rintro last ⟨tracks'', start', num'⟩
      refine ⟨tracks''.congr ?_, start'.trans start, num'.trans num⟩
      intro other _ _
      rw [answered, Option.or_assoc, lookup_cons]
      by_cases same : other = key
      · simp [same]
      · simp [same, beq_false_of_ne same]

theorem new_tracks (start numValues : Nat) :
    (new start numValues : RangeQueryCtx V).Tracks (fun _ => false) fun _ => none where
  marks :=
    { length := length_replicate
      slot := fun nth bound => List.getElem?_replicate_of_lt bound
      least_le := zero_le _
      below := fun nth lower => absurd lower (not_lt_zero _)
      least := fun _ => rfl }
  mem_res key value := by simp [new]
  nodup := nodup_nil

end RangeQueryCtx

end Kei.SecureDisk
