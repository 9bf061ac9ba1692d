import Kei.SecureDisk.MemTable

/-! Sorted string tables: immutable runs of records in ascending key order, cut into
record blocks that an index describes by their first and last keys. -/

namespace Kei.SecureDisk

open Library Checked List Option

def keySize : Nat := 8

def valueSize : Nat := 40

def flagSize : Nat := 1

def bidSize : Nat := 8

def maxRecordSize : Nat := bidSize + flagSize + 2 * valueSize

def recordBlockSize : Nat := 32 * 4096

structure RecordBlock (V : Type) where
  first : Nat
  last : Nat
  records : List (Nat × ValueEx V)

structure SSTable (V : Type) where
  id : Nat
  syncId : Nat
  firstBlock : RecordBlock V
  restBlocks : List (RecordBlock V)

structure BlockBuilder (V : Type) where
  totalRecords : Nat
  index : List (RecordBlock V)
  firstKey : Option Nat
  currKey : Option Nat
  innerOffset : Nat
  blockBuf : List (Nat × ValueEx V)

namespace BlockBuilder

variable {V : Type}

def new : BlockBuilder V := ⟨0, [], none, none, 0, []⟩

/-- What a record adds to the offset. A record with two values is charged its key twice:
once before its values and once within the maximal record size. -/
def charged (value : ValueEx V) : Nat :=
  keySize + match value with
    | .synced _ | .unsynced _ => 1 + valueSize
    | .syncedAndUnsynced _ _ => maxRecordSize

def add (builder : BlockBuilder V) (record : Nat × ValueEx V) : Checked (BlockBuilder V) := do
  let (key, value) := record
  let fresh := builder.innerOffset == 0
  assert (!fresh || builder.blockBuf.isEmpty)
  let firstKey := if fresh then some key else builder.firstKey
  let blockBuf := builder.blockBuf ++ [record]
  let innerOffset := builder.innerOffset + charged value
  let capRemained ← sub recordBlockSize innerOffset
  if maxRecordSize ≤ capRemained then
    .ok ⟨builder.totalRecords + 1, builder.index, firstKey, some key, innerOffset, blockBuf⟩
  else
    let first ← unwrap firstKey
    .ok ⟨builder.totalRecords + 1, builder.index ++ [⟨first, key, blockBuf⟩], firstKey, some key, 0, []⟩

end BlockBuilder

namespace SSTable

variable {V : Type}

def buildRecordBlocks (records : List (Nat × ValueEx V)) : Checked (List (RecordBlock V)) := do
  let builder ← records.foldlM BlockBuilder.add BlockBuilder.new
  assert (decide (0 < builder.totalRecords))
  if builder.blockBuf.isEmpty then .ok builder.index
  else
    let first ← unwrap builder.firstKey
    let last ← unwrap builder.currKey
    .ok (builder.index ++ [⟨first, last, builder.blockBuf⟩])

/-- Build a table under a fresh log. Its range is read off the first index entry, which a
table without records would lack. -/
def build (id syncId : Nat) (records : List (Nat × ValueEx V)) : Checked (SSTable V) := do
  match ← buildRecordBlocks records with
  | [] => .error .indexOutOfBounds
  | first :: rest => .ok ⟨id, syncId, first, rest⟩

def blocks (sst : SSTable V) : List (RecordBlock V) := sst.firstBlock :: sst.restBlocks

def lastBlock (sst : SSTable V) : RecordBlock V := sst.blocks.getLast (cons_ne_nil _ _)

def records (sst : SSTable V) : List (Nat × ValueEx V) := sst.blocks.flatMap RecordBlock.records

def range (sst : SSTable V) : Nat × Nat := (sst.firstBlock.first, sst.lastBlock.last)

def isWithinRange (sst : SSTable V) (key : Nat) : Bool := sst.range.1 ≤ key && key ≤ sst.range.2

def overlapWith (sst : SSTable V) (range : Nat × Nat) : Bool :=
  !(decide (sst.range.2 < range.1) || decide (range.2 < sst.range.1))

def accessPoint (sst : SSTable V) (key : Nat) : Checked (Option V) := do
  assert (sst.isWithinRange key)
  match sst.blocks.find? fun block => block.first ≤ key && key ≤ block.last with
  | none => .ok none
  | some block => .ok ((block.records.lookup key).map ValueEx.get)

def accessRange (sst : SSTable V) (ctx : RangeQueryCtx V) : Checked (RangeQueryCtx V) := do
  assert !ctx.isCompleted
  let (first, last) ← unwrap (← ctx.rangeUncompleted)
  let targets := sst.blocks.filter fun block => !(decide (block.last < first) || decide (last < block.first))
  (targets.flatMap fun block => window first last block.records).foldlM
    (fun ctx answer => ctx.complete answer.1 answer.2) ctx

/-- How a scan passes a value on: settled when the whole table is synced, else without
its unsynced part when that is discarded. -/
def scanValue (allSynced discardUnsynced : Bool) : ValueEx V → Option (ValueEx V)
  | .synced value => some (.synced value)
  | .unsynced value =>
    if allSynced then some (.synced value)
    else if discardUnsynced then none else some (.unsynced value)
  | .syncedAndUnsynced old value =>
    if allSynced then some (.synced value)
    else if discardUnsynced then some (.synced old) else some (.syncedAndUnsynced old value)

def scanBlock (allSynced discardUnsynced : Bool) (block : RecordBlock V) : List (Nat × ValueEx V) :=
  block.records.filterMap fun record =>
    (scanValue allSynced discardUnsynced record.2).map fun value => (record.1, value)

def scanRest (allSynced discardUnsynced : Bool) : List (RecordBlock V) → List (Nat × ValueEx V)
  | [] => []
  | block :: rest =>
    let scanned := scanBlock allSynced discardUnsynced block
    if scanned.isEmpty then []
    else scanned ++ scanRest allSynced discardUnsynced rest

def iter (sst : SSTable V) (syncId : Nat) (discardUnsynced : Bool) : List (Nat × ValueEx V) :=
  let allSynced := decide (sst.syncId < syncId)
  scanBlock allSynced discardUnsynced sst.firstBlock ++
    scanRest allSynced discardUnsynced sst.restBlocks

def get (sst : SSTable V) (key : Nat) : Option V := (sst.records.lookup key).map ValueEx.get

end SSTable

structure RecordBlock.Sound {V : Type} (block : RecordBlock V) : Prop where
  first : block.records.head?.map Prod.fst = some block.first
  last : block.records.getLast?.map Prod.fst = some block.last

structure SSTable.Sound {V : Type} (sst : SSTable V) : Prop where
  blocks : ∀ block ∈ sst.blocks, block.Sound
  ascending : Ascending sst.records

namespace RecordBlock

variable {V : Type} {block : RecordBlock V}

theorem Sound.ne_nil (sound : block.Sound) : block.records ≠ [] := by
  intro empty
  have := sound.first
  rw [empty] at this
  exact nomatch this

theorem Sound.first_mem (sound : block.Sound) : ∃ value, (block.first, value) ∈ block.records := by
  obtain ⟨⟨key, value⟩, head, same⟩ := map_eq_some_iff.mp sound.first
  exact ⟨value, same ▸ mem_of_head? head⟩

theorem Sound.last_mem (sound : block.Sound) : ∃ value, (block.last, value) ∈ block.records := by
  obtain ⟨⟨key, value⟩, tail, same⟩ := map_eq_some_iff.mp sound.last
  exact ⟨value, same ▸ mem_of_getLast? tail⟩

variable {record : Nat × ValueEx V}

variable (sound : block.Sound) (ascending : Ascending block.records) (member : record ∈ block.records)
include sound ascending member

theorem Sound.first_le : block.first ≤ record.1 := by
  obtain ⟨head, found, same⟩ := map_eq_some_iff.mp sound.first
  obtain ⟨rest, whole⟩ := List.head?_eq_some_iff.mp found
  rw [whole] at member ascending
  rcases mem_cons.mp member with rfl | later
  · exact le_of_eq same.symm
  · rw [← same]
    exact le_of_lt ((pairwise_cons.mp ascending).1 record later)

theorem Sound.le_last : record.1 ≤ block.last := by
  obtain ⟨tail, found, same⟩ := map_eq_some_iff.mp sound.last
  obtain ⟨rest, whole⟩ := List.getLast?_eq_some_iff.mp found
  rw [whole] at member ascending
  rcases mem_append.mp member with earlier | later
  · rw [← same]
    exact le_of_lt ((pairwise_append.mp ascending).2.2 record earlier tail mem_cons_self)
  · rw [mem_singleton.mp later]
    exact le_of_eq same

end RecordBlock

/-! ### Building -/

namespace BlockBuilder

variable {V : Type}

structure Holds (builder : BlockBuilder V) (taken : List (Nat × ValueEx V)) : Prop where
  total : builder.totalRecords = taken.length
  whole : builder.index.flatMap RecordBlock.records ++ builder.blockBuf = taken
  index : ∀ block ∈ builder.index, block.Sound
  fresh : builder.innerOffset = 0 ↔ builder.blockBuf = []
  opened : builder.blockBuf ≠ [] → builder.blockBuf.head?.map Prod.fst = builder.firstKey ∧
    builder.blockBuf.getLast?.map Prod.fst = builder.currKey

theorem charged_pos (value : ValueEx V) : 0 < charged value := by
  unfold charged
  exact Nat.lt_of_lt_of_le (by decide) (Nat.le_add_right keySize _)

theorem new_holds : (new : BlockBuilder V).Holds [] where
  total := rfl
  whole := rfl
  index := by simp [new]
  fresh := by simp [new]
  opened absurdity := absurd rfl absurdity

variable {taken : List (Nat × ValueEx V)} {builder : BlockBuilder V}

theorem Holds.head
    (holds : builder.Holds taken) (record : Nat × ValueEx V) :
    (builder.blockBuf ++ [record]).head?.map Prod.fst =
      if builder.innerOffset == 0 then some record.1 else builder.firstKey := by
  by_cases empty : builder.blockBuf = []
  · simp [holds.fresh.mpr empty, empty]
  · have started : ¬(builder.innerOffset == 0) = true := by simpa [holds.fresh] using empty
    rw [if_neg started, ← (holds.opened empty).1, List.head?_append_of_ne_nil _ empty]

theorem Holds.add
    (holds : builder.Holds taken) (record : Nat × ValueEx V) :
    Ensures (builder.add record) fun next => next.Holds (taken ++ [record]) := by
  have head := holds.head record
  obtain ⟨key, value⟩ := record
  have tail : (builder.blockBuf ++ [(key, value)]).getLast?.map Prod.fst = some key := by simp
  have whole : builder.index.flatMap RecordBlock.records ++ (builder.blockBuf ++ [(key, value)]) =
      taken ++ [(key, value)] := by rw [← append_assoc, holds.whole]
  have total : builder.totalRecords + 1 = (taken ++ [(key, value)]).length := by
    rw [holds.total, length_append, length_singleton]
  unfold BlockBuilder.add
  refine (ensures_true _).bind fun _ _ => (ensures_true _).bind fun _ _ => ?_
  refine meets_ite (fun _ => ?_) fun _ => ?_
  · exact ⟨total, whole, holds.index, by simp [Nat.ne_of_gt (charged_pos value)],
      fun _ => ⟨head, tail⟩⟩
  · refine (unwrap_ensures _).bind ?_
    intro first firstKey
    refine ⟨total, ?_, ?_, by simp, fun absurdity => absurd rfl absurdity⟩
    · rw [← whole]
      simp
    · intro block member
      rcases mem_append.mp member with old | new
      · exact holds.index block old
      · rw [mem_singleton.mp new]
        exact ⟨head.trans firstKey, tail⟩

end BlockBuilder

namespace SSTable

variable {V : Type}

theorem addAll_holds {records taken : List (Nat × ValueEx V)} {builder : BlockBuilder V}
    (holds : builder.Holds taken) :
    Ensures (records.foldlM BlockBuilder.add builder) fun next => next.Holds (taken ++ records) := by
  induction records generalizing builder taken with
  | nil => exact (append_nil taken).symm ▸ holds
  | cons record rest ih =>
    rw [foldlM_cons]
    refine (holds.add record).bind ?_
    intro next kept
    refine (ih kept).mono ?_
    intro last all
    rwa [append_assoc, singleton_append] at all

theorem buildRecordBlocks_ensures (records : List (Nat × ValueEx V)) :
    Ensures (buildRecordBlocks records) fun blocks =>
      blocks.flatMap RecordBlock.records = records ∧ ∀ block ∈ blocks, block.Sound := by
  unfold buildRecordBlocks
  refine (addAll_holds BlockBuilder.new_holds).bind ?_
  intro builder holds
  rw [nil_append] at holds
  refine (ensures_true _).bind fun _ _ => meets_ite (fun empty => ?_) fun rest => ?_
  · have whole := holds.whole
    rw [isEmpty_iff.mp empty, append_nil] at whole
    exact ⟨whole, holds.index⟩
  · have opened := holds.opened (by simpa using rest)
    refine (unwrap_ensures _).bind fun first firstKey => (unwrap_ensures _).bind fun last currKey => ?_
    refine ⟨?_, ?_⟩
    · rw [← holds.whole]
      simp
    · intro block member
      rcases mem_append.mp member with old | new
      · exact holds.index block old
      · rw [mem_singleton.mp new]
        exact ⟨opened.1.trans firstKey, opened.2.trans currKey⟩

theorem build_ensures {records : List (Nat × ValueEx V)} (ascending : Ascending records)
    (id syncId : Nat) : Ensures (build id syncId records) fun sst =>
      sst.Sound ∧ sst.records = records ∧ sst.id = id ∧ sst.syncId = syncId := by
  unfold build
  refine (buildRecordBlocks_ensures records).bind ?_
  rintro (_ | ⟨first, rest⟩) ⟨whole, sound⟩
  · trivial
  · exact ⟨⟨sound, by rwa [← whole] at ascending⟩, whole, rfl, rfl⟩

/-! ### Lookups -/

variable {sst : SSTable V}

theorem Sound.block_ascending (sound : sst.Sound) {block : RecordBlock V}
    (member : block ∈ sst.blocks) : Ascending block.records :=
  (pairwise_flatMap.mp sound.ascending).1 block member

theorem Sound.whole {sst : SSTable V} (sound : sst.Sound) :
    RecordBlock.Sound ⟨sst.range.1, sst.range.2, sst.records⟩ where
  first := by
    have first := sound.blocks sst.firstBlock mem_cons_self
    show (sst.firstBlock.records ++ sst.restBlocks.flatMap RecordBlock.records).head?.map Prod.fst = _
    rw [List.head?_append_of_ne_nil _ first.ne_nil]
    exact first.first
  last := by
    have last := sound.blocks sst.lastBlock (getLast_mem _)
    have split : sst.records =
        sst.blocks.dropLast.flatMap RecordBlock.records ++ sst.lastBlock.records := by
      have parts : sst.blocks.dropLast ++ [sst.lastBlock] = sst.blocks := dropLast_append_getLast _
      rw [records]
      conv_lhs => rw [← parts]
      simp
    show sst.records.getLast?.map Prod.fst = _
    rw [split, List.getLast?_append_of_ne_nil _ last.ne_nil]
    exact last.last

theorem Sound.mem_range {sst : SSTable V} (sound : sst.Sound) {key : Nat} {value : ValueEx V}
    (member : (key, value) ∈ sst.records) : sst.range.1 ≤ key ∧ key ≤ sst.range.2 :=
  ⟨sound.whole.first_le sound.ascending member, sound.whole.le_last sound.ascending member⟩

variable {key : Nat}

theorem Sound.get_eq_some (sound : sst.Sound) {value : V} :
    sst.get key = some value ↔ ∃ stored, (key, stored) ∈ sst.records ∧ stored.get = value := by
  simp only [get, map_eq_some_iff, sound.ascending.lookup_eq_some]

theorem Sound.get_eq_none (sound : sst.Sound)
    (outside : sst.isWithinRange key = false) : sst.get key = none := by
  rw [eq_none_iff_forall_not_mem]
  intro value answer
  obtain ⟨stored, member, -⟩ := sound.get_eq_some.mp answer
  have bounds := sound.mem_range member
  simp [isWithinRange, bounds] at outside

variable {blocks : List (RecordBlock V)}

theorem lookup_find (sound : ∀ block ∈ blocks, block.Sound)
    (ascending : Ascending (blocks.flatMap RecordBlock.records)) (key : Nat) :
    (blocks.flatMap RecordBlock.records).lookup key =
      (blocks.find? fun block => block.first ≤ key && key ≤ block.last).bind
        fun block => block.records.lookup key := by
  induction blocks with
  | nil => rfl
  | cons block rest ih =>
    rw [flatMap_cons] at ascending ⊢
    obtain ⟨own, others, order⟩ := pairwise_append.mp ascending
    have here := sound block mem_cons_self
    rw [lookup_append, List.find?_cons]
    cases within : (decide (block.first ≤ key) && decide (key ≤ block.last)) with
    | true =>
      simp only [Bool.and_eq_true, decide_eq_true_eq] at within
      have none : (rest.flatMap RecordBlock.records).lookup key = none := by
        rw [Ascending.lookup_eq_none]
        intro value member
        obtain ⟨last, held⟩ := here.last_mem
        have := order _ held _ member
        dsimp only at this
        omega
      rw [none, or_none]
      rfl
    | false =>
      have none : block.records.lookup key = none := by
        rw [Ascending.lookup_eq_none]
        intro value member
        have lower := here.first_le own member
        have upper := here.le_last own member
        simp [lower, upper] at within
      rw [none, none_or]
      exact ih (fun other member => sound other (mem_cons_of_mem _ member)) others

theorem Sound.accessPoint_returns (sound : sst.Sound)
    (within : sst.isWithinRange key = true) :
    Returns (sst.accessPoint key) fun answer => answer = sst.get key := by
  unfold accessPoint
  rw [within, assert, if_pos rfl, bind_ok, get, records, lookup_find sound.blocks sound.ascending]
  cases sst.blocks.find? fun block => block.first ≤ key && key ≤ block.last with
  | none => rfl
  | some block => rfl

theorem flatMap_window (sound : ∀ block ∈ blocks, block.Sound)
    (ascending : ∀ block ∈ blocks, Ascending block.records) (first last : Nat) :
    ((blocks.filter fun block => !(decide (block.last < first) || decide (last < block.first))).flatMap
      fun block => window first last block.records) =
      window first last (blocks.flatMap RecordBlock.records) := by
  induction blocks with
  | nil => rfl
  | cons block rest ih =>
    have tail := ih (fun other member => sound other (mem_cons_of_mem _ member))
      fun other member => ascending other (mem_cons_of_mem _ member)
    have split : window first last ((block :: rest).flatMap RecordBlock.records) =
        window first last block.records ++ window first last (rest.flatMap RecordBlock.records) := by
      simp [window]
    rw [split, ← tail, filter_cons]
    cases overlap : !(decide (block.last < first) || decide (last < block.first)) with
    | true => rfl
    | false =>
      have empty : window first last block.records = [] := by
        refine eq_nil_iff_forall_not_mem.mpr ?_
        rintro answer member
        obtain ⟨bounds, stored, held, -⟩ := mem_window.mp member
        have lower := (sound block mem_cons_self).first_le (ascending block mem_cons_self) held
        have upper := (sound block mem_cons_self).le_last (ascending block mem_cons_self) held
        simp only [Bool.not_eq_false', Bool.or_eq_true, decide_eq_true_eq] at overlap
        dsimp only at lower upper
        omega
      rw [empty, nil_append]
      rfl

theorem Sound.accessRange_returns (sound : sst.Sound) {ctx : RangeQueryCtx V}
    {skip : Nat → Bool} {found : Nat → Option V} (tracks : ctx.Tracks skip found)
    (left : ctx.isCompleted = false) :
    Returns (sst.accessRange ctx) fun next =>
      next.Tracks skip (fun key => (found key).or (sst.get key)) ∧ ctx.SameRange next := by
  unfold accessRange
  rw [left, assert, if_pos (by rfl), bind_ok]
  refine (tracks.marks.rangeUncompleted_returns left).bind ?_
  rintro _ ⟨first, last, rfl, clear, inside⟩
  rw [unwrap, bind_ok]
  dsimp only
  rw [flatMap_window sound.blocks fun block member => sound.block_ascending member]
  exact tracks.window_returns sound.ascending clear inside

/-! ### Scans -/

def settled (allSynced : Bool) (value : ValueEx V) : ValueEx V :=
  if allSynced then .synced value.get else value

theorem scanValue_eq (allSynced : Bool) (value : ValueEx V) :
    scanValue allSynced false value = some (settled allSynced value) := by
  cases value <;> cases allSynced <;> rfl

@[simp]
theorem get_settled (allSynced : Bool) (value : ValueEx V) :
    (settled allSynced value).get = value.get := by
  cases allSynced <;> rfl

theorem scanBlock_eq (allSynced : Bool) (block : RecordBlock V) : scanBlock allSynced false block =
      block.records.map fun record => (record.1, settled allSynced record.2) := by
  simp only [scanBlock, scanValue_eq, map_some, filterMap_eq_map']

theorem scanRest_eq (allSynced : Bool)
    (sound : ∀ block ∈ blocks, block.Sound) :
    scanRest allSynced false blocks =
      (blocks.flatMap RecordBlock.records).map fun record => (record.1, settled allSynced record.2) := by
  induction blocks with
  | nil => rfl
  | cons block rest ih =>
    have filled := (sound block mem_cons_self).ne_nil
    rw [scanRest, scanBlock_eq, if_neg (by simpa using filled), ih fun other member =>
      sound other (mem_cons_of_mem _ member),
      flatMap_cons, map_append]

theorem Sound.iter_eq (sound : sst.Sound) (syncId : Nat) : sst.iter syncId false =
      sst.records.map fun record => (record.1, settled (decide (sst.syncId < syncId)) record.2) := by
  rw [iter, scanBlock_eq, scanRest_eq _ fun block member => sound.blocks block (mem_cons_of_mem _ member),
    ← map_append]
  rfl

theorem Sound.iter_ascending (sound : sst.Sound) (syncId : Nat) :
    Ascending (sst.iter syncId false) := by
  rw [sound.iter_eq]
  exact pairwise_map.mpr (sound.ascending.imp fun lower => lower)

theorem Sound.mem_iter (sound : sst.Sound) {syncId key : Nat} {value : V} :
    (∃ stored, (key, stored) ∈ sst.iter syncId false ∧ stored.get = value) ↔
      sst.get key = some value := by
  rw [sound.iter_eq, sound.get_eq_some]
  constructor
  · rintro ⟨stored, member, rfl⟩
    obtain ⟨record, held, same⟩ := mem_map.mp member
    cases same
    exact ⟨record.2, held, (get_settled _ _).symm⟩
  · rintro ⟨stored, member, rfl⟩
    exact ⟨_, mem_map.mpr ⟨_, member, rfl⟩, get_settled _ _⟩

theorem Sound.mem_range_of_iter (sound : sst.Sound) {syncId key : Nat}
    {value : ValueEx V} (member : (key, value) ∈ sst.iter syncId false) :
    sst.range.1 ≤ key ∧ key ≤ sst.range.2 := by
  rw [sound.iter_eq] at member
  obtain ⟨record, inside, same⟩ := mem_map.mp member
  cases same
  exact sound.mem_range inside

end SSTable

end Kei.SecureDisk
