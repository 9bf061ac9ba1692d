import Kei.Library.Settles
import Kei.SecureDisk.ChunkAlloc
import Mathlib.Data.List.Rotate

/-! What the operations of the chunk allocator's state do, as sets of allocated chunks: an
allocation takes the next free chunk in a fixed cyclic order, a deallocation needs an
allocated chunk and frees it. -/

namespace Kei.SecureDisk

open Library Checked List

theorem BitMap.firstZero_eq {bits : BitMap} {first : Nat} (bound : first < bits.length) :
    bits.firstZero first =
      .ok (((List.range bits.length).drop first).filter fun index => bits[index]? == some false).head? := by
  unfold firstZero
  rw [if_pos bound, ← List.head?_filter]
  congr 2
  have low : ((List.range bits.length).take first).filter
      (fun index => decide (first ≤ index) && bits[index]? == some false) = [] := by
    rw [filter_eq_nil_iff]
    intro index member
    rw [take_range, mem_range] at member
    have below : ¬first ≤ index := by omega
    simp [below]
  have high : ((List.range bits.length).drop first).filter
      (fun index => decide (first ≤ index) && bits[index]? == some false) =
      ((List.range bits.length).drop first).filter fun index => bits[index]? == some false := by
    refine filter_congr ?_
    intro index member
    rw [range_eq_range', drop_range', mem_range'_1] at member
    have above : first ≤ index := by omega
    simp [above]
  conv_lhs => rw [← take_append_drop first (List.range bits.length)]
  rw [filter_append, low, high, nil_append]

namespace ChunkAllocState

variable {state : ChunkAllocState} {id : Nat}

def Allocated (state : ChunkAllocState) (id : Nat) : Prop := state.allocMap[id]? = some true

def order (state : ChunkAllocState) : List Nat :=
  (List.range state.allocMap.length).rotate state.nextFree

def freeChunks (state : ChunkAllocState) : List Nat :=
  state.order.filter fun id => state.allocMap[id]? == some false

structure Counted (state : ChunkAllocState) : Prop where
  free : state.freeCount = state.allocMap.count false
  next : state.nextFree ≤ state.allocMap.length

theorem counted_replicate (capacity : Nat) (inJournal : Bool) :
    Counted ⟨List.replicate capacity false, capacity, 0, inJournal⟩ where
  free := by simp
  next := Nat.zero_le _

theorem mem_freeChunks : id ∈ state.freeChunks ↔ state.allocMap[id]? = some false := by
  simp only [freeChunks, order, mem_filter, mem_rotate, mem_range, beq_iff_eq]
  refine and_iff_right_of_imp fun clear => ?_
  exact (List.getElem?_eq_some_iff.mp clear).1

theorem not_allocated_of_mem (free : id ∈ state.freeChunks) : ¬state.Allocated id := by
  rw [mem_freeChunks] at free
  simp [Allocated, free]

def startOf (state : ChunkAllocState) : Nat :=
  if state.nextFree = state.allocMap.length then 0 else state.nextFree

theorem findFree_eq (counted : state.Counted) (some : 0 < state.allocMap.length) :
    findFree state.allocMap state.startOf = unwrap state.freeChunks.head? := by
  have whole : state.freeChunks = ((List.range state.allocMap.length).drop state.nextFree).filter
          (fun index => state.allocMap[index]? == Option.some false) ++
        ((List.range state.allocMap.length).take state.nextFree).filter
          (fun index => state.allocMap[index]? == Option.some false) := by
    rw [freeChunks, order, rotate_eq_drop_append_take (by simpa using counted.next), filter_append]
  unfold findFree startOf
  by_cases last : state.nextFree = state.allocMap.length
  · have above : (List.range state.allocMap.length).drop state.nextFree = [] :=
      drop_of_length_le (by simp [last])
    have below : (List.range state.allocMap.length).take state.nextFree = List.range state.allocMap.length :=
      take_of_length_le (by simp [last])
    rw [if_pos last, BitMap.firstZero_eq some, bind_ok, whole, above, below, drop_zero, filter_nil,
      nil_append]
    split
    · rename_i found
      rw [found]
      rfl
    · rename_i found
      rw [found]
      rfl
  · have inside : state.nextFree < state.allocMap.length := lt_of_le_of_ne counted.next last
    rw [if_neg last, BitMap.firstZero_eq inside, bind_ok, whole]
    split
    · rename_i found
      rw [List.head?_append, found]
      rfl
    · rename_i found
      rw [List.head?_eq_none_iff] at found
      rw [BitMap.firstZero_eq some, bind_ok, drop_zero, found, nil_append]
      conv_lhs => rw [← take_append_drop state.nextFree (List.range state.allocMap.length)]
      rw [filter_append, found, append_nil]

def taking (state : ChunkAllocState) (id : Nat) : ChunkAllocState :=
  { state with allocMap := state.allocMap.set id true, freeCount := state.freeCount - 1, nextFree := id + 1 }

theorem lt_of_clear {bits : BitMap} {bit : Bool} (read : bits[id]? = some bit) : id < bits.length :=
  (List.getElem?_eq_some_iff.mp read).1

theorem alloc_of_free (counted : state.Counted) {rest : List Nat} (free : state.freeChunks = id :: rest) :
    state.alloc = .ok (some id, state.taking id) := by
  have clear : state.allocMap[id]? = some false := mem_freeChunks.mp (free ▸ mem_cons_self)
  have bound := lt_of_clear clear
  have positive : 0 < state.freeCount := by
    rw [counted.free, count_pos_iff]
    exact mem_of_getElem? clear
  have found := findFree_eq counted (by omega : 0 < state.allocMap.length)
  rw [free] at found
  unfold alloc
  change (findFree state.allocMap state.startOf >>= _) = _
  rw [found, List.head?_cons, unwrap, bind_ok, store, if_pos bound, bind_ok, sub_ok positive]
  rfl

theorem alloc_of_full (counted : state.Counted) (full : state.freeChunks = []) :
    ∃ panic, state.alloc = .error panic := by
  unfold alloc
  change ∃ panic, (findFree state.allocMap state.startOf >>= _) = _
  by_cases none : 0 < state.allocMap.length
  · rw [findFree_eq counted none, full]
    exact ⟨_, rfl⟩
  · refine ⟨.indexOutOfBounds, ?_⟩
    have outside : ¬state.startOf < state.allocMap.length := by omega
    rw [findFree, BitMap.firstZero, if_neg outside]
    rfl

theorem allocated_taking (bound : id < state.allocMap.length) (other : Nat) :
    (state.taking id).Allocated other ↔ state.Allocated other ∨ other = id := by
  unfold Allocated taking
  dsimp only
  rw [List.getElem?_set]
  by_cases same : id = other
  · subst same
    simp [bound]
  · simp [same, Ne.symm same]

theorem counted_taking (counted : state.Counted) (clear : state.allocMap[id]? = some false) :
    (state.taking id).Counted where
  free := by
    have bound := lt_of_clear clear
    have bit : state.allocMap[id] = false := (List.getElem?_eq_some_iff.mp clear).2
    unfold taking
    dsimp only
    rw [count_set bound, counted.free, bit]
    simp
  next := by
    have := lt_of_clear clear
    simp only [taking, length_set]
    omega

theorem freeChunks_taking {rest : List Nat} (free : state.freeChunks = id :: rest) :
    (state.taking id).freeChunks = rest := by
  obtain ⟨before, after, split, taken, holds, tail⟩ := filter_eq_cons_iff.mp free
  have length : (List.range state.allocMap.length).length = state.allocMap.length := length_range
  have turned : (state.taking id).order = after ++ (before ++ [id]) := by
    have place : state.order[before.length]? = some id := by
      rw [split, List.getElem?_append_right (Nat.le_refl _)]
      simp
    have inside : before.length < state.allocMap.length := by
      have := congrArg List.length split
      simp only [order, length_rotate, length, length_append, length_cons] at this
      omega
    have position : (before.length + state.nextFree) % state.allocMap.length = id := by
      rw [order, List.getElem?_rotate (by omega), length, List.getElem?_range] at place
      · exact Option.some.inj place
      · exact Nat.mod_lt _ (by omega)
    have next : (List.range state.allocMap.length).rotate (id + 1) =
        state.order.rotate (before.length + 1) := by
      rw [order, rotate_rotate, ← rotate_mod _ (id + 1), ← rotate_mod _ (state.nextFree + _),
        length, ← position, Nat.mod_add_mod]
      congr 2
      omega
    unfold order taking
    dsimp only
    rw [length_set, next, split, append_cons,
      show before.length + 1 = (before ++ [id]).length by simp, rotate_append_length_eq]
  have cleared : ∀ other, ((state.taking id).allocMap[other]? == some false) =
      (state.allocMap[other]? == some false && other != id) := by
    intro other
    unfold taking
    dsimp only
    rw [List.getElem?_set]
    by_cases same : id = other
    · subst same
      have bound := lt_of_clear (beq_iff_eq.mp holds)
      simp [bound]
    · simp [same, Ne.symm same]
  have distinct : (before ++ id :: after).Nodup := split ▸ nodup_rotate.mpr nodup_range
  unfold freeChunks
  rw [turned, ← tail, filter_append]
  have none : (before ++ [id]).filter (fun other => (state.taking id).allocMap[other]? == some false) = [] := by
    rw [filter_eq_nil_iff]
    intro other member
    rw [cleared]
    rcases mem_append.mp member with early | last
    · simp [taken other early]
    · simp [mem_singleton.mp last]
  rw [none, append_nil]
  refine filter_congr fun other member => ?_
  have different : other ≠ id := by
    rintro rfl
    exact (nodup_cons.mp (nodup_append.mp distinct).2.1).1 member
  rw [cleared]
  simp [different]

structure With (state : ChunkAllocState) (ids : List Nat) (after : ChunkAllocState) : Prop where
  counted : after.Counted
  length : after.allocMap.length = state.allocMap.length
  inJournal : after.inJournal = state.inJournal
  allocated : ∀ id, after.Allocated id ↔ state.Allocated id ∨ id ∈ ids

theorem With.refl (counted : state.Counted) : state.With [] state :=
  ⟨counted, rfl, rfl, fun _ => by simp⟩

theorem with_taking (counted : state.Counted) (clear : state.allocMap[id]? = some false) :
    state.With [id] (state.taking id) where
  counted := counted_taking counted clear
  length := length_set
  inJournal := rfl
  allocated other := by rw [allocated_taking (lt_of_clear clear), mem_singleton]

theorem With.trans {middle after : ChunkAllocState} {first second : List Nat} (one : state.With first middle)
    (two : middle.With second after) : state.With (first ++ second) after where
  counted := two.counted
  length := two.length.trans one.length
  inJournal := two.inJournal.trans one.inJournal
  allocated id := by rw [two.allocated, one.allocated, mem_append, or_assoc]

theorem alloc_ensures (counted : state.Counted) :
    Ensures state.alloc fun result => ∃ id, state.allocMap[id]? = some false ∧
      result.1 = some id ∧ state.With [id] result.2 := by
  cases free : state.freeChunks with
  | nil =>
    obtain ⟨panic, stuck⟩ := alloc_of_full counted free
    rw [stuck]
    trivial
  | cons id rest =>
    rw [alloc_of_free counted free]
    have clear : state.allocMap[id]? = some false := mem_freeChunks.mp (free ▸ mem_cons_self)
    exact ⟨id, clear, rfl, with_taking counted clear⟩

variable {ids : List Nat}

theorem allocMany_ensures (count : Nat) (counted : state.Counted) :
    Ensures (allocMany count ids state) fun result => ∃ new, result.1 = some (ids ++ new) ∧ new.length = count ∧
      new.Nodup ∧ (∀ id ∈ new, ¬state.Allocated id) ∧ state.With new result.2 := by
  induction count generalizing ids state with
  | zero => exact ⟨[], by simp, rfl, nodup_nil, by simp, With.refl counted⟩
  | succ count ih =>
    unfold allocMany
    refine (alloc_ensures counted).bind ?_
    rintro ⟨_, middle⟩ ⟨id, clear, rfl, first⟩
    refine (ih first.counted).mono ?_
    rintro ⟨_, after⟩ ⟨new, rfl, rfl, nodup, unused, second⟩
    have bit : ¬state.Allocated id := by simp [Allocated, clear]
    refine ⟨id :: new, by simp, rfl, nodup_cons.mpr ⟨?_, nodup⟩, ?_, first.trans second⟩
    · intro member
      exact unused id member ((first.allocated id).mpr (.inr mem_cons_self))
    · rintro other (_ | ⟨_, member⟩)
      · exact bit
      · exact fun allocated => unused other member ((first.allocated other).mpr (.inl allocated))

def freeing (state : ChunkAllocState) (id : Nat) : ChunkAllocState :=
  { state with allocMap := state.allocMap.set id false, freeCount := state.freeCount + 1 }

theorem dealloc_of_allocated (allocated : state.Allocated id) : state.dealloc id = .ok (state.freeing id) := by
  unfold dealloc
  rw [index_getElem? allocated, bind_ok, assert, if_pos rfl, bind_ok, store, if_pos (lt_of_clear allocated)]
  rfl

theorem dealloc_of_free (free : ¬state.Allocated id) : ∃ panic, state.dealloc id = .error panic := by
  unfold dealloc index
  cases read : state.allocMap[id]? with
  | none => exact ⟨_, rfl⟩
  | some bit =>
    cases bit with
    | true => exact absurd read free
    | false => exact ⟨_, rfl⟩

structure Without (state : ChunkAllocState) (ids : List Nat) (after : ChunkAllocState) : Prop where
  counted : after.Counted
  length : after.allocMap.length = state.allocMap.length
  inJournal : after.inJournal = state.inJournal
  allocated : ∀ id, after.Allocated id ↔ state.Allocated id ∧ id ∉ ids

variable (counted : state.Counted)
include counted

theorem without_freeing (allocated : state.Allocated id) : state.Without [id] (state.freeing id) where
  counted := by
    have bound := lt_of_clear allocated
    have bit : state.allocMap[id] = true := (List.getElem?_eq_some_iff.mp allocated).2
    refine ⟨?_, ?_⟩
    · unfold freeing
      dsimp only
      rw [count_set bound, counted.free, bit]
      simp
    · unfold freeing
      dsimp only
      rw [length_set]
      exact counted.next
  length := length_set
  inJournal := rfl
  allocated other := by
    unfold Allocated freeing
    dsimp only
    rw [List.getElem?_set]
    by_cases same : id = other
    · subst same
      simp [lt_of_clear allocated]
    · simp [same, Ne.symm same]

theorem deallocAll_returns (distinct : ids.Nodup) (allocated : ∀ id ∈ ids, state.Allocated id) :
    Returns (ids.foldlM dealloc state) (state.Without ids) := by
  induction ids generalizing state with
  | nil => exact ⟨counted, rfl, rfl, fun _ => by simp⟩
  | cons id rest ih =>
    obtain ⟨unlisted, distinct⟩ := nodup_cons.mp distinct
    have first := without_freeing counted (allocated id mem_cons_self)
    rw [foldlM_cons, dealloc_of_allocated (allocated id mem_cons_self), bind_ok]
    refine (ih first.counted distinct ?_).mono ?_
    · intro other member
      rw [first.allocated, mem_singleton]
      refine ⟨allocated other (mem_cons_of_mem _ member), ?_⟩
      rintro rfl
      exact unlisted member
    · intro after second
      refine ⟨second.counted, second.length.trans first.length, second.inJournal.trans first.inJournal, ?_⟩
      intro other
      rw [second.allocated, first.allocated, mem_singleton, mem_cons, not_or, and_assoc]

theorem deallocAll_allocated : Ensures (ids.foldlM dealloc state) fun _ => ∀ id ∈ ids, state.Allocated id := by
  induction ids generalizing state with
  | nil => exact fun _ member => nomatch member
  | cons id rest ih =>
    rw [foldlM_cons]
    by_cases allocated : state.Allocated id
    · have first := without_freeing counted allocated
      rw [dealloc_of_allocated allocated, bind_ok]
      refine (ih first.counted).mono ?_
      rintro _ others other (_ | ⟨_, member⟩)
      · exact allocated
      · exact ((first.allocated other).mp (others other member)).1
    · obtain ⟨panic, stuck⟩ := dealloc_of_free allocated
      rw [stuck]
      trivial

theorem deallocAll_ensures (distinct : ids.Nodup) : Ensures (ids.foldlM dealloc state) fun after =>
      (∀ id ∈ ids, state.Allocated id) ∧ state.Without ids after := by
  rw [ensures_iff]
  intro after ran
  have allocated := (deallocAll_allocated counted).of_ok ran
  exact ⟨allocated, (deallocAll_returns counted distinct allocated).of_ok ran⟩

end ChunkAllocState

namespace ChunkAllocEdit

variable {edit : ChunkAllocEdit} {state : ChunkAllocState} {id : Nat}

open ChunkAllocState

theorem mem_chunksWith {kind : ChunkEdit} : id ∈ edit.chunksWith kind ↔ edit.editTable.get id = some kind := by
  rw [SortedMap.get_eq_some]
  simp [chunksWith, chunksIn]

theorem nodup_chunksWith {kind : ChunkEdit} : (edit.chunksWith kind).Nodup := by
  have keys : ((edit.editTable.entries.filter fun entry => entry.2 = kind).map Prod.fst).Nodup :=
    Ascending.keys_nodup (edit.editTable.ascending.filter _)
  have same : edit.chunksWith kind = (edit.editTable.entries.filter fun entry => entry.2 = kind).map Prod.fst := by
    unfold chunksWith chunksIn
    induction edit.editTable.entries with
    | nil => rfl
    | cons entry rest ih =>
      by_cases chosen : entry.2 = kind
      · simp [chosen, ih]
      · simp [chosen, ih]
  rw [same]
  exact keys

theorem applyEntries_live (entries : List (Nat × ChunkEdit)) (live : state.inJournal = false) :
    entries.foldlM applyEntry state = .ok state := by
  induction entries with
  | nil => rfl
  | cons entry rest ih =>
    have first : applyEntry state entry = .ok state := by
      unfold applyEntry
      cases entry.2 with
      | alloc => simp [live]
      | dealloc => rfl
    rw [foldlM_cons, first, bind_ok, ih]

theorem applyEntries_settles (entries : List (Nat × ChunkEdit)) (journal : state.inJournal = true)
    (counted : state.Counted) :
    Settles ((chunksIn .alloc entries).length ≤ state.freeChunks.length) (entries.foldlM applyEntry state)
      (state.With (state.freeChunks.take (chunksIn .alloc entries).length)) := by
  induction entries generalizing state with
  | nil => exact ⟨Nat.zero_le _, With.refl counted⟩
  | cons entry rest ih =>
    obtain ⟨named, kind⟩ := entry
    rw [foldlM_cons]
    cases kind with
    | dealloc => exact ih journal counted
    | alloc =>
      have more : (chunksIn .alloc ((named, .alloc) :: rest)).length = (chunksIn .alloc rest).length + 1 := rfl
      rw [more]
      unfold applyEntry
      dsimp only
      rw [if_pos journal]
      cases free : state.freeChunks with
      | nil =>
        obtain ⟨panic, stuck⟩ := alloc_of_full counted free
        rw [stuck]
        exact Nat.not_succ_le_zero _
      | cons id others =>
        have clear : state.allocMap[id]? = some false := mem_freeChunks.mp (free ▸ mem_cons_self)
        have settles : Settles _ (rest.foldlM applyEntry (state.taking id)) _ :=
          ih journal (counted_taking counted clear)
        rw [freeChunks_taking free] at settles
        rw [alloc_of_free counted free, take_succ_cons]
        exact settles.mono Nat.succ_le_succ_iff.symm fun after _ => (with_taking counted clear).trans

theorem applyTo_live (live : state.inJournal = false) (counted : state.Counted) :
    Ensures (edit.applyTo state) fun after =>
      (∀ id ∈ edit.chunksWith .dealloc, state.Allocated id) ∧ state.Without (edit.chunksWith .dealloc) after := by
  unfold applyTo
  rw [applyEntries_live _ live, bind_ok]
  exact deallocAll_ensures counted nodup_chunksWith

theorem allocAll_ensures (ids : List Nat) : Ensures (ids.foldlM alloc edit) fun after =>
      ∀ id, after.editTable.get id = if id ∈ ids then some .alloc else edit.editTable.get id := by
  induction ids generalizing edit with
  | nil => exact fun _ => by simp
  | cons first rest ih =>
    rw [foldlM_cons]
    have one : Ensures (edit.alloc first) fun after => ∀ id, after.editTable.get id =
        if id = first then some .alloc else edit.editTable.get id := by
      unfold alloc
      refine (assert_ensures _).bind fun _ _ => ?_
      exact fun id => SortedMap.get_insert _ _ _ _
    refine one.bind ?_
    intro middle recorded
    refine ih.mono ?_
    intro after others id
    rw [others, recorded]
    by_cases listed : id ∈ rest
    · simp [listed]
    · simp [listed]

end ChunkAllocEdit

end Kei.SecureDisk
