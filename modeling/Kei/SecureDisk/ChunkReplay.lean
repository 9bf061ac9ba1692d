import Kei.SecureDisk.ChunkRules

/-! Whether replaying the journal gives back who owns which chunk. `apply_to` lets the
journal's state choose the chunks it marks, so the replay is right exactly as long as every
committed transaction holds the chunks that this choice falls on. -/

namespace Kei.SecureDisk

open Library Checked ChunkAllocState List ChunkAllocEdit ChunkAlloc

def Owns (log : List ChunkAllocEdit) (id : Nat) : Prop :=
  ∃ before edit after, log = before ++ edit :: after ∧ edit.editTable.get id = some .alloc ∧
    ∀ later ∈ after, later.editTable.get id ≠ some .dealloc

def Survives (capacity : Nat) (log : List ChunkAllocEdit) : Prop :=
  ∃ state, replay capacity log = .ok state ∧ state.allocMap.length = capacity ∧
    (∀ id, state.Allocated id ↔ Owns log id) ∧ state.freeCount = state.allocMap.count false

/-- The transaction allocated the chunks that come next in the journal's state, and deallocates
chunks that are allocated there. -/
def Reproduced (capacity : Nat) (log : List ChunkAllocEdit) (edit : ChunkAllocEdit) : Prop :=
  ∃ state, replay capacity log = .ok state ∧
    (∀ id, id ∈ edit.allocatedChunks ↔ id ∈ state.freeChunks.take edit.allocatedChunks.length) ∧
    ∀ id ∈ edit.chunksWith .dealloc, state.Allocated id

theorem not_owns_nil (id : Nat) : ¬Owns [] id := by
  rintro ⟨before, edit, after, split, -, -⟩
  simp at split

theorem owns_concat {log : List ChunkAllocEdit} {edit : ChunkAllocEdit} {id : Nat} :
    Owns (log ++ [edit]) id ↔
      edit.editTable.get id = some .alloc ∨ Owns log id ∧ edit.editTable.get id ≠ some .dealloc := by
  constructor
  · rintro ⟨before, found, after, split, allocates, kept⟩
    rcases eq_nil_or_concat after with rfl | ⟨middle, last, rfl⟩
    · obtain ⟨-, same⟩ := append_inj' split rfl
      rw [singleton_inj.mp same]
      exact .inl allocates
    · rw [concat_eq_append] at split kept
      rw [show before ++ found :: (middle ++ [last]) = (before ++ found :: middle) ++ [last] by simp] at split
      obtain ⟨same, end_⟩ := append_inj' split rfl
      rw [singleton_inj.mp end_]
      refine .inr ⟨⟨before, found, middle, same, allocates, ?_⟩, kept last (by simp)⟩
      intro later member
      exact kept later (mem_append_left _ member)
  · rintro (allocates | ⟨⟨before, found, after, rfl, allocates, kept⟩, retained⟩)
    · exact ⟨log, edit, [], rfl, allocates, by simp⟩
    · refine ⟨before, found, after ++ [edit], by simp, allocates, ?_⟩
      intro later member
      rcases mem_append.mp member with early | last
      · exact kept later early
      · rw [mem_singleton.mp last]
        exact retained

theorem replay_concat (capacity : Nat) (log : List ChunkAllocEdit) (edit : ChunkAllocEdit) :
    replay capacity (log ++ [edit]) = replay capacity log >>= edit.applyTo := by
  unfold replay
  rw [foldlM_append]
  congr 1
  funext state
  exact bind_pure _

theorem applyTo_journal {edit : ChunkAllocEdit} {state : ChunkAllocState} (journal : state.inJournal = true)
    (counted : state.Counted) :
    Ensures (edit.applyTo state) fun after => ∃ middle,
      edit.allocatedChunks.length ≤ state.freeChunks.length ∧
      state.With (state.freeChunks.take edit.allocatedChunks.length) middle ∧
      (∀ id ∈ edit.chunksWith .dealloc, middle.Allocated id) ∧
      middle.Without (edit.chunksWith .dealloc) after := by
  rw [ensures_iff]
  intro after ran
  obtain ⟨middle, first, second⟩ := bind_eq_ok.mp ran
  obtain ⟨room, taken⟩ := (applyEntries_settles edit.editTable.entries journal counted).of_ok first
  obtain ⟨allocated, freed⟩ := (deallocAll_ensures taken.counted nodup_chunksWith).of_ok second
  exact ⟨middle, room, taken, allocated, freed⟩

theorem replay_ensures (capacity : Nat) (log : List ChunkAllocEdit) :
    Ensures (replay capacity log) fun state =>
      state.inJournal = true ∧ state.Counted ∧ state.allocMap.length = capacity := by
  refine meets_foldlM
    (fun state : ChunkAllocState => state.inJournal = true ∧ state.Counted ∧ state.allocMap.length = capacity) ?_
    ⟨rfl, counted_replicate _ _, length_replicate⟩
  rintro state edit - ⟨journal, counted, length⟩
  refine (applyTo_journal journal counted).mono ?_
  rintro after ⟨middle, -, taken, -, freed⟩
  exact ⟨freed.inJournal.trans (taken.inJournal.trans journal), freed.counted,
    freed.length.trans (taken.length.trans length)⟩

theorem survives_nil (capacity : Nat) : Survives capacity [] := by
  refine ⟨_, rfl, length_replicate, ?_, (counted_replicate _ _).free⟩
  intro id
  refine iff_of_false ?_ (not_owns_nil id)
  simp [Allocated, ChunkAllocState.newInJournal, List.getElem?_replicate]

section Step

variable {capacity : Nat} {log : List ChunkAllocEdit} {edit : ChunkAllocEdit} {state : ChunkAllocState}

theorem survives_of_reproduced (survives : Survives capacity log)
    (reproduced : Reproduced capacity log edit) : Survives capacity (log ++ [edit]) := by
  obtain ⟨state, ran, length, owned, -⟩ := survives
  obtain ⟨_, again, chosen, deallocated⟩ := reproduced
  obtain rfl := Except.ok.inj (ran.symm.trans again)
  obtain ⟨journal, counted, -⟩ := (replay_ensures capacity log).of_ok ran
  have nodup : edit.allocatedChunks.Nodup := nodup_chunksWith
  have room : edit.allocatedChunks.length ≤ state.freeChunks.length :=
    (subperm_of_subset nodup fun id member => mem_of_mem_take ((chosen id).mp member)).length_le
  obtain ⟨middle, first, taken⟩ :=
    (applyEntries_settles edit.editTable.entries journal counted).exists_ok room
  have left : ∀ id ∈ edit.chunksWith .dealloc, middle.Allocated id := fun id member =>
    (taken.allocated id).mpr (.inl (deallocated id member))
  obtain ⟨after, second, freed⟩ :=
    (deallocAll_returns taken.counted nodup_chunksWith left).exists_ok
  refine ⟨after, ?_, freed.length.trans (taken.length.trans length), ?_, freed.counted.free⟩
  · rw [replay_concat, ran, bind_ok, applyTo, first, bind_ok, second]
  · intro id
    rw [freed.allocated, taken.allocated, owned, owns_concat, mem_chunksWith]
    have same := chosen id
    rw [allocatedChunks, mem_chunksWith] at same
    change _ ↔ id ∈ state.freeChunks.take (chunksIn _ _).length at same
    rw [← same]
    constructor
    · rintro ⟨owns | allocates, kept⟩
      · exact .inr ⟨owns, kept⟩
      · exact .inl allocates
    · rintro (allocates | ⟨owns, kept⟩)
      · exact ⟨.inr allocates, by simp [allocates]⟩
      · exact ⟨.inl owns, kept⟩

theorem reproduced_of_survives (survives : Survives capacity log)
    (fresh : ∀ id, edit.editTable.get id = some .alloc → ¬Owns log id)
    (next : Survives capacity (log ++ [edit])) : Reproduced capacity log edit := by
  obtain ⟨state, ran, -, owned, -⟩ := survives
  obtain ⟨after, again, -, result, -⟩ := next
  obtain ⟨journal, counted, -⟩ := (replay_ensures capacity log).of_ok ran
  rw [replay_concat, ran, bind_ok] at again
  obtain ⟨middle, room, taken, allocated, freed⟩ := (applyTo_journal journal counted).of_ok again
  have outside : ∀ id ∈ state.freeChunks.take edit.allocatedChunks.length, ¬Owns log id := by
    intro id member owns
    exact not_allocated_of_mem (mem_of_mem_take member) ((owned id).mpr owns)
  have inside : edit.allocatedChunks ⊆ state.freeChunks.take edit.allocatedChunks.length := by
    intro id member
    have allocates := mem_chunksWith.mp member
    have marked := (result id).mpr (owns_concat.mpr (.inl allocates))
    rw [freed.allocated, taken.allocated, owned] at marked
    exact marked.1.resolve_left (fresh id allocates)
  have perm : edit.allocatedChunks.Perm (state.freeChunks.take edit.allocatedChunks.length) := by
    refine (subperm_of_subset nodup_chunksWith inside).perm_of_length_le ?_
    rw [length_take]
    exact Nat.min_le_left _ _
  refine ⟨state, ran, fun id => perm.mem_iff, ?_⟩
  intro id member
  refine ((taken.allocated id).mp (allocated id member)).resolve_right fun chosen => ?_
  have allocates := mem_chunksWith.mp (perm.mem_iff.mpr chosen)
  rw [mem_chunksWith.mp member] at allocates
  simp at allocates

end Step

def AllReproduced (capacity : Nat) (log : List ChunkAllocEdit) : Prop :=
  ∀ before edit, before ++ [edit] <+: log → Reproduced capacity before edit

def AllSurvive (capacity : Nat) (log : List ChunkAllocEdit) : Prop :=
  ∀ before, before <+: log → Survives capacity before

section Log

variable {capacity : Nat} {log : List ChunkAllocEdit} {edit : ChunkAllocEdit}

theorem allReproduced_concat : AllReproduced capacity (log ++ [edit]) ↔
    AllReproduced capacity log ∧ Reproduced capacity log edit := by
  constructor
  · intro all
    refine ⟨fun before other shorter => ?_, all log edit (prefix_refl _)⟩
    exact all before other (shorter.trans (prefix_append _ _))
  · rintro ⟨earlier, last⟩ before other shorter
    rcases prefix_concat_iff.mp shorter with whole | shorter
    · obtain ⟨rfl, same⟩ := append_inj' whole rfl
      rw [singleton_inj.mp same]
      exact last
    · exact earlier before other shorter

theorem allSurvive_concat : AllSurvive capacity (log ++ [edit]) ↔
    AllSurvive capacity log ∧ Survives capacity (log ++ [edit]) := by
  constructor
  · intro all
    refine ⟨fun before shorter => ?_, all _ (prefix_refl _)⟩
    exact all before (shorter.trans (prefix_append _ _))
  · rintro ⟨earlier, last⟩ before shorter
    rcases prefix_concat_iff.mp shorter with rfl | shorter
    · exact last
    · exact earlier before shorter

end Log

namespace ChunkAlloc

variable {capacity tid : Nat} {chunks : ChunkAlloc}

def Holds (txs : SortedMap Nat ChunkAllocEdit) (tid id : Nat) : Prop :=
  ∃ edit, txs.get tid = some edit ∧ edit.editTable.get id = some .alloc

/-- The live state marks the chunks of committed and of ongoing transactions, and no chunk has
two of them. -/
structure Accounts (capacity : Nat) (chunks : ChunkAlloc) : Prop where
  length : chunks.state.allocMap.length = capacity
  live : chunks.state.inJournal = false
  counted : chunks.state.Counted
  allocated : ∀ id, chunks.state.Allocated id ↔ Owns chunks.committed id ∨ ∃ tid, Holds chunks.txs tid id
  unowned : ∀ tid id, Holds chunks.txs tid id → ¬Owns chunks.committed id
  alone : ∀ tid other id, Holds chunks.txs tid id → Holds chunks.txs other id → other = tid

theorem accounts_new (capacity : Nat) : Accounts capacity (new capacity) where
  length := length_replicate
  live := rfl
  counted := counted_replicate _ _
  allocated id := by
    refine iff_of_false ?_ ?_
    · simp [Allocated, new, ChunkAllocState.new, List.getElem?_replicate]
    · rintro (owns | ⟨tid, edit, found, -⟩)
      · exact not_owns_nil id owns
      · simp [new] at found
  unowned tid id := by
    rintro ⟨edit, found, -⟩
    simp [new] at found
  alone tid other id := by
    rintro ⟨edit, found, -⟩
    simp [new] at found

variable {txs : SortedMap Nat ChunkAllocEdit}

theorem holds_insert {edit : ChunkAllocEdit} {other id : Nat} :
    Holds (txs.insert tid edit) other id ↔
      if other = tid then edit.editTable.get id = some .alloc else Holds txs other id := by
  unfold Holds
  rw [SortedMap.get_insert]
  split <;> simp

theorem holds_remove {other id : Nat} :
    Holds (txs.remove tid) other id ↔ other ≠ tid ∧ Holds txs other id := by
  unfold Holds
  rw [SortedMap.get_remove]
  split
  · rename_i same
    simp [same]
  · rename_i different
    simp [different]

theorem Accounts.grant (accounts : Accounts capacity chunks) {edit grown : ChunkAllocEdit}
    {state : ChunkAllocState} {ids : List Nat} (found : chunks.txs.get tid = some edit)
    (unused : ∀ id ∈ ids, ¬chunks.state.Allocated id) (taken : chunks.state.With ids state)
    (recorded : ∀ id, grown.editTable.get id = if id ∈ ids then some .alloc else edit.editTable.get id) :
    Accounts capacity { chunks with state := state, txs := chunks.txs.insert tid grown } := by
  have holds : ∀ other id, Holds (chunks.txs.insert tid grown) other id ↔
      Holds chunks.txs other id ∨ other = tid ∧ id ∈ ids := by
    intro other id
    rw [holds_insert, recorded]
    by_cases same : other = tid
    · subst same
      by_cases listed : id ∈ ids
      · simp [listed]
      · simp [listed, Holds, found]
    · simp [same]
  have new : ∀ id ∈ ids, ¬Owns chunks.committed id ∧ ∀ other, ¬Holds chunks.txs other id := by
    intro id member
    have free := unused id member
    rw [accounts.allocated, not_or] at free
    exact ⟨free.1, fun other held => free.2 ⟨other, held⟩⟩
  refine ⟨taken.length.trans accounts.length, taken.inJournal.trans accounts.live, taken.counted, ?_, ?_, ?_⟩
  · intro id
    rw [taken.allocated, accounts.allocated]
    simp only [holds]
    constructor
    · rintro ((owns | ⟨other, held⟩) | listed)
      · exact .inl owns
      · exact .inr ⟨other, .inl held⟩
      · exact .inr ⟨tid, .inr ⟨rfl, listed⟩⟩
    · rintro (owns | ⟨other, held | ⟨-, listed⟩⟩)
      · exact .inl (.inl owns)
      · exact .inl (.inr ⟨other, held⟩)
      · exact .inr listed
  · intro other id held
    rcases (holds other id).mp held with held | ⟨-, listed⟩
    · exact accounts.unowned other id held
    · exact (new id listed).1
  · intro one other id first second
    rcases (holds one id).mp first with first | ⟨rfl, listed⟩
    · rcases (holds other id).mp second with second | ⟨-, listed⟩
      · exact accounts.alone one other id first second
      · exact absurd first ((new id listed).2 one)
    · rcases (holds other id).mp second with second | ⟨rfl, -⟩
      · exact absurd second ((new id listed).2 other)
      · rfl

theorem alloc_eq_allocBatch (chunks : ChunkAlloc) (tid : Nat) : chunks.alloc tid = (do
      let (ids, after) ← chunks.allocBatch tid 1
      return (ids.bind List.head?, after)) := by
  unfold alloc allocBatch allocMany
  cases chunks.state.alloc with
  | error panic => rfl
  | ok result =>
    obtain ⟨_ | id, state⟩ := result
    · rfl
    · cases chunks.txs.get tid with
      | none => rfl
      | some edit =>
        simp only [bind_ok, allocMany, unwrap, nil_append, insertionSort_cons, insertionSort_nil,
          orderedInsert_nil, foldlM_cons]
        cases edit.alloc id with
        | error panic => rfl
        | ok grown => rfl

variable {next : ChunkAlloc}

section

variable (accounts : Accounts capacity chunks)
include accounts

theorem Accounts.shrink {ids : List Nat} (freed : chunks.state.Without ids next.state)
    (owned : ∀ id, Owns next.committed id ∨ (∃ tid, Holds next.txs tid id) ↔ (Owns chunks.committed id ∨
      ∃ tid, Holds chunks.txs tid id) ∧ id ∉ ids)
    (unowned : ∀ tid id, Holds next.txs tid id → ¬Owns next.committed id)
    (holds : ∀ tid id, Holds next.txs tid id → Holds chunks.txs tid id) : Accounts capacity next where
  length := freed.length.trans accounts.length
  live := freed.inJournal.trans accounts.live
  counted := freed.counted
  allocated id := by rw [freed.allocated, accounts.allocated, owned]
  unowned := unowned
  alone tid other id first second := accounts.alone tid other id (holds _ _ first) (holds _ _ second)

/-- The state of the chunks and the log stay, and so does what each transaction holds. -/
theorem Accounts.of_holds (state : next.state = chunks.state) (log : next.committed = chunks.committed)
    (same : ∀ other id, Holds next.txs other id ↔ Holds chunks.txs other id) : Accounts capacity next where
  length := state ▸ accounts.length
  live := state ▸ accounts.live
  counted := state ▸ accounts.counted
  allocated id := by
    simp only [state, log, same]
    exact accounts.allocated id
  unowned other id held := log ▸ accounts.unowned other id ((same other id).mp held)
  alone one other id first second := accounts.alone one other id ((same one id).mp first) ((same other id).mp second)

theorem Accounts.newTx : Accounts capacity (chunks.newTx tid) := by
  unfold ChunkAlloc.newTx
  cases found : chunks.txs.get tid with
  | some edit => exact accounts
  | none =>
    refine accounts.of_holds rfl rfl fun other id => ?_
    rw [holds_insert]
    split
    · rename_i here
      subst here
      simp [Holds, found, ChunkAllocEdit.new]
    · exact Iff.rfl

theorem Accounts.allocBatch (count : Nat) : Ensures (chunks.allocBatch tid count) fun result =>
      Accounts capacity result.2 ∧ result.2.committed = chunks.committed := by
  unfold ChunkAlloc.allocBatch
  refine (allocMany_ensures count accounts.counted).bind ?_
  rintro ⟨_, state⟩ ⟨ids, rfl, -, -, unused, taken⟩
  dsimp only
  refine (unwrap_ensures _).bind ?_
  intro edit found
  refine (allocAll_ensures _).bind ?_
  intro grown entries
  refine ⟨accounts.grant found unused taken ?_, rfl⟩
  intro id
  rw [entries, nil_append]
  simp only [mem_insertionSort]

theorem Accounts.alloc : Ensures (chunks.alloc tid) fun result =>
      Accounts capacity result.2 ∧ result.2.committed = chunks.committed := by
  rw [alloc_eq_allocBatch]
  exact (accounts.allocBatch 1).bind fun _ kept => kept

theorem Accounts.dealloc (id : Nat) : Ensures (chunks.dealloc tid id) fun next =>
      Accounts capacity next ∧ next.committed = chunks.committed := by
  unfold ChunkAlloc.dealloc
  refine (unwrap_ensures _).bind ?_
  intro edit found
  unfold ChunkAllocEdit.dealloc
  cases entry : edit.editTable.get id with
  | none =>
    refine ⟨accounts.of_holds rfl rfl fun other chunk => ?_, rfl⟩
    rw [holds_insert, SortedMap.get_insert]
    by_cases here : other = tid
    · subst here
      by_cases equal : chunk = id
      · subst equal
        simp [Holds, found, entry]
      · simp [equal, Holds, found]
    · simp [here]
  | some kind =>
    cases kind with
    | dealloc => trivial
    | alloc =>
      have held : Holds chunks.txs tid id := ⟨edit, found, entry⟩
      have marked : chunks.state.Allocated id := (accounts.allocated id).mpr (.inr ⟨tid, held⟩)
      have remains : ∀ other chunk, Holds (chunks.txs.insert tid ⟨edit.editTable.remove id⟩) other chunk ↔
          Holds chunks.txs other chunk ∧ chunk ≠ id := by
        intro other chunk
        rw [holds_insert, SortedMap.get_remove]
        by_cases here : other = tid
        · subst here
          by_cases equal : chunk = id
          · simp [equal]
          · simp [equal, Holds, found]
        · simp only [here, if_false, iff_self_and]
          rintro second rfl
          exact here (accounts.alone tid other chunk held second)
      dsimp only
      rw [bind_ok]
      dsimp only
      rw [if_pos rfl, dealloc_of_allocated marked]
      refine ⟨accounts.shrink (without_freeing accounts.counted marked) ?_ ?_ ?_, rfl⟩
      · intro chunk
        simp only [remains, mem_singleton]
        constructor
        · rintro (owns | ⟨other, second, different⟩)
          · refine ⟨.inl owns, ?_⟩
            rintro rfl
            exact accounts.unowned tid chunk held owns
          · exact ⟨.inr ⟨other, second⟩, different⟩
        · rintro ⟨owns | ⟨other, second⟩, different⟩
          · exact .inl owns
          · exact .inr ⟨other, second, different⟩
      · intro other chunk second
        exact accounts.unowned other chunk ((remains other chunk).mp second).1
      · intro other chunk second
        exact ((remains other chunk).mp second).1

theorem Accounts.deallocBatch (ids : List Nat) : Ensures (chunks.deallocBatch tid ids) fun next =>
      Accounts capacity next ∧ next.committed = chunks.committed := by
  unfold ChunkAlloc.deallocBatch
  refine meets_foldlM (fun next => Accounts capacity next ∧ next.committed = chunks.committed) ?_ ⟨accounts, rfl⟩
  rintro next id - ⟨kept, log⟩
  refine (kept.dealloc id).mono ?_
  rintro last ⟨again, same⟩
  exact ⟨again, same.trans log⟩

theorem Accounts.abort :
    Ensures (chunks.abort tid) fun next => Accounts capacity next ∧ next.committed = chunks.committed := by
  unfold ChunkAlloc.abort
  refine (unwrap_ensures _).bind ?_
  intro edit found
  refine (deallocAll_ensures accounts.counted nodup_chunksWith).bind ?_
  rintro state ⟨-, freed⟩
  have held : ∀ id, Holds chunks.txs tid id ↔ id ∈ edit.chunksWith .alloc := by
    intro id
    rw [mem_chunksWith]
    simp [Holds, found]
  refine ⟨accounts.shrink freed ?_ ?_ ?_, rfl⟩
  · intro id
    simp only [holds_remove, ← held]
    constructor
    · rintro (owns | ⟨other, different, second⟩)
      · exact ⟨.inl owns, fun first => accounts.unowned tid id first owns⟩
      · exact ⟨.inr ⟨other, second⟩, fun first => different (accounts.alone tid other id first second)⟩
    · rintro ⟨owns | ⟨other, second⟩, away⟩
      · exact .inl owns
      · refine .inr ⟨other, ?_, second⟩
        rintro rfl
        exact away second
  · intro other id second
    exact accounts.unowned other id (holds_remove.mp second).2
  · intro other id second
    exact (holds_remove.mp second).2

theorem Accounts.commit : Ensures (chunks.commit tid) fun next =>
      (next.committed = chunks.committed ∧ Accounts capacity next) ∨
      ∃ edit, chunks.txs.get tid = some edit ∧ next.committed = chunks.committed ++ [edit] ∧
        (∀ id, edit.editTable.get id = some .alloc → ¬Owns chunks.committed id) ∧
        ((∀ id ∈ edit.chunksWith .dealloc, Owns chunks.committed id) → Accounts capacity next) := by
  unfold ChunkAlloc.commit
  refine (unwrap_ensures _).bind ?_
  intro edit found
  have held : ∀ id, Holds chunks.txs tid id ↔ edit.editTable.get id = some .alloc := by
    intro id
    simp [Holds, found]
  cases empty : edit.isEmpty with
  | true =>
    refine .inl ⟨rfl, ?_⟩
    have none : ∀ id, ¬Holds chunks.txs tid id := by
      intro id
      rw [held, SortedMap.get_eq_some, isEmpty_iff.mp empty]
      simp
    refine accounts.of_holds rfl rfl fun other id => ?_
    rw [holds_remove]
    refine and_iff_right_of_imp ?_
    rintro second rfl
    exact none id second
  | false =>
    refine (applyTo_live accounts.live accounts.counted).bind ?_
    rintro state ⟨-, freed⟩
    refine .inr ⟨edit, found, rfl, fun id allocates => accounts.unowned tid id ((held id).mpr allocates), ?_⟩
    intro owned
    refine accounts.shrink freed ?_ ?_ ?_
    · intro id
      simp only [owns_concat, holds_remove, ← held, mem_chunksWith]
      constructor
      · rintro ((first | ⟨owns, kept⟩) | ⟨other, different, second⟩)
        · refine ⟨.inr ⟨tid, first⟩, fun deallocates => ?_⟩
          exact accounts.unowned tid id first (owned id (mem_chunksWith.mpr deallocates))
        · exact ⟨.inl owns, kept⟩
        · refine ⟨.inr ⟨other, second⟩, fun deallocates => ?_⟩
          exact accounts.unowned other id second (owned id (mem_chunksWith.mpr deallocates))
      · rintro ⟨owns | ⟨other, second⟩, kept⟩
        · exact .inl (.inr ⟨owns, kept⟩)
        · by_cases same : other = tid
          · subst same
            exact .inl (.inl second)
          · exact .inr ⟨other, same, second⟩
    · intro other id second
      obtain ⟨different, second⟩ := holds_remove.mp second
      rw [owns_concat, ← held]
      rintro (first | ⟨owns, -⟩)
      · exact different (accounts.alone tid other id first second)
      · exact accounts.unowned other id second owns
    · intro other id second
      exact (holds_remove.mp second).2

theorem Accounts.recover (survives : Survives capacity chunks.committed) :
    Ensures chunks.recover fun next => Accounts capacity next ∧ next.committed = chunks.committed := by
  obtain ⟨state, ran, length, owned, -⟩ := survives
  obtain ⟨-, counted, -⟩ := (replay_ensures capacity chunks.committed).of_ok ran
  unfold ChunkAlloc.recover
  rw [accounts.length, ran, bind_ok]
  have none : ∀ tid id, ¬Holds .empty tid id := by
    rintro tid id ⟨edit, found, -⟩
    simp at found
  refine ⟨⟨length, rfl, ⟨counted.free, counted.next⟩, ?_, ?_, ?_⟩, rfl⟩
  · intro id
    refine (owned id).trans (or_iff_left ?_).symm
    rintro ⟨tid, held⟩
    exact none tid id held
  · exact fun tid id held => absurd held (none tid id)
  · exact fun tid _ id held _ => absurd held (none tid id)

end

/-- Carried along a run: the replay was right after every commit exactly if every commit was
reproduced, and then the live state is accounted for. -/
structure Tracked (capacity : Nat) (chunks : ChunkAlloc) : Prop where
  exact_iff : AllSurvive capacity chunks.committed ↔ AllReproduced capacity chunks.committed
  accounts : AllReproduced capacity chunks.committed → Accounts capacity chunks

theorem Tracked.of_same (tracked : Tracked capacity chunks)
    (kept : Accounts capacity next ∧ next.committed = chunks.committed) : Tracked capacity next where
  exact_iff := by rw [kept.2]; exact tracked.exact_iff
  accounts _ := kept.1

theorem Tracked.of_commit (tracked : Tracked capacity chunks) (all : AllReproduced capacity chunks.committed)
    {edit : ChunkAllocEdit} (longer : next.committed = chunks.committed ++ [edit])
    (fresh : ∀ id, edit.editTable.get id = some .alloc → ¬Owns chunks.committed id)
    (kept : (∀ id ∈ edit.chunksWith .dealloc, Owns chunks.committed id) → Accounts capacity next) :
    Tracked capacity next := by
  have survive := tracked.exact_iff.mpr all
  have survives := survive _ (prefix_refl _)
  refine ⟨?_, ?_⟩
  · rw [longer, allSurvive_concat, allReproduced_concat]
    constructor
    · exact fun ⟨_, last⟩ => ⟨all, reproduced_of_survives survives fresh last⟩
    · exact fun ⟨_, last⟩ => ⟨survive, survives_of_reproduced survives last⟩
  · rw [longer, allReproduced_concat]
    rintro ⟨-, state, ran, -, deallocated⟩
    obtain ⟨_, again, -, owned, -⟩ := survives
    obtain rfl := Except.ok.inj (ran.symm.trans again)
    exact kept fun id member => (owned id).mp (deallocated id member)

theorem step_extends (chunks : ChunkAlloc) (event : Event) :
    Ensures (chunks.step event) fun next => chunks.committed <+: next.committed := by
  have dealloc : ∀ (chunks : ChunkAlloc) tid id, Ensures (chunks.dealloc tid id) fun next =>
      chunks.committed = next.committed := by
    intro chunks tid id
    unfold dealloc
    refine (ensures_true _).bind fun edit _ => ?_
    refine (ensures_true _).bind ?_
    rintro ⟨now, edit⟩ -
    refine meets_ite (fun _ => ?_) fun _ => rfl
    exact (ensures_true _).bind fun _ _ => rfl
  have allocBatch : ∀ {tid} count, Ensures (chunks.allocBatch tid count) fun result =>
      chunks.committed = result.2.committed := by
    intro tid count
    unfold allocBatch
    refine (ensures_true _).bind ?_
    rintro ⟨_ | ids, state⟩ -
    · rfl
    · exact (ensures_true _).bind fun _ _ => (ensures_true _).bind fun _ _ => rfl
  cases event with
  | newTx tid =>
    show chunks.committed <+: (chunks.newTx tid).committed
    unfold newTx
    split
    · exact prefix_refl _
    · exact prefix_refl _
  | alloc tid =>
    have alloc : Ensures (chunks.alloc tid) fun result => chunks.committed = result.2.committed := by
      rw [alloc_eq_allocBatch]
      exact (allocBatch 1).bind fun _ same => same
    exact alloc.bind fun _ same => same ▸ prefix_refl _
  | allocBatch tid count => exact (allocBatch count).bind fun _ same => same ▸ prefix_refl _
  | dealloc tid id => exact (dealloc chunks tid id).mono fun next same => same ▸ prefix_refl _
  | deallocBatch tid ids =>
    refine (meets_foldlM (fun next : ChunkAlloc => chunks.committed = next.committed) ?_ rfl).mono
      fun next same => same ▸ prefix_refl _
    intro next id _ same
    exact (dealloc next tid id).mono fun last again => same.trans again
  | commit tid =>
    show Ensures (chunks.commit tid) _
    unfold commit
    refine (ensures_true _).bind fun edit _ => meets_ite (fun _ => prefix_refl _) fun _ => ?_
    exact (ensures_true _).bind fun _ _ => prefix_append _ _
  | abort tid =>
    show Ensures (chunks.abort tid) _
    unfold abort
    refine (ensures_true _).bind fun edit _ => ?_
    exact (ensures_true _).bind fun _ _ => prefix_refl _
  | recover => exact (ensures_true _).bind fun _ _ => prefix_refl _

theorem Tracked.step (tracked : Tracked capacity chunks) (event : Event) :
    Ensures (chunks.step event) (Tracked capacity) := by
  by_cases all : AllReproduced capacity chunks.committed
  · have accounts := tracked.accounts all
    cases event with
    | newTx tid =>
      refine tracked.of_same ⟨accounts.newTx, ?_⟩
      unfold newTx
      split
      · rfl
      · rfl
    | alloc tid => exact accounts.alloc.bind fun _ kept => tracked.of_same kept
    | allocBatch tid count => exact (accounts.allocBatch count).bind fun _ kept => tracked.of_same kept
    | dealloc tid id => exact (accounts.dealloc id).mono fun _ kept => tracked.of_same kept
    | deallocBatch tid ids => exact (accounts.deallocBatch ids).mono fun _ kept => tracked.of_same kept
    | abort tid => exact accounts.abort.mono fun _ kept => tracked.of_same kept
    | recover =>
      have survives := tracked.exact_iff.mpr all _ (prefix_refl _)
      exact (accounts.recover survives).mono fun _ kept => tracked.of_same kept
    | commit tid =>
      refine accounts.commit.mono ?_
      rintro next (⟨same, kept⟩ | ⟨edit, -, longer, fresh, kept⟩)
      · exact tracked.of_same ⟨kept, same⟩
      · exact tracked.of_commit all longer fresh kept
  · refine (step_extends chunks event).mono ?_
    intro next longer
    have wrong : ¬AllReproduced capacity next.committed := fun later =>
      all fun before edit shorter => later before edit (shorter.trans longer)
    refine ⟨iff_of_false (fun later => ?_) wrong, fun later => absurd later wrong⟩
    exact all (tracked.exact_iff.mp fun before shorter => later before (shorter.trans longer))

theorem tracked_of_run {events : List Event} (ran : run capacity events = .ok chunks) : Tracked capacity chunks := by
  refine (meets_foldlM (Tracked capacity) ?_ ?_ : Ensures (run capacity events) _).of_ok ran
  · exact fun state event _ tracked => tracked.step event
  · refine ⟨iff_of_true ?_ ?_, fun _ => accounts_new capacity⟩
    · intro before shorter
      rw [prefix_nil.mp shorter]
      exact survives_nil capacity
    · intro before edit shorter
      simp [new] at shorter

/-- In every run, the replay was right after every commit if and only if every committed
transaction held the chunks that come next in the journal's state. -/
theorem replay_exact_iff {events : List Event} (ran : run capacity events = .ok chunks) :
    (∀ log, log <+: chunks.committed → Survives capacity log) ↔
      ∀ log edit, log ++ [edit] <+: chunks.committed → Reproduced capacity log edit :=
  (tracked_of_run ran).exact_iff

theorem replay_exact_iff_serial : ∃ chunks,
    run 4 [.newTx 0, .allocBatch 0 2, .commit 0, .newTx 1, .alloc 1, .dealloc 1 0, .commit 1] = .ok chunks ∧
      ((∀ log, log <+: chunks.committed → Survives 4 log) ↔
        ∀ log edit, log ++ [edit] <+: chunks.committed → Reproduced 4 log edit) := by
  obtain ⟨chunks, ran⟩ : ∃ chunks,
      run 4 [.newTx 0, .allocBatch 0 2, .commit 0, .newTx 1, .alloc 1, .dealloc 1 0, .commit 1] = .ok chunks :=
    ⟨_, rfl⟩
  exact ⟨chunks, ran, replay_exact_iff ran⟩

/-- Two transactions allocate, the second commits and the first aborts: the replay marks chunk 0
and not chunk 1, which the recovered allocator then gives out a second time. -/
theorem replay_gives_out_owned_chunk : ∃ chunks recovered after,
    run 4 [.newTx 0, .newTx 1, .alloc 0, .alloc 1, .commit 1, .abort 0] = .ok chunks ∧
      Owns chunks.committed 1 ∧ ¬Owns chunks.committed 0 ∧ chunks.recover = .ok recovered ∧
      recovered.state.allocMap = [true, false, false, false] ∧
      (recovered.newTx 2).alloc 2 = .ok (some 1, after) := by
  refine ⟨_, _, _, rfl, ⟨[], _, [], rfl, rfl, by simp⟩, ?_, rfl, rfl, rfl⟩
  rintro ⟨before, edit, after, split, allocates, -⟩
  obtain ⟨-, rfl, -⟩ := append_eq_singleton_iff.mp split.symm |>.resolve_right (by simp)
  exact absurd allocates (by decide)

end ChunkAlloc

end Kei.SecureDisk
