import Kei.SecureDisk.DiskRules
import Mathlib.Data.List.SplitBy

/-! What a read stores in the buffers of its request. -/

namespace Kei.SecureDisk

open Library Checked RangeQueryCtx List

variable {β Key Mac Cipher : Type}

namespace MlsDisk

structure Stored (lba : Nat) (answers : List (Nat × β)) (before after : List β) : Prop where
  placed : ∀ answer ∈ answers, after[answer.1 - lba]? = some answer.2
  others : ∀ nth, (∀ answer ∈ answers, answer.1 ≠ lba + nth) → after[nth]? = before[nth]?

theorem Stored.nil (lba : Nat) (before : List β) : Stored lba [] before before :=
  ⟨by simp, fun _ _ => rfl⟩

theorem Stored.cons {lba key : Nat} {block : β} {rest : List (Nat × β)} {before after : List β}
    (lower : lba ≤ key) (upper : key < lba + before.length)
    (fresh : ∀ answer ∈ rest, answer.1 ≠ key)
    (stored : Stored lba rest (before.set (key - lba) block) after) :
    Stored lba ((key, block) :: rest) before after where
  placed := by
    refine forall_mem_cons.mpr ⟨?_, stored.placed⟩
    have kept := stored.others (key - lba) fun answer member => by
      have := fresh answer member
      omega
    dsimp only
    rw [kept, List.getElem?_set_self (by omega)]
  others nth away := by
    obtain ⟨notHere, notLater⟩ := forall_mem_cons.mp away
    dsimp only at notHere
    rw [stored.others nth notLater, List.getElem?_set_ne (by omega)]

section Read

variable {disk : MlsDisk β Key Mac Cipher} {lba : Nat}

variable {bufs : BufMutVec β} {ctx : RangeQueryCtx (RecordValue Key Mac)}

theorem copyBuffered_returns {entries : List (Nat × β)} {skip : Nat → Bool}
    (tracks : ctx.Tracks skip fun _ => none) (start : ctx.start = lba) (num : ctx.numValues = bufs.nblocks)
    (covers : ∀ entry ∈ entries, ctx.Covers entry.1) (distinct : (entries.map Prod.fst).Nodup) :
    Returns (copyBuffered lba entries bufs ctx) fun result =>
      result.1.map List.length = bufs.map List.length ∧
        Stored lba entries bufs.flatten result.1.flatten ∧
        result.2.Tracks (fun key => skip key || (entries.lookup key).isSome) (fun _ => none) ∧
        ctx.SameRange result.2 := by
  induction entries generalizing bufs ctx skip with
  | nil =>
    refine ⟨rfl, Stored.nil _ _, ?_, rfl, rfl⟩
    simpa using tracks
  | cons entry rest ih =>
    obtain ⟨key, block⟩ := entry
    have here : ctx.Covers key := covers _ mem_cons_self
    obtain ⟨lower, upper⟩ := here
    rw [start] at lower upper
    rw [num] at upper
    rw [map_cons, nodup_cons] at distinct
    rw [copyBuffered, sub_ok lower, bind_ok]
    have inside : key - lba < bufs.nblocks := by omega
    refine (BufMutVec.setNth_returns inside block).bind ?_
    rintro bufs' ⟨flat, sizes⟩
    refine (tracks.markCompleted_returns (covers _ mem_cons_self)).bind ?_
    rintro ctx' ⟨tracks', start', num'⟩
    have total : bufs'.nblocks = bufs.nblocks := congrArg List.sum sizes
    refine (ih tracks' (start'.trans start) ((num'.trans num).trans total.symm) ?_ distinct.2).mono ?_
    · intro other member
      rw [RangeQueryCtx.Covers, start', num']
      exact covers other (mem_cons_of_mem _ member)
    · rintro result ⟨sizes', stored, tracks'', start'', num''⟩
      rw [flat] at stored
      refine ⟨sizes'.trans sizes, stored.cons lower ?_ ?_, ?_, start''.trans start', num''.trans num'⟩
      · rwa [BufMutVec.length_flatten]
      · intro answer member same
        exact distinct.1 (mem_map.mpr ⟨answer, member, same⟩)
      · have same : (fun other => skip other || (List.lookup other ((key, block) :: rest)).isSome) =
            fun other => (skip other || other == key) || (rest.lookup other).isSome := by
          funext other
          rw [lookup_cons]
          cases equal : other == key with
          | true => simp
          | false => simp
        rw [same]
        exact tracks''

theorem readBatch_fst (disk : MlsDisk β Key Mac Cipher) (batch : List (Nat × RecordValue Key Mac)) :
    (disk.readBatch batch).map Prod.fst = batch := by
  unfold readBatch
  cases batch with
  | nil => rfl
  | cons first rest =>
    dsimp only
    rw [map_map]
    exact zipIdx_map_fst 0 (first :: rest)

theorem readRecords_perm (disk : MlsDisk β Key Mac Cipher) (results : List (Nat × RecordValue Key Mac)) :
    ((disk.readRecords results).map Prod.fst).Perm results := by
  unfold readRecords
  dsimp only
  rw [map_flatMap]
  simp only [readBatch_fst, flatMap_id']
  rw [flatten_splitBy]
  exact mergeSort_perm _ _

variable {aead : Aead β Key Mac Cipher}

theorem decryptRecords_returns
    {records : List ((Nat × RecordValue Key Mac) × Cipher)}
    (bounds : ∀ record ∈ records, lba ≤ record.1.1 ∧ record.1.1 < lba + bufs.nblocks)
    (distinct : (records.map fun record => record.1.1).Nodup) :
    Returns (decryptRecords aead lba records bufs) fun result =>
      result.2.map List.length = bufs.map List.length ∧ result.1 ≠ .error .notFound ∧
        (result.1 = .ok () → ∃ answers : List (Nat × β),
          answers.map Prod.fst = records.map (fun record => record.1.1) ∧
          (∀ record ∈ records, ∃ block, (record.1.1, block) ∈ answers ∧
            aead.decrypt record.2 record.1.2.key record.1.2.mac = some block) ∧
          Stored lba answers bufs.flatten result.2.flatten) := by
  induction records generalizing bufs with
  | nil => exact ⟨rfl, nofun, fun _ => ⟨[], rfl, by simp, Stored.nil _ _⟩⟩
  | cons record rest ih =>
    obtain ⟨⟨key, value⟩, cipher⟩ := record
    obtain ⟨lower, upper⟩ := bounds _ mem_cons_self
    dsimp only at lower upper
    rw [map_cons, nodup_cons] at distinct
    rw [decryptRecords]
    cases decrypts : aead.decrypt cipher value.key value.mac with
    | none => exact ⟨rfl, nofun, nofun⟩
    | some block =>
      dsimp only
      rw [sub_ok lower, bind_ok]
      have inside : key - lba < bufs.nblocks := by omega
      refine (BufMutVec.setNth_returns inside block).bind ?_
      rintro bufs' ⟨flat, sizes⟩
      have total : bufs'.nblocks = bufs.nblocks := congrArg List.sum sizes
      refine (ih ?_ distinct.2).mono ?_
      · intro other member
        rw [total]
        exact bounds other (mem_cons_of_mem _ member)
      · rintro result ⟨sizes', found, answered⟩
        refine ⟨sizes'.trans sizes, found, fun ok => ?_⟩
        obtain ⟨answers, keys, blocks, stored⟩ := answered ok
        rw [flat] at stored
        refine ⟨(key, block) :: answers, ?_, ?_, stored.cons lower ?_ ?_⟩
        · rw [map_cons, map_cons, keys]
        · refine forall_mem_cons.mpr ⟨⟨block, mem_cons_self, decrypts⟩, ?_⟩
          intro record member
          obtain ⟨other, listed, same⟩ := blocks record member
          exact ⟨other, mem_cons_of_mem _ listed, same⟩
        · rwa [BufMutVec.length_flatten]
        · intro answer member same
          refine distinct.1 ?_
          rw [← keys, ← same]
          exact mem_map_of_mem member

theorem mem_getRange {buf : DataBuf β} {range : Nat × Nat} {entry : Nat × β} :
    entry ∈ buf.getRange range ↔ entry ∈ buf.buf.entries ∧ range.1 ≤ entry.1 ∧ entry.1 ≤ range.2 := by
  simp [DataBuf.getRange]

theorem lookup_getRange (buf : DataBuf β) {first last key : Nat} (lower : first ≤ key)
    (upper : key ≤ last) : (buf.getRange (first, last)).lookup key = buf.get key := by
  refine Ascending.lookup_congr (buf.buf.ascending.filter _) buf.buf.ascending ?_
  intro block
  exact mem_getRange.trans (and_iff_left ⟨lower, upper⟩)

/-- The outcome of a read of several blocks: it finds all of them or fails, and then only the
buffered ones were stored. -/
def Outcome (disk : MlsDisk β Key Mac Cipher) (contents : Nat → Option β) (lba nblocks : Nat)
    (before : List β) (result : Except Errno Unit) (after : List β) : Prop :=
  match result with
  | .ok () => ∀ nth, nth < nblocks → ∃ block, contents (lba + nth) = some block ∧ after[nth]? = some block
  | .error .notFound =>
    (∃ nth, nth < nblocks ∧ contents (lba + nth) = none) ∧ ∀ nth, nth < nblocks →
      after[nth]? = match disk.dataBuf.get (lba + nth) with
        | some block => some block
        | none => before[nth]?
  | .error _ => ∀ nth, nth < nblocks → contents (lba + nth) ≠ none

theorem Stored.copied {first last nblocks : Nat} {before after : List β}
    (window : ∀ nth, nth < nblocks → first ≤ lba + nth ∧ lba + nth ≤ last)
    (stored : Stored lba (disk.dataBuf.getRange (first, last)) before after) {nth : Nat}
    (bound : nth < nblocks) :
    after[nth]? = match disk.dataBuf.get (lba + nth) with
      | some block => some block
      | none => before[nth]? := by
  have ascending : Ascending (disk.dataBuf.getRange (first, last)) := disk.dataBuf.buf.ascending.filter _
  have same := lookup_getRange disk.dataBuf (window nth bound).1 (window nth bound).2
  cases buffered : disk.dataBuf.get (lba + nth) with
  | some block =>
    rw [buffered, ascending.lookup_eq_some] at same
    have placed := stored.placed _ same
    rwa [Nat.add_sub_cancel_left] at placed
  | none =>
    rw [buffered, Ascending.lookup_eq_none] at same
    refine stored.others nth ?_
    rintro ⟨key, block⟩ member rfl
    exact same block member

variable {contents : Nat → Option β}

variable (reflects : disk.Reflects aead contents)
include reflects

theorem Reflects.written {place : Nat}
    (done : ((disk.dataBuf.get place).isSome || (disk.logicalBlockTable.lookup place).isSome) = true) :
    contents place ≠ none := by
  have shows := reflects.shows place
  cases buffered : disk.dataBuf.get place with
  | some block =>
    rw [buffered] at shows
    rw [show contents place = some block from shows]
    exact Option.some_ne_none block
  | none =>
    rw [buffered] at shows done
    obtain ⟨value, found⟩ :=
      Option.isSome_iff_exists.mp (show (disk.logicalBlockTable.lookup place).isSome = true from done)
    rw [found] at shows
    obtain ⟨block, held, -⟩ := shows
    rw [held]
    exact Option.some_ne_none block

theorem Reflects.done {place : Nat} (written : contents place ≠ none) :
    ((disk.dataBuf.get place).isSome || (disk.logicalBlockTable.lookup place).isSome) = true := by
  have shows := reflects.shows place
  cases buffered : disk.dataBuf.get place with
  | some block => rfl
  | none =>
    cases record : disk.logicalBlockTable.lookup place with
    | some value => rfl
    | none =>
      rw [buffered, record] at shows
      exact absurd shows written

theorem decrypted_outcome {before : List β} {skip : Nat → Bool}
    (skips : ∀ nth, nth < bufs.nblocks → skip (lba + nth) = (disk.dataBuf.get (lba + nth)).isSome)
    (copied : ∀ nth, nth < bufs.nblocks → bufs.flatten[nth]? =
      match disk.dataBuf.get (lba + nth) with | some block => some block | none => before[nth]?)
    (tracks : ctx.Tracks skip disk.logicalBlockTable.lookup) (start : ctx.start = lba)
    (num : ctx.numValues = bufs.nblocks) (done : ctx.isCompleted = true) :
    Returns (decryptRecords aead lba (disk.readRecords ctx.res) bufs) fun result =>
      result.2.map List.length = bufs.map List.length ∧
        disk.Outcome contents lba bufs.nblocks before result.1 result.2.flatten := by
  have perm := readRecords_perm disk ctx.res
  have listed : ∀ record ∈ disk.readRecords ctx.res, record.1 ∈ ctx.res := fun record member =>
    perm.mem_iff.mp (mem_map_of_mem member)
  have distinct : ((disk.readRecords ctx.res).map fun record => record.1.1).Nodup := by
    have keys := (perm.map Prod.fst).nodup_iff.mpr tracks.nodup
    rwa [map_map] at keys
  have all : ∀ nth, nth < bufs.nblocks → contents (lba + nth) ≠ none := by
    intro nth bound
    refine reflects.written ?_
    rw [← skips nth bound]
    exact tracks.marks.isCompleted_iff.mp done (lba + nth) ⟨by omega, by omega⟩
  refine (decryptRecords_returns ?_ distinct).mono ?_
  · rintro ⟨⟨key, value⟩, cipher⟩ member
    have covers := ((tracks.mem_res key value).mp (listed _ member)).1
    rw [RangeQueryCtx.Covers, start, num] at covers
    exact covers
  · rintro ⟨result, after⟩ ⟨sizes, found, answered⟩
    refine ⟨sizes, ?_⟩
    dsimp only at found answered ⊢
    cases result with
    | error errno =>
      cases errno with
      | notFound => exact absurd rfl found
      | outOfDisk => exact all
      | decryptFailed => exact all
    | ok _ =>
      obtain ⟨answers, keys, blocks, stored⟩ := answered rfl
      intro nth bound
      have shows := reflects.shows (lba + nth)
      cases buffered : disk.dataBuf.get (lba + nth) with
      | some block =>
        rw [buffered] at shows
        refine ⟨block, shows, ?_⟩
        rw [stored.others nth ?_, copied nth bound, buffered]
        intro answer member same
        have key : answer.1 ∈ (disk.readRecords ctx.res).map fun record => record.1.1 :=
          keys ▸ mem_map_of_mem member
        obtain ⟨⟨⟨other, value⟩, cipher⟩, inside, equal⟩ := mem_map.mp key
        have skipped := ((tracks.mem_res other value).mp (listed _ inside)).2.1
        rw [show other = lba + nth from equal.trans same, skips nth bound, buffered] at skipped
        exact Bool.noConfusion skipped
      | none =>
        have slot := tracks.marks.isCompleted_iff.mp done (lba + nth) ⟨by omega, by omega⟩
        have skipped : skip (lba + nth) = false := by
          rw [skips nth bound, buffered]
          rfl
        rw [skipped, Bool.false_or] at slot
        obtain ⟨value, record⟩ := Option.isSome_iff_exists.mp slot
        rw [buffered, record] at shows
        obtain ⟨block, held, seals⟩ := shows
        have member : (lba + nth, value) ∈ ctx.res :=
          (tracks.mem_res _ _).mpr ⟨⟨by omega, by omega⟩, skipped, record⟩
        obtain ⟨read, inside, same⟩ := mem_map.mp (perm.mem_iff.mpr member)
        obtain ⟨other, answer, decrypts⟩ := blocks read inside
        rw [same] at answer decrypts
        have placed := stored.placed _ answer
        rw [Nat.add_sub_cancel_left, seals.eq_of_decrypt decrypts] at placed
        exact ⟨block, held, placed⟩

theorem readMultiBlocks_returns (some_block : 0 < bufs.nblocks) :
    Returns (disk.readMultiBlocks aead lba bufs) fun result =>
      result.2.map List.length = bufs.map List.length ∧
        disk.Outcome contents lba bufs.nblocks bufs.flatten result.1 result.2.flatten := by
  have filled : bufs.isEmpty = false := by
    cases bufs with
    | nil => exact absurd some_block (lt_irrefl 0)
    | cons buf rest => rfl
  have fresh := new_tracks (V := RecordValue Key Mac) lba bufs.nblocks
  have open_ : (new lba bufs.nblocks : RangeQueryCtx (RecordValue Key Mac)).isCompleted =
      false := by
    simp only [isCompleted, new, beq_eq_false_iff_ne]
    omega
  unfold readMultiBlocks
  rw [filled, assert, if_pos (by rfl), bind_ok]
  dsimp only
  refine (fresh.marks.rangeUncompleted_returns open_).bind ?_
  rintro _ ⟨first, last, rfl, clear, inside⟩
  rw [unwrap, bind_ok]
  have window : ∀ nth, nth < bufs.nblocks → first ≤ lba + nth ∧ lba + nth ≤ last := by
    intro nth bound
    exact clear (lba + nth) ⟨Nat.le_add_right _ _, Nat.add_lt_add_left bound _⟩ rfl
  have ascending : Ascending (disk.dataBuf.getRange (first, last)) := disk.dataBuf.buf.ascending.filter _
  refine (copyBuffered_returns fresh rfl rfl ?_ ascending.keys_nodup).bind ?_
  · intro entry member
    obtain ⟨-, lower, upper⟩ := mem_getRange.mp member
    exact inside _ lower upper
  rintro ⟨copy, ctx⟩ ⟨sizes, stored, tracks, start, num⟩
  dsimp only at sizes stored tracks start num ⊢
  have total : copy.nblocks = bufs.nblocks := congrArg List.sum sizes
  have begins : ctx.start = lba := start
  have spans : ctx.numValues = bufs.nblocks := num
  have copied : ∀ nth, nth < bufs.nblocks → copy.flatten[nth]? = match disk.dataBuf.get (lba + nth) with
      | some block => some block
      | none => bufs.flatten[nth]? := fun nth bound => stored.copied window bound
  have skips : ∀ nth, nth < bufs.nblocks →
      (false || ((disk.dataBuf.getRange (first, last)).lookup (lba + nth)).isSome) =
        (disk.dataBuf.get (lba + nth)).isSome := by
    intro nth bound
    rw [Bool.false_or, lookup_getRange _ (window nth bound).1 (window nth bound).2]
  refine meets_ite (fun done => ⟨sizes, ?_⟩) fun left => ?_
  · intro nth bound
    have slot := tracks.marks.isCompleted_iff.mp done (lba + nth) ⟨by omega, by omega⟩
    rw [skips nth bound, Option.isSome_none, Bool.or_false] at slot
    obtain ⟨block, buffered⟩ := Option.isSome_iff_exists.mp slot
    have shows := reflects.shows (lba + nth)
    rw [buffered] at shows
    exact ⟨block, shows, by rw [copied nth bound, buffered]⟩
  · refine (TxLsmTree.getRange_returns reflects.sound tracks (Bool.eq_false_iff.mpr left)).bind ?_
    rintro ⟨queried, found⟩ ⟨tracks', ⟨start', num'⟩, same⟩
    dsimp only at tracks' start' num' same ⊢
    rw [← total] at skips copied ⊢
    refine meets_ite (fun all => ?_) fun missing => ?_
    · rw [all] at same
      rw [intoResults, ← same, assert, if_pos rfl, bind_ok, bind_ok]
      refine (decrypted_outcome reflects skips copied tracks' (start'.trans begins) (by omega) same.symm).mono ?_
      rintro result ⟨sizes', outcome⟩
      exact ⟨sizes'.trans sizes, outcome⟩
    · refine ⟨sizes, ?_, copied⟩
      by_contra all
      refine missing (same.trans (tracks'.marks.isCompleted_iff.mpr ?_))
      rintro key ⟨lower, upper⟩
      obtain ⟨nth, rfl⟩ : ∃ nth, key = lba + nth := ⟨key - lba, by omega⟩
      have bound : nth < copy.nblocks := by omega
      rw [skips nth bound]
      exact reflects.done fun unwritten => all ⟨nth, bound, unwritten⟩

end Read

end MlsDisk

end Kei.SecureDisk
