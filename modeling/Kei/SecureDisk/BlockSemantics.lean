import Kei.SecureDisk.ReadRules

/-! Block semantics of the secure disk: when a read that succeeds has stored the most recent
write of each block of its range. A range query fails as a whole if one block of the range
was never written, and that failure is taken for an empty read: then only blocks that
are still in the data buffer were stored. -/

namespace Kei.SecureDisk

open Library Checked List

variable {β Key Mac Cipher : Type}

namespace MlsDisk

def StoresLatest (contents : Nat → Option β) (lba nblocks : Nat) (after : List β) : Prop :=
  ∀ nth, nth < nblocks → ∀ block, contents (lba + nth) = some block → after[nth]? = some block

/-- The ranges whose blocks a query of several blocks delivers: all of them were written, or
those that were are still buffered. A range beyond the end of the disk is refused. -/
def Deliverable (disk : MlsDisk β Key Mac Cipher) (contents : Nat → Option β) (lba nblocks : Nat) : Prop :=
  disk.nblocks < lba + nblocks ∨ (∀ nth, nth < nblocks → contents (lba + nth) ≠ none) ∨
    ∀ nth, nth < nblocks → contents (lba + nth) ≠ none → disk.dataBuf.get (lba + nth) ≠ none

section

variable {disk : MlsDisk β Key Mac Cipher} {aead : Aead β Key Mac Cipher} {contents : Nat → Option β}
  {lba nblocks : Nat}

variable {result : Except Errno Unit}

theorem allowEmpty_eq_ok (ok : allowEmpty result = .ok ()) :
    result = .ok () ∨ result = .error .notFound := by
  cases result with
  | ok _ => exact .inl rfl
  | error errno =>
    cases errno with
    | notFound => exact .inr rfl
    | outOfDisk => exact nomatch ok
    | decryptFailed => exact nomatch ok

variable {before after : List β}

theorem Outcome.stores
    (outcome : disk.Outcome contents lba nblocks before result after)
    (reflects : disk.Reflects aead contents) (ok : allowEmpty result = .ok ())
    (deliverable : (∀ nth, nth < nblocks → contents (lba + nth) ≠ none) ∨
      ∀ nth, nth < nblocks → contents (lba + nth) ≠ none → disk.dataBuf.get (lba + nth) ≠ none) :
    StoresLatest contents lba nblocks after := by
  intro nth bound block latest
  rcases allowEmpty_eq_ok ok with rfl | rfl
  · obtain ⟨held, same, placed⟩ := outcome nth bound
    rw [latest] at same
    rw [placed, ← same]
  · obtain ⟨⟨missing, inside, unwritten⟩, copied⟩ := outcome
    rcases deliverable with all | buffered
    · exact absurd unwritten (all missing inside)
    · obtain ⟨held, inBuf⟩ := Option.ne_none_iff_exists'.mp
        (buffered nth bound (by rw [latest]; exact Option.some_ne_none block))
      have shows := reflects.shows (lba + nth)
      rw [inBuf, latest] at shows
      rw [copied nth bound, inBuf]
      exact shows.symm

theorem Outcome.misses
    (outcome : disk.Outcome contents lba nblocks before result after) {missing nth : Nat}
    (inside : missing < nblocks) (unwritten : contents (lba + missing) = none) (bound : nth < nblocks)
    (flushed : disk.dataBuf.get (lba + nth) = none) :
    allowEmpty result = .ok () ∧ after[nth]? = before[nth]? := by
  cases result with
  | ok _ =>
    obtain ⟨held, written, -⟩ := outcome missing inside
    rw [unwritten] at written
    exact nomatch written
  | error errno =>
    cases errno with
    | notFound =>
      have copied := outcome.2 nth bound
      rw [flushed] at copied
      exact ⟨rfl, copied⟩
    | outOfDisk => exact absurd unwritten (outcome missing inside)
    | decryptFailed => exact absurd unwritten (outcome missing inside)

theorem not_deliverable (stuck : ¬disk.Deliverable contents lba nblocks) :
    lba + nblocks ≤ disk.nblocks ∧ (∃ missing, missing < nblocks ∧ contents (lba + missing) = none) ∧
      ∃ nth block, nth < nblocks ∧ contents (lba + nth) = some block ∧ disk.dataBuf.get (lba + nth) = none := by
  unfold Deliverable at stuck
  push Not at stuck
  obtain ⟨inside, missing, nth, bound, written, flushed⟩ := stuck
  obtain ⟨block, held⟩ := Option.ne_none_iff_exists'.mp written
  exact ⟨inside, missing, nth, block, bound, held, flushed⟩

variable (reflects : disk.Reflects aead contents)
include reflects

theorem readOneBlock_ensures (buf : List β) : Ensures (disk.readOneBlock aead lba buf) fun result =>
      allowEmpty result.1 = .ok () → StoresLatest contents lba 1 result.2 := by
  have shows := reflects.shows lba
  have only : ∀ {after : List β}, (∀ block, contents lba = some block → after[0]? = some block) →
      StoresLatest contents lba 1 after := by
    intro after first nth bound block latest
    obtain rfl : nth = 0 := by omega
    exact first block latest
  unfold readOneBlock
  refine (ensures_true _).bind fun _ _ => ?_
  cases buffered : disk.dataBuf.get lba with
  | some held =>
    rw [buffered] at shows
    refine fun _ => only fun block latest => ?_
    rw [latest] at shows
    exact shows.symm
  | none =>
    rw [buffered] at shows
    dsimp only
    refine (TxLsmTree.get_returns reflects.sound lba).exists_ok.elim ?_
    rintro _ ⟨ran, rfl⟩
    rw [ran, bind_ok]
    cases found : disk.logicalBlockTable.lookup lba with
    | none =>
      rw [found] at shows
      refine fun _ => only fun block latest => ?_
      rw [show contents lba = none from shows] at latest
      exact nomatch latest
    | some value =>
      rw [found] at shows
      obtain ⟨held, same, seals⟩ := shows
      dsimp only
      cases decrypts : aead.decrypt (disk.userDataDisk value.hba) value.key value.mac with
      | none => exact nofun
      | some other =>
        refine fun _ => only fun block latest => ?_
        rw [same] at latest
        rw [seals.eq_of_decrypt decrypts, ← latest]
        rfl

theorem readMultiBlocks_ensures {bufs : BufMutVec β} (inside : lba + bufs.nblocks ≤ disk.nblocks)
    (deliverable : disk.Deliverable contents lba bufs.nblocks) :
    Ensures (disk.readMultiBlocks aead lba bufs) fun result =>
      allowEmpty result.1 = .ok () → StoresLatest contents lba bufs.nblocks result.2.flatten := by
  by_cases empty : bufs.nblocks = 0
  · refine (ensures_true _).mono fun _ _ _ nth bound => ?_
    omega
  · have returned : Returns (disk.readMultiBlocks aead lba bufs) _ :=
      readMultiBlocks_returns reflects (Nat.pos_of_ne_zero empty)
    obtain ⟨result, ran, -, outcome⟩ := returned.exists_ok
    rw [ran]
    intro ok
    exact outcome.stores reflects ok (deliverable.resolve_left (Nat.not_lt.mpr inside))

theorem readMultiBlocks_misses [Nontrivial β] {sizes : List Nat} (stuck : ¬disk.Deliverable contents lba sizes.sum) :
    ∃ bufs : BufMutVec β, bufs.map length = sizes ∧ ∃ result after,
      disk.readMultiBlocks aead lba bufs = .ok (result, after) ∧ allowEmpty result = .ok () ∧
        ¬StoresLatest contents lba sizes.sum after.flatten := by
  obtain ⟨-, ⟨missing, unread, unwritten⟩, nth, block, bound, latest, flushed⟩ := not_deliverable stuck
  obtain ⟨other, different⟩ := exists_ne block
  have lengths : (sizes.map fun size => replicate size other).map length = sizes := by
    simp [Function.comp_def]
  have total : BufMutVec.nblocks (sizes.map fun size => replicate size other) = sizes.sum :=
    congrArg sum lengths
  have returned : Returns (disk.readMultiBlocks aead lba (sizes.map fun size => replicate size other)) _ :=
    readMultiBlocks_returns reflects (by omega)
  obtain ⟨⟨result, after⟩, ran, -, outcome⟩ := returned.exists_ok
  rw [total] at outcome
  obtain ⟨ok, kept⟩ := outcome.misses unread unwritten bound flushed
  refine ⟨_, lengths, result, after, ran, ok, fun stores => ?_⟩
  rw [stores nth bound block latest] at kept
  have member := mem_of_getElem? kept.symm
  simp only [mem_flatten, mem_map, exists_exists_and_eq_and, mem_replicate] at member
  obtain ⟨_, -, -, same⟩ := member
  exact different same.symm

theorem read_ensures (buf : List β) (deliverable : buf.length = 1 ∨ disk.Deliverable contents lba buf.length) :
    Ensures (disk.read aead lba buf) fun result =>
      result.1 = .ok () → StoresLatest contents lba buf.length result.2 := by
  unfold read checkRwArgs
  by_cases beyond : disk.nblocks < lba + buf.length
  · simp only [if_pos beyond]
    exact nofun
  · simp only [if_neg beyond]
    refine meets_ite (fun one => ?_) fun several => ?_
    · refine (readOneBlock_ensures reflects buf).bind fun result stores ok => ?_
      rw [one]
      exact stores ok
    · have size : BufMutVec.nblocks [buf] = buf.length := by simp [BufMutVec.nblocks]
      have stores : Ensures (disk.readMultiBlocks aead lba [buf]) _ :=
        readMultiBlocks_ensures reflects (by omega) (size.symm ▸ deliverable.resolve_left several)
      rw [size] at stores
      exact stores.bind fun result stores ok => stores ok

theorem readv_ensures (bufs : BufMutVec β) (deliverable : disk.Deliverable contents lba bufs.nblocks) :
    Ensures (disk.readv aead lba bufs) fun result =>
      result.1 = .ok () → StoresLatest contents lba bufs.nblocks result.2.flatten := by
  unfold readv checkRwArgs
  by_cases beyond : disk.nblocks < lba + bufs.nblocks
  · simp only [if_pos beyond]
    exact nofun
  · simp only [if_neg beyond]
    exact (readMultiBlocks_ensures reflects (Nat.not_lt.mp beyond) deliverable).bind
      fun result stores ok => stores ok

end

/-- After any run, the reads of a range all store the most recent write of each block they succeed
for exactly if the range is deliverable; a read of one block into a contiguous buffer always does. -/
theorem reads_store_latest_iff [Nontrivial β] (aead : Aead β Key Mac Cipher) (environment : Environment Key)
    (nblocks : Nat) (device : Nat → Cipher) (events : List (Event β)) (disk : MlsDisk β Key Mac Cipher)
    (ran : (create nblocks device).run aead environment events = .ok disk) (lba : Nat) :
    (∀ n, (∀ buf : List β, buf.length = n → ∀ after, disk.read aead lba buf = .ok (.ok (), after) →
        StoresLatest (history nblocks events) lba n after) ↔
      n = 1 ∨ disk.Deliverable (history nblocks events) lba n) ∧
    ∀ sizes, (∀ bufs : BufMutVec β, bufs.map length = sizes → ∀ after,
        disk.readv aead lba bufs = .ok (.ok (), after) →
        StoresLatest (history nblocks events) lba sizes.sum after.flatten) ↔
      disk.Deliverable (history nblocks events) lba sizes.sum := by
  obtain ⟨reflects, -⟩ := (run_ensures (create_reflects aead nblocks device) events).of_ok ran
  have reflects : disk.Reflects aead (history nblocks events) := reflects
  refine ⟨fun n => ⟨?_, ?_⟩, fun sizes => ⟨?_, ?_⟩⟩
  · intro all
    by_contra stuck
    obtain ⟨several, stuck⟩ := not_or.mp stuck
    have inside := (not_deliverable stuck).1
    have single : [n].sum = n := by simp
    rw [← single] at stuck
    obtain ⟨bufs, lengths, result, after, read, ok, misses⟩ := readMultiBlocks_misses reflects stuck
    obtain ⟨buf, rfl⟩ : ∃ buf, bufs = [buf] := by
      have := congrArg length lengths
      simpa [length_eq_one_iff] using this
    have length : buf.length = n := by simpa using lengths
    refine misses (single.symm ▸ all buf length after.flatten ?_)
    unfold MlsDisk.read checkRwArgs
    simp only [length, if_neg (Nat.not_lt.mpr inside), if_neg several, read, bind_ok, ok]
  · rintro deliverable buf rfl after read
    exact (read_ensures reflects buf deliverable).of_ok read rfl
  · intro all
    by_contra stuck
    have inside := (not_deliverable stuck).1
    obtain ⟨bufs, lengths, result, after, read, ok, misses⟩ := readMultiBlocks_misses reflects stuck
    have total : bufs.nblocks = sizes.sum := congrArg sum lengths
    refine misses (all bufs lengths after ?_)
    unfold readv checkRwArgs
    simp only [total, if_neg (Nat.not_lt.mpr inside), read, bind_ok, ok]
  · rintro deliverable bufs rfl after read
    exact (readv_ensures reflects bufs deliverable).of_ok read rfl

def plainAead : Aead Bool Unit Bool Bool where
  encrypt block _ := (block, block)
  decrypt cipher _ mac := if cipher = mac then some cipher else none
  decrypt_encrypt _ _ := if_pos rfl
  authentic block _ cipher other verified := by
    by_contra different
    rw [if_neg different] at verified
    exact nomatch verified

def freshBlocks : Environment Unit := ⟨id, fun _ => ()⟩

set_option maxRecDepth 40000 in
theorem reads_store_latest_iff_flushed : ∃ disk,
    (create 4 fun _ => false).run plainAead freshBlocks [.write 0 [true], .sync, .write 1 [true]] = .ok disk ∧
      disk.read plainAead 0 [false] = .ok (.ok (), [true]) ∧
      ∀ buf : List Bool, buf.length = 2 → ∀ after, disk.read plainAead 0 buf = .ok (.ok (), after) →
        StoresLatest (history 4 [.write 0 [true], .sync, .write 1 [true]]) 0 2 after := by
  refine ⟨_, rfl, rfl, ?_⟩
  refine ((reads_store_latest_iff plainAead freshBlocks 4 (fun _ => false)
    [.write 0 [true], .sync, .write 1 [true]] _ rfl 0).1 2).mpr (.inr (.inr (.inl ?_)))
  decide

set_option maxRecDepth 40000 in
theorem read_misses_flushed_block : ∃ disk,
    (create 4 fun _ => false).run plainAead freshBlocks [.write 0 [true], .sync] = .ok disk ∧
      history 4 [Event.write 0 [true], .sync] 0 = some true ∧
      disk.read plainAead 0 [false, false] = .ok (.ok (), [false, false]) :=
  ⟨_, rfl, rfl, rfl⟩

end MlsDisk

end Kei.SecureDisk
