import Kei.SecureDisk.Disk
import Kei.SecureDisk.TreeRules

/-! What the requests do to the contents of the disk, as the data buffer and the tree
show them together. -/

namespace Kei.SecureDisk

open Library Checked List

variable {β Key Mac Cipher : Type}

/-! ### Buffers of a request -/

namespace BufMutVec

theorem length_flatten (bufs : BufMutVec β) : bufs.flatten.length = bufs.nblocks := by
  rw [List.length_flatten, nblocks]

theorem setNth_returns {bufs : BufMutVec β} {nth : Nat} (bound : nth < bufs.nblocks) (block : β) :
    Returns (bufs.setNth nth block) fun next =>
      next.flatten = bufs.flatten.set nth block ∧ next.map List.length = bufs.map List.length := by
  induction bufs generalizing nth with
  | nil => exact absurd bound (Nat.not_lt_zero _)
  | cons buf rest ih =>
    have total : nblocks (buf :: rest) = buf.length + nblocks rest := by simp [nblocks]
    rw [total] at bound
    unfold setNth
    refine meets_ite (fun later => ?_) fun here => ?_
    · have inside : nth - buf.length < nblocks rest := by omega
      refine (ih inside).bind ?_
      rintro next ⟨flat, sizes⟩
      refine ⟨?_, by rw [map_cons, map_cons, sizes]⟩
      rw [flatten_cons, flatten_cons, flat, set_append, if_neg (by omega)]
    · refine ⟨?_, by simp⟩
      rw [flatten_cons, flatten_cons, set_append, if_pos (by omega)]

end BufMutVec

/-! ### What a disk holds -/

namespace MlsDisk

def Seals (aead : Aead β Key Mac Cipher) (value : RecordValue Key Mac) (block : β) : Prop :=
  value.mac = (aead.encrypt block value.key).2

theorem Seals.eq_of_decrypt {aead : Aead β Key Mac Cipher} {value : RecordValue Key Mac} {block other : β}
    {cipher : Cipher} (seals : Seals aead value block)
    (decrypts : aead.decrypt cipher value.key value.mac = some other) : other = block := by
  rw [seals] at decrypts
  have same := aead.authentic block value.key cipher other decrypts
  rw [same, aead.decrypt_encrypt] at decrypts
  exact (Option.some.inj decrypts).symm

def Shows (aead : Aead β Key Mac Cipher) (buffered : Option β) (record : Option (RecordValue Key Mac))
    (contents : Option β) : Prop :=
  match buffered, record with
  | some block, _ => contents = some block
  | none, none => contents = none
  | none, some value => ∃ block, contents = some block ∧ Seals aead value block

structure Reflects (aead : Aead β Key Mac Cipher) (disk : MlsDisk β Key Mac Cipher)
    (contents : Nat → Option β) : Prop where
  sound : disk.logicalBlockTable.Sound
  shows : ∀ lba, Shows aead (disk.dataBuf.get lba) (disk.logicalBlockTable.lookup lba) (contents lba)

theorem create_reflects (aead : Aead β Key Mac Cipher) (nblocks : Nat) (device : Nat → Cipher) :
    (create nblocks device : MlsDisk β Key Mac Cipher).Reflects aead fun _ => none where
  sound := TxLsmTree.format_sound _
  shows _ := rfl

section Flush

variable {aead : Aead β Key Mac Cipher} {environment : Environment Key}

theorem putAll_ensures {records : List (Nat × RecordValue Key Mac)} {tree : TxLsmTree (RecordValue Key Mac)}
    (sound : tree.Sound) (distinct : (records.map Prod.fst).Nodup) :
    Ensures (records.foldlM (fun tree record => tree.put record.1 record.2) tree) fun next =>
      next.Sound ∧ ∀ key, next.lookup key = (records.lookup key).or (tree.lookup key) := by
  induction records generalizing tree with
  | nil => exact ⟨sound, fun _ => rfl⟩
  | cons record rest ih =>
    obtain ⟨first, value⟩ := record
    rw [map_cons, nodup_cons] at distinct
    rw [foldlM_cons]
    refine (TxLsmTree.put_ensures sound first value).bind ?_
    rintro next ⟨sound', reads⟩
    refine (ih sound' distinct.2).mono ?_
    rintro last ⟨sound'', reads'⟩
    refine ⟨sound'', fun key => ?_⟩
    rw [reads', reads, lookup_cons]
    by_cases same : key = first
    · subst same
      have absent : rest.lookup key = none := by
        rw [Ascending.lookup_eq_none]
        intro stored member
        exact distinct.1 (mem_map.mpr ⟨_, member, rfl⟩)
      simp [absent]
    · simp [same, beq_false_of_ne same]

def flushed (aead : Aead β Key Mac Cipher) (environment : Environment Key) (blocks : List (Nat × β))
    (nth : Nat) : List (Nat × RecordValue Key Mac) :=
  (blocks.zipIdx nth).map fun entry =>
    (entry.1.1, ⟨environment.hba entry.2, environment.key entry.2,
      (aead.encrypt entry.1.2 (environment.key entry.2)).2⟩)

theorem flushed_keys (blocks : List (Nat × β)) (nth : Nat) :
    (flushed aead environment blocks nth).map Prod.fst = blocks.map Prod.fst := by
  induction blocks generalizing nth with
  | nil => rfl
  | cons block rest ih =>
    rw [flushed, zipIdx_cons, map_cons, map_cons, map_cons]
    exact congrArg _ (ih (nth + 1))

theorem lookup_flushed (blocks : List (Nat × β)) (nth key : Nat) :
    Shows aead none ((flushed aead environment blocks nth).lookup key) (blocks.lookup key) := by
  induction blocks generalizing nth with
  | nil => rfl
  | cons entry rest ih =>
    obtain ⟨first, block⟩ := entry
    rw [flushed, zipIdx_cons, map_cons, lookup_cons, lookup_cons]
    by_cases same : key = first
    · rw [same, beq_self_eq_true]
      exact ⟨_, rfl, rfl⟩
    · rw [beq_false_of_ne same]
      exact ih (nth + 1)

variable {disk : MlsDisk β Key Mac Cipher} {contents : Nat → Option β}

theorem flushDataBuf_ensures
    (reflects : disk.Reflects aead contents) :
    Ensures (disk.flushDataBuf aead environment) fun next =>
      next.Reflects aead contents ∧ next.nblocks = disk.nblocks := by
  unfold flushDataBuf writeBlocksFromDataBuf
  dsimp only
  have records : (disk.slots environment).map (fun slot =>
      (slot.lba, (⟨slot.hba, slot.key, (aead.encrypt slot.block slot.key).2⟩ : RecordValue Key Mac))) =
      flushed aead environment disk.dataBuf.allBlocks disk.allocated := by
    rw [slots, map_map]
    rfl
  rw [records]
  have distinct : ((flushed aead environment disk.dataBuf.allBlocks disk.allocated).map Prod.fst).Nodup := by
    rw [flushed_keys]
    exact disk.dataBuf.buf.ascending.keys_nodup
  refine (putAll_ensures reflects.sound distinct).bind ?_
  rintro tree ⟨sound, reads⟩
  refine ⟨⟨sound, fun lba => ?_⟩, rfl⟩
  have old := reflects.shows lba
  have new : Shows aead none ((flushed aead environment disk.dataBuf.allBlocks disk.allocated).lookup lba)
      (disk.dataBuf.get lba) := lookup_flushed disk.dataBuf.allBlocks disk.allocated lba
  show Shows aead none (tree.lookup lba) (contents lba)
  rw [reads]
  revert old new
  cases (flushed aead environment disk.dataBuf.allBlocks disk.allocated).lookup lba with
  | none =>
    intro old new
    rw [show disk.dataBuf.get lba = none from new] at old
    exact old
  | some value =>
    rintro old ⟨block, buffered, seals⟩
    rw [buffered] at old
    exact ⟨block, old, seals⟩

theorem put_ensures
    (reflects : disk.Reflects aead contents) (lba : Nat) (block : β) :
    Ensures (disk.dataBuf.put lba block) fun result =>
      Reflects aead { disk with dataBuf := result.1 } (written lba [block] contents) := by
  unfold DataBuf.put
  refine (ensures_true _).bind ?_
  intro _ _
  refine ⟨reflects.sound, fun place => ?_⟩
  show Shows aead ((disk.dataBuf.buf.insert lba block).get place) _ _
  rw [SortedMap.get_insert]
  by_cases same : place = lba
  · rw [if_pos same, same]
    simp [Shows, written]
  · have untouched : written lba [block] contents place = contents place := by
      unfold written
      split
      · have : place - lba ≠ 0 := by omega
        rw [List.getElem?_eq_none (by simp; omega)]
        rfl
      · rfl
    rw [if_neg same, untouched]
    exact reflects.shows place

theorem written_nil (lba : Nat) (contents : Nat → Option β) : written lba [] contents = contents := by
  funext place
  simp [written]

theorem written_append (lba : Nat) (front back : List β) (contents : Nat → Option β) :
    written (lba + front.length) back (written lba front contents) =
      written lba (front ++ back) contents := by
  funext place
  unfold written
  split_ifs <;> grind

theorem writeBlocks_ensures
    (reflects : disk.Reflects aead contents) (lba : Nat) (blocks : List β) :
    Ensures (writeBlocks aead environment lba blocks disk) fun next =>
      next.Reflects aead (written lba blocks contents) ∧ next.nblocks = disk.nblocks := by
  induction blocks generalizing lba disk contents with
  | nil => exact ⟨(written_nil lba contents).symm ▸ reflects, rfl⟩
  | cons block rest ih =>
    rw [writeBlocks]
    refine (put_ensures reflects lba block).bind ?_
    rintro ⟨dataBuf, atCapacity⟩ put
    refine Meets.bind (meets_ite (fun _ => flushDataBuf_ensures put) fun _ => ⟨put, rfl⟩) ?_
    rintro next ⟨reflects', size⟩
    refine (ih reflects' (lba + 1)).mono ?_
    rintro last ⟨reflects'', size'⟩
    have whole := written_append lba [block] rest contents
    rw [length_singleton, singleton_append] at whole
    exact ⟨whole ▸ reflects'', size'.trans size⟩

theorem writevBlocks_ensures
    (reflects : disk.Reflects aead contents) (lba : Nat) (bufs : List (List β)) :
    Ensures (writevBlocks aead environment lba bufs disk) fun next =>
      next.Reflects aead (written lba bufs.flatten contents) ∧ next.nblocks = disk.nblocks := by
  induction bufs generalizing lba disk contents with
  | nil => exact ⟨(written_nil lba contents).symm ▸ reflects, rfl⟩
  | cons buf rest ih =>
    rw [writevBlocks]
    refine (writeBlocks_ensures reflects lba buf).bind ?_
    rintro next ⟨reflects', size⟩
    refine (ih reflects' (lba + buf.length)).mono ?_
    rintro last ⟨reflects'', size'⟩
    rw [written_append, ← flatten_cons] at reflects''
    exact ⟨reflects'', size'.trans size⟩

end Flush

/-! ### Runs -/

section Run

variable {aead : Aead β Key Mac Cipher} {environment : Environment Key}

variable {disk : MlsDisk β Key Mac Cipher} {contents : Nat → Option β}

variable (reflects : disk.Reflects aead contents)
include reflects

theorem write_ensures (lba : Nat) (buf : List β) :
    Ensures (disk.write aead environment lba buf) fun result =>
      result.1.Reflects aead (latest disk.nblocks contents (.write lba buf)) ∧
        result.1.nblocks = disk.nblocks := by
  unfold write checkRwArgs latest
  by_cases beyond : disk.nblocks < lba + buf.length
  · simp only [if_pos beyond]
    exact ⟨reflects, rfl⟩
  · simp only [if_neg beyond]
    exact (writeBlocks_ensures reflects lba buf).bind fun next kept => kept

theorem writev_ensures (lba : Nat) (bufs : List (List β)) :
    Ensures (disk.writev aead environment lba bufs) fun result =>
      result.1.Reflects aead (latest disk.nblocks contents (.writev lba bufs)) ∧
        result.1.nblocks = disk.nblocks := by
  unfold writev checkRwArgs latest
  by_cases beyond : disk.nblocks < lba + BufMutVec.nblocks bufs
  · simp only [if_pos beyond]
    exact ⟨reflects, rfl⟩
  · simp only [if_neg beyond]
    exact (writevBlocks_ensures reflects lba bufs).bind fun next kept => kept

theorem step_ensures (event : Event β) : Ensures (disk.step aead environment event) fun next =>
      next.Reflects aead (latest disk.nblocks contents event) ∧ next.nblocks = disk.nblocks := by
  cases event with
  | write lba buf => exact (write_ensures reflects lba buf).bind fun result kept => kept
  | writev lba bufs => exact (writev_ensures reflects lba bufs).bind fun result kept => kept
  | sync =>
    unfold step sync latest
    refine (flushDataBuf_ensures reflects).bind ?_
    rintro flushed ⟨reflects', size⟩
    refine (ensures_true _).bind fun _ _ => (TxLsmTree.sync_ensures reflects'.sound).bind ?_
    rintro tree ⟨sound, reads⟩
    refine ⟨⟨sound, fun lba => ?_⟩, size⟩
    show Shows aead _ (tree.lookup lba) _
    rw [reads]
    exact reflects'.shows lba
  | compact =>
    unfold step latest
    refine (TxLsmTree.compact_ensures reflects.sound).bind ?_
    rintro tree ⟨compacted, -⟩
    refine ⟨⟨compacted.sound, fun lba => ?_⟩, rfl⟩
    show Shows aead _ (tree.lookup lba) _
    rw [compacted.lookup]
    exact reflects.shows lba

theorem run_ensures (events : List (Event β)) :
    Ensures (disk.run aead environment events) fun next =>
      next.Reflects aead (events.foldl (latest disk.nblocks) contents) ∧ next.nblocks = disk.nblocks := by
  induction events generalizing disk contents with
  | nil => exact ⟨reflects, rfl⟩
  | cons event rest ih =>
    unfold run
    rw [foldlM_cons, foldl_cons]
    refine (step_ensures reflects event).bind ?_
    rintro next ⟨reflects', size⟩
    refine (ih reflects').mono ?_
    rintro last ⟨reflects'', size'⟩
    rw [size] at reflects''
    exact ⟨reflects'', size'.trans size⟩

end Run

end MlsDisk

end Kei.SecureDisk
