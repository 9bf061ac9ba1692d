import Kei.Ext2.Xattr
import Mathlib.Algebra.GroupWithZero.Nat

/-! Writing the entries to the block and parsing it gives them back, if there is room for the
whole terminating entry between the entries and the values. -/

namespace Kei.Ext2

open Library Buffer XattrEntry List Nat

theorem le_aligned (size : Nat) : size ≤ aligned size := by
  unfold aligned
  omega

def entriesSize (entries : List XattrEntryData) : Nat :=
  (entries.map fun entry => xattrEntryLen entry.1.name.length).sum

def valuesSize (entries : List XattrEntryData) : Nat :=
  (entries.map fun entry => xattrValueSize entry.2.length).sum

def Fits (entries : List XattrEntryData) : Prop :=
  xattrHeaderSize + entriesSize entries + xattrEntryHeaderSize + valuesSize entries ≤ blockSize

instance (entries : List XattrEntryData) : Decidable (Fits entries) := inferInstanceAs (Decidable (_ ≤ _))

def ShortNames (entries : List XattrEntryData) : Prop := ∀ entry ∈ entries, entry.1.name.length ≤ 255

theorem length_le_entriesSize (entries : List XattrEntryData) : entries.length * 16 ≤ entriesSize entries := by
  induction entries with
  | nil => exact le_refl _
  | cons entry rest ih =>
    have first := le_aligned (entry.1.name.length + xattrEntryHeaderSize)
    simp only [entriesSize, xattrEntryLen, xattrEntryHeaderSize, map_cons, sum_cons,
      length_cons] at ih first ⊢
    omega

def rawEntry (key : XattrKey) (value : List UInt8) (valueOffset : Nat) : XattrEntry :=
  ⟨key.name.length, key.nameIndex.toNat, valueOffset, 0, value.length, 0⟩

theorem ofBytes_rawEntry {key : XattrKey} {value : List UInt8} {valueOffset : Nat} (name : key.name.length ≤ 255)
    (bound : valueOffset + value.length ≤ blockSize) :
    ofBytes (rawEntry key value valueOffset).toBytes = rawEntry key value valueOffset := by
  have index := key.nameIndex.toNat_lt
  unfold blockSize at bound
  change mk (ofLe (toLe 1 key.name.length)) (ofLe (toLe 1 key.nameIndex.toNat))
    (ofLe (toLe 2 valueOffset)) (ofLe (toLe 4 0)) (ofLe (toLe 4 value.length)) (ofLe (toLe 4 0)) = _
  rw [ofLe_toLe (by omega), ofLe_toLe (by omega), ofLe_toLe (by omega), ofLe_toLe (by omega), ofLe_toLe (by omega)]
  rfl

theorem marker_rawEntry (key : XattrKey) (value : List UInt8) (valueOffset : Nat) :
    ofLe (window (rawEntry key value valueOffset).toBytes 0 4) ≠ 0 := by
  change ofLe (key.name.length.toUInt8 :: key.nameIndex.toNat.toUInt8 :: toLe 2 valueOffset) ≠ 0
  have index := key.nameIndex.toNat_lt
  have positive := key.nameIndex.toNat_pos
  have byte : key.nameIndex.toNat.toUInt8.toNat = key.nameIndex.toNat := by
    rw [Nat.toUInt8, UInt8.toNat_ofNat']
    exact mod_eq_of_lt index
  simp only [ofLe, byte]
  omega

def Stores (block : Block) : List XattrEntryData → Nat → Prop
  | [], offset => offset + xattrTerminatorSize ≤ blockSize ∧ ofLe (window block offset 4) = 0
  | (key, value) :: entries, offset => ∃ valueOffset,
      window block offset xattrEntryHeaderSize = (rawEntry key value valueOffset).toBytes ∧
      window block (offset + xattrEntryHeaderSize) key.name.length = key.name ∧
      offset + xattrEntryLen key.name.length < blockSize ∧
      valueOffset + value.length ≤ blockSize ∧
      window block valueOffset value.length = value ∧
      Stores block entries (offset + xattrEntryLen key.name.length)

section Read

variable {block : Block} {offset count : Nat}

theorem readBytes_ok (size : block.length = blockSize) (bound : offset + count ≤ blockSize) :
    block.readBytes offset count = .ok (window block offset count) := by
  unfold Block.readBytes
  rw [read_of_le (by omega)]

variable {entries : List XattrEntryData}

variable (size : block.length = blockSize)
include size

theorem Stores.head {key : XattrKey} {value : List UInt8} (stores : Stores block ((key, value) :: entries) offset)
    (name : key.name.length ≤ 255) :
    ∃ valueOffset, offset + xattrTerminatorSize ≤ blockSize ∧
      (∃ marker, block.readBytes offset 4 = .ok marker ∧ ofLe marker ≠ 0) ∧
      (∃ bytes, block.readBytes offset xattrEntryHeaderSize = .ok bytes ∧
        ofBytes bytes = rawEntry key value valueOffset) ∧
      validateEntry (rawEntry key value valueOffset) offset = .ok () ∧
      block.readBytes (offset + xattrEntryHeaderSize) key.name.length = .ok key.name ∧
      readValue block (rawEntry key value valueOffset) = .ok value ∧
      Stores block entries (offset + xattrEntryLen key.name.length) := by
  obtain ⟨valueOffset, header, nameBytes, inside, valueInside, valueBytes, rest⟩ := stores
  have length := le_aligned (key.name.length + xattrEntryHeaderSize)
  have bounds : offset + (key.name.length + xattrEntryHeaderSize) ≤ blockSize := by
    unfold xattrEntryLen at inside
    omega
  have headerInside : offset + xattrEntryHeaderSize ≤ blockSize := by omega
  have markerInside : offset + 4 ≤ blockSize := by
    unfold xattrEntryHeaderSize at headerInside
    omega
  refine ⟨valueOffset, markerInside, ⟨_, readBytes_ok size markerInside, ?_⟩,
    ⟨_, readBytes_ok size headerInside, ?_⟩, ?_, ?_, ?_, rest⟩
  · have within : 0 + 4 ≤ xattrEntryHeaderSize := by decide
    have part : window (window block offset xattrEntryHeaderSize) 0 4 = window block offset 4 :=
      window_window within offset
    rw [← part, header]
    exact marker_rawEntry key value valueOffset
  · rw [header]
    exact ofBytes_rawEntry name valueInside
  · unfold validateEntry rawEntry
    rw [if_neg (by simpa using inside), if_neg (by simp), if_neg (by dsimp only; omega),
      if_neg (by dsimp only; omega)]
  · rw [readBytes_ok size (by omega), nameBytes]
  · change (if value.length > 0 then block.readBytes valueOffset value.length else .ok []) = .ok value
    split
    · rw [readBytes_ok size valueInside, valueBytes]
    · rename_i empty
      have none : value = [] := eq_nil_of_length_eq_zero (by omega)
      rw [none]

omit size in
theorem validateFrom_of_parseFrom {turns : Nat} {before parsed : List XattrEntryData}
    (ran : parseFrom block turns offset before = .ok parsed) : validateFrom block turns offset = .ok () := by
  induction turns generalizing offset before with
  | zero => cases ran
  | succ turns ih =>
    simp only [parseFrom, validateFrom, bind, Except.bind, pure, Except.pure] at ran ⊢
    repeat' split at ran
    all_goals try cases ran
    · simp [*]
    · simp [*, ih ran]

theorem parseFrom_of_stores {entries before : List XattrEntryData} {turns : Nat} (names : ShortNames entries)
    (sorted : Ascending (before ++ entries)) (stores : Stores block entries offset)
    (enough : entries.length < turns) : parseFrom block turns offset before = .ok (before ++ entries) := by
  induction entries generalizing offset turns before with
  | nil =>
    obtain ⟨turns, rfl⟩ : ∃ more, turns = more + 1 := ⟨turns - 1, by simp at enough; omega⟩
    obtain ⟨inside, marker⟩ := stores
    have read : block.readBytes offset 4 = .ok _ := readBytes_ok size inside
    rw [parseFrom, if_neg (by omega), read]
    simp [bind, Except.bind, pure, Except.pure, marker]
  | cons entry rest ih =>
    obtain ⟨key, value⟩ := entry
    obtain ⟨turns, rfl⟩ : ∃ more, turns = more + 1 := ⟨turns - 1, by simp at enough; omega⟩
    obtain ⟨valueOffset, inside, ⟨marker, readMarker, nonzero⟩, ⟨bytes, readHeader, decoded⟩, valid, readName,
      valueRead, later⟩ := stores.head size (names _ mem_cons_self)
    have above : sortedAfter before key = true := by
      unfold sortedAfter
      cases last : before.getLast? with
      | none => rfl
      | some previous =>
        have member := mem_of_getLast? last
        have lower := (pairwise_append.mp sorted).2.2 previous member (key, value) mem_cons_self
        exact beq_iff_eq.mpr (XattrKey.cmpEntryKey_eq_lt.mpr lower)
    have step : before ++ (key, value) :: rest = (before ++ [(key, value)]) ++ rest := by simp
    have next := ih (fun other member => names other (mem_cons_of_mem _ member)) (step ▸ sorted) later
      (by simpa using enough)
    rw [parseFrom, if_neg (by omega), readMarker]
    simp only [bind, Except.bind, nonzero, if_false, readHeader, decoded, valid, valueRead]
    simp only [rawEntry, nameIndexOnDisk, XattrNameIndex.tryFrom_toNat, readName, above, Bool.not_true,
      Bool.false_eq_true, if_false, next, step]

end Read

section Write

variable {block : Block}

section

variable {offset : Nat} {bytes : List UInt8} (size : block.length = blockSize)
  (bound : offset + bytes.length ≤ blockSize)
include size bound

theorem writeBytes_ok :
    block.writeBytes offset bytes = .ok (Cyclic.overlay block offset bytes) := by
  unfold Block.writeBytes
  rw [write_of_le (by omega)]

theorem length_overlay : (Cyclic.overlay block offset bytes).length = blockSize := by
  rw [Cyclic.length_overlay (by omega), size]

end

@[simp]
theorem length_toBytes (entry : XattrEntry) : entry.toBytes.length = xattrEntryHeaderSize := by
  simp [toBytes, xattrEntryHeaderSize]

theorem writeValue_ok {value : List UInt8} {valueCursor : Nat} (size : block.length = blockSize)
    (bound : valueCursor + value.length ≤ blockSize) :
    ∃ after, writeValue block valueCursor value = .ok after ∧ after.length = blockSize ∧
      window after valueCursor value.length = value ∧ Agree after block 0 valueCursor ∧
      Agree after block (valueCursor + value.length) blockSize := by
  cases value with
  | nil => exact ⟨block, rfl, size, rfl, fun _ _ _ => rfl, fun _ _ _ => rfl⟩
  | cons byte rest =>
    refine ⟨_, writeBytes_ok size bound, length_overlay size bound, window_overlay (by omega),
      overlay_agree (by omega) (.inl (le_refl _)), overlay_agree (by omega) (.inr (le_refl _))⟩

variable {entryCursor valueCursor : Nat}

theorem writeEntry_ok {key : XattrKey} {value : List UInt8}
    (size : block.length = blockSize) (name : key.name.length ≤ 255)
    (apart : entryCursor + xattrEntryHeaderSize + key.name.length ≤ valueCursor)
    (inside : valueCursor + value.length ≤ blockSize) :
    ∃ after valueOffset, writeEntry block entryCursor valueCursor (key, value) = .ok after ∧
      after.length = blockSize ∧ valueOffset + value.length ≤ blockSize ∧
      Agree after block 0 entryCursor ∧ Agree after block (valueCursor + value.length) blockSize ∧
      window after entryCursor xattrEntryHeaderSize = (rawEntry key value valueOffset).toBytes ∧
      window after (entryCursor + xattrEntryHeaderSize) key.name.length = key.name ∧
      ∀ final : Block, Agree final after valueCursor (valueCursor + value.length) →
        window final valueOffset value.length = value := by
  have whole : blockSize = 4096 := rfl
  obtain ⟨block1, wroteValue, size1, stored, below, above⟩ := writeValue_ok size inside
  obtain ⟨valueOffset, offset⟩ : ∃ place, place = if value.isEmpty then 0 else valueCursor := ⟨_, rfl⟩
  have raw : mk (key.name.length % 256) key.nameIndex.toNat
      (if value.isEmpty then 0 else valueCursor % 65536) 0 (value.length % 2 ^ 32) 0 =
      rawEntry key value valueOffset := by
    rw [mod_eq_of_lt (by omega : key.name.length < 256), mod_eq_of_lt (by omega : valueCursor < 65536),
      mod_eq_of_lt (by omega : value.length < 2 ^ 32), ← offset, rawEntry]
  have length2 := length_toBytes (rawEntry key value valueOffset)
  have inside2 : entryCursor + (rawEntry key value valueOffset).toBytes.length ≤ blockSize := by omega
  have size2 := length_overlay size1 inside2
  have inside3 : entryCursor + xattrEntryHeaderSize + key.name.length ≤ blockSize := by omega
  have size3 := length_overlay size2 inside3
  obtain ⟨block2, block2Eq⟩ :
    ∃ next, next = Cyclic.overlay block1 entryCursor (rawEntry key value valueOffset).toBytes :=
    ⟨_, rfl⟩
  obtain ⟨block3, block3Eq⟩ :
    ∃ next, next = Cyclic.overlay block2 (entryCursor + xattrEntryHeaderSize) key.name :=
    ⟨_, rfl⟩
  rw [← block2Eq] at size2 size3
  rw [← block3Eq] at size3
  have second : ∀ start stop, stop ≤ entryCursor ∨ entryCursor + xattrEntryHeaderSize ≤ start →
      Agree block2 block1 start stop := by
    intro start stop off
    rw [block2Eq]
    exact overlay_agree (by omega) (by omega)
  have third : ∀ start stop, stop ≤ entryCursor + xattrEntryHeaderSize ∨
      entryCursor + xattrEntryHeaderSize + key.name.length ≤ start → Agree block3 block2 start stop := by
    intro start stop off
    rw [block3Eq]
    exact overlay_agree (by omega) off
  have both : ∀ start stop, stop ≤ entryCursor ∨
    entryCursor + xattrEntryHeaderSize + key.name.length ≤ start →
      Agree block3 block1 start stop := by
    intro start stop off
    exact (third start stop (by omega)).trans (second start stop (by omega))
  refine ⟨block3, valueOffset, ?_, size3, ?_, ?_, ?_, ?_, ?_, ?_⟩
  · unfold writeEntry
    simp only [raw, wroteValue, bind, Except.bind]
    rw [writeBytes_ok size1 inside2, ← block2Eq]
    simp only
    rw [writeBytes_ok size2 inside3, block3Eq]
  · rw [offset]
    split
    · omega
    · exact inside
  · exact (both 0 entryCursor (.inl (le_refl _))).trans (below.mono (le_refl _) (by omega))
  · exact (both _ _ (.inr (by omega))).trans above
  · rw [(third entryCursor (entryCursor + xattrEntryHeaderSize) (.inl (le_refl _))).window_eq (le_refl _)
      (le_refl _), block2Eq, ← length2]
    exact window_overlay (by omega)
  · rw [block3Eq]
    exact window_overlay (by omega)
  · intro final agree
    cases value with
    | nil => rfl
    | cons byte bytes =>
      rw [offset]
      change window final valueCursor _ = _
      rw [agree.window_eq (le_refl _) (le_refl _),
        (both valueCursor _ (.inr (by omega))).window_eq (le_refl _) (le_refl _)]
      exact stored

variable {entries : List XattrEntryData}

/-- The loop of the writer: what it leaves alone, and that a block which keeps what it wrote,
and has a terminator after it, stores the entries. -/
theorem writeEntries_stores
    (size : block.length = blockSize) (names : ShortNames entries) (top : valueCursor ≤ blockSize)
    (room : entryCursor + entriesSize entries + xattrEntryHeaderSize + valuesSize entries ≤ valueCursor) :
    ∃ after, writeEntries entries entryCursor valueCursor block = .ok (entryCursor + entriesSize entries, after) ∧
      after.length = blockSize ∧ Agree after block 0 entryCursor ∧ Agree after block valueCursor blockSize ∧
      ∀ final : Block, Agree final after entryCursor (entryCursor + entriesSize entries) →
        Agree final after (valueCursor - valuesSize entries) valueCursor →
        ofLe (window final (entryCursor + entriesSize entries) 4) = 0 → Stores final entries entryCursor := by
  induction entries generalizing entryCursor valueCursor block with
  | nil =>
    refine ⟨block, rfl, size, fun _ _ _ => rfl, fun _ _ _ => rfl, ?_⟩
    intro final _ _ marker
    refine ⟨?_, marker⟩
    simp only [entriesSize, valuesSize, xattrEntryHeaderSize, xattrTerminatorSize, map_nil, sum_nil] at room ⊢
    omega
  | cons entry rest ih =>
    obtain ⟨key, value⟩ := entry
    have name : key.name.length ≤ 255 := names _ mem_cons_self
    have others : ShortNames rest := fun other member => names other (mem_cons_of_mem _ member)
    have entryLength : key.name.length + xattrEntryHeaderSize ≤ xattrEntryLen key.name.length := le_aligned _
    have valueLength : value.length ≤ xattrValueSize value.length := le_aligned _
    have front : entriesSize ((key, value) :: rest) = xattrEntryLen key.name.length + entriesSize rest := rfl
    have back : valuesSize ((key, value) :: rest) = xattrValueSize value.length + valuesSize rest := rfl
    have header : xattrEntryHeaderSize = 16 := rfl
    rw [front, back] at room
    rw [front, back, ← add_assoc]
    have entryRoom : entryCursor + xattrEntryHeaderSize + key.name.length ≤
        valueCursor - xattrValueSize value.length := by omega
    have valueRoom : valueCursor - xattrValueSize value.length + value.length ≤ blockSize := by omega
    obtain ⟨written, valueOffset, wrote, sizeWritten, offsetInside, keptFront, keptBack, headerBytes, nameBytes,
      valueBytes⟩ := writeEntry_ok size name entryRoom valueRoom
    have nextRoom : entryCursor + xattrEntryLen key.name.length + entriesSize rest + xattrEntryHeaderSize +
        valuesSize rest ≤ valueCursor - xattrValueSize value.length := by omega
    obtain ⟨after, ran, sizeAfter, afterFront, afterBack, keeps⟩ :=
      ih sizeWritten others (by omega) nextRoom
    refine ⟨after, ?_, sizeAfter, ?_, ?_, ?_⟩
    · have gap : xattrEntryValueGap = 4 := rfl
      rw [writeEntries, if_neg (by dsimp only; omega), if_neg (by dsimp only; omega)]
      dsimp only
      rw [wrote]
      exact ran
    · exact (afterFront.mono (le_refl _) (by omega)).trans keptFront
    · exact (afterBack.mono (by omega) (le_refl _)).trans (keptBack.mono (by omega) (le_refl _))
    · intro final entriesKept valuesKept marker
      have here : Agree final written entryCursor (entryCursor + xattrEntryLen key.name.length) :=
        (entriesKept.mono (le_refl _) (by omega)).trans (afterFront.mono (zero_le _) (le_refl _))
      have end_ : Agree final written (valueCursor - xattrValueSize value.length)
          (valueCursor - xattrValueSize value.length + value.length) :=
        (valuesKept.mono (by omega) (by omega)).trans (afterBack.mono (le_refl _) (by omega))
      refine ⟨valueOffset, ?_, ?_, by omega, offsetInside, valueBytes final end_, keeps final ?_ ?_ marker⟩
      · rw [here.window_eq (le_refl _) (by omega), headerBytes]
      · rw [here.window_eq (by omega) (by omega), nameBytes]
      · exact entriesKept.mono (by omega) (le_refl _)
      · exact valuesKept.mono (by omega) (by omega)

theorem writeEntriesToSegment_stores (names : ShortNames entries)
    (fits : Fits entries) :
    ∃ block, writeEntriesToSegment entries = .ok block ∧ block.length = blockSize ∧
      window block 0 xattrHeaderSize = headerBytes ∧ Stores block entries xattrHeaderSize := by
  have zeros : zeroBlock.length = blockSize := length_replicate
  have headerLength : headerBytes.length = xattrHeaderSize := rfl
  have headerSize : xattrHeaderSize = 32 := rfl
  have entrySize : xattrEntryHeaderSize = 16 := rfl
  have whole : blockSize = 4096 := rfl
  have headerInside : 0 + headerBytes.length ≤ blockSize := by omega
  unfold Fits at fits
  obtain ⟨after, ran, sizeAfter, keptFront, -, keeps⟩ :=
    writeEntries_stores (length_overlay zeros headerInside) names (le_refl blockSize) fits
  obtain ⟨terminator, terminatorEq⟩ : ∃ bytes, bytes = toBytes ⟨0, 0, 0, 0, 0, 0⟩ := ⟨_, rfl⟩
  have terminatorLength : terminator.length = xattrEntryHeaderSize := by rw [terminatorEq, length_toBytes]
  have inside : xattrHeaderSize + entriesSize entries + terminator.length ≤ blockSize := by omega
  have last : ∀ start stop, stop ≤ xattrHeaderSize + entriesSize entries ∨
      xattrHeaderSize + entriesSize entries + xattrEntryHeaderSize ≤ start →
      Agree (Cyclic.overlay after (xattrHeaderSize + entriesSize entries) terminator) after start stop :=
    fun start stop off => overlay_agree (by omega) (by omega)
  refine ⟨Cyclic.overlay after (xattrHeaderSize + entriesSize entries) terminator, ?_,
    length_overlay sizeAfter inside, ?_, keeps _ (last _ _ (.inl (le_refl _))) (last _ _ (.inr (by omega))) ?_⟩
  · unfold writeEntriesToSegment
    rw [writeBytes_ok zeros headerInside]
    simp only [bind, Except.bind, ran, ← terminatorEq]
    rw [writeBytes_ok sizeAfter inside]
  · rw [(last 0 xattrHeaderSize (.inl (by omega))).window_eq (le_refl _) (by omega),
      keptFront.window_eq (le_refl _) (by omega), ← headerLength]
    exact window_overlay (by omega)
  · have within : 0 + 4 ≤ xattrEntryHeaderSize := by decide
    have part : window (window (Cyclic.overlay after (xattrHeaderSize + entriesSize entries) terminator)
        (xattrHeaderSize + entriesSize entries) xattrEntryHeaderSize) 0 4 =
        window (Cyclic.overlay after (xattrHeaderSize + entriesSize entries) terminator)
          (xattrHeaderSize + entriesSize entries) 4 := window_window within _
    rw [← part, ← terminatorLength, window_overlay (by omega), terminatorEq]
    rfl

end Write

def Holds (block : Block) (entries : List XattrEntryData) : Prop :=
  validateBlock block = .ok () ∧ parseEntriesFromBlock block = .ok entries

theorem writeEntriesToSegment_holds {entries : List XattrEntryData} (names : ShortNames entries)
    (sorted : Ascending entries) (fits : Fits entries) :
    ∃ block, writeEntriesToSegment entries = .ok block ∧ Holds block entries := by
  obtain ⟨block, wrote, size, header, stores⟩ := writeEntriesToSegment_stores names fits
  have count := length_le_entriesSize entries
  have enough : entries.length < blockSize := by
    simp only [Fits, xattrHeaderSize, xattrEntryHeaderSize, blockSize] at fits ⊢
    omega
  have parsed : parseEntriesFromBlock block = .ok entries := parseFrom_of_stores size names sorted stores enough
  refine ⟨block, wrote, ?_, parsed⟩
  have magic : block.readBytes 0 4 = .ok (window headerBytes 0 4) := by
    rw [readBytes_ok size (by decide), ← header, window_window (by decide)]
  have nblocks : block.readBytes 8 4 = .ok (window headerBytes 8 4) := by
    rw [readBytes_ok size (by decide), ← header, window_window (by decide)]
  have valid : validateHeader block = .ok () := by
    unfold validateHeader
    rw [magic, nblocks]
    rfl
  unfold validateBlock
  rw [valid]
  exact validateFrom_of_parseFrom parsed

end Kei.Ext2
