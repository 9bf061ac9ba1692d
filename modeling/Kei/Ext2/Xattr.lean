import Kei.Library.Buffer
import Kei.Library.SortedMap
import Mathlib.Data.List.Lex
import Mathlib.Data.Prod.Lex

/-! Extended attributes of an ext2 inode (`ext2/xattr.rs`): the cached entries, the block they
are kept in and the device it is written to. A set is given the outcome of the block
allocation it may ask for. Left out are the locks, the copy from and to user memory, and the
failure to get a page for the block buffer. -/

namespace Kei.Ext2

open Library Buffer

inductive Errno
  | eexist
  | einval
  | eio
  | enodata
  | enospc
  | erange
  deriving DecidableEq, Repr

structure Error where
  errno : Errno
  message : String
  deriving DecidableEq, Repr

abbrev Block := List UInt8

def blockSize : Nat := 4096

def zeroBlock : Block := List.replicate blockSize 0

namespace Block

def readBytes (block : Block) (offset count : Nat) : Except Error (List UInt8) :=
  match read block offset count with
  | some bytes => .ok bytes
  | none => .error ⟨.einval, ""⟩

def writeBytes (block : Block) (offset : Nat) (bytes : List UInt8) : Except Error Block :=
  match write block offset bytes with
  | some block => .ok block
  | none => .error ⟨.einval, ""⟩

end Block

inductive XattrNamespace
  | user
  | trusted
  | system
  | security
  deriving DecidableEq, Repr

inductive XattrNameIndex
  | user
  | posixAclAccess
  | posixAclDefault
  | trusted
  | lustre
  | security
  deriving DecidableEq, Repr

namespace XattrNameIndex

def toNat : XattrNameIndex → Nat
  | user => 1
  | posixAclAccess => 2
  | posixAclDefault => 3
  | trusted => 4
  | lustre => 5
  | security => 6

def tryFrom : Nat → Option XattrNameIndex
  | 1 => some user
  | 2 => some posixAclAccess
  | 3 => some posixAclDefault
  | 4 => some trusted
  | 5 => some lustre
  | 6 => some security
  | _ => none

def ofNamespace : XattrNamespace → XattrNameIndex
  | .user => user
  | .trusted => trusted
  | .security => security
  | .system => posixAclAccess

def prefixText : XattrNameIndex → List Char
  | user => ['u', 's', 'e', 'r', '.']
  | posixAclAccess => ['s', 'y', 's', 't', 'e', 'm', '.', 'p', 'o', 's', 'i', 'x', '_', 'a', 'c', 'l', '_',
      'a', 'c', 'c', 'e', 's', 's', '.']
  | posixAclDefault => ['s', 'y', 's', 't', 'e', 'm', '.', 'p', 'o', 's', 'i', 'x', '_', 'a', 'c', 'l', '_',
      'd', 'e', 'f', 'a', 'u', 'l', 't', '.']
  | trusted => ['t', 'r', 'u', 's', 't', 'e', 'd', '.']
  | lustre => ['l', 'u', 's', 't', 'r', 'e', '.']
  | security => ['s', 'e', 'c', 'u', 'r', 'i', 't', 'y', '.']

def prefixBytes (index : XattrNameIndex) : List UInt8 := index.prefixText.map fun char => char.toNat.toUInt8

def stripPrefix (index : XattrNameIndex) (fullName : List UInt8) : Except Error (List UInt8) :=
  if index.prefixBytes <+: fullName then .ok (fullName.drop index.prefixBytes.length)
  else .error ⟨.einval, "xattr name does not match namespace-specific prefix"⟩

def namespaceOf : XattrNameIndex → XattrNamespace
  | user => .user
  | trusted => .trusted
  | security => .security
  | posixAclAccess | posixAclDefault | lustre => .system

theorem tryFrom_toNat (index : XattrNameIndex) : tryFrom index.toNat = some index := by
  cases index <;> rfl

theorem toNat_injective : Function.Injective toNat := by
  intro left right same
  have found := tryFrom_toNat left
  rw [same, tryFrom_toNat] at found
  exact (Option.some.inj found).symm

theorem toNat_pos (index : XattrNameIndex) : 0 < index.toNat := by
  cases index <;> decide

theorem toNat_lt (index : XattrNameIndex) : index.toNat < 256 := by
  cases index <;> decide

end XattrNameIndex

structure XattrName where
  namespace_ : XattrNamespace
  fullName : List UInt8

structure XattrSetFlags where
  createOnly : Bool
  replaceOnly : Bool

structure XattrKey where
  nameIndex : XattrNameIndex
  name : List UInt8

def cmpBytes (left right : List UInt8) : Ordering :=
  if left.map UInt8.toNat < right.map UInt8.toNat then .lt
  else if left = right then .eq
  else .gt

theorem cmpBytes_eq_lt {left right : List UInt8} :
    cmpBytes left right = .lt ↔ left.map UInt8.toNat < right.map UInt8.toNat := by
  unfold cmpBytes
  split
  · simp [*]
  · split <;> simp [*]

theorem cmpBytes_eq_eq {left right : List UInt8} : cmpBytes left right = .eq ↔ left = right := by
  unfold cmpBytes
  split
  · rename_i lower
    refine iff_of_false (by simp) ?_
    rintro rfl
    exact lt_irrefl _ lower
  · split <;> simp [*]

def cmpEntryKey (left right : XattrKey) : Ordering :=
  (compare left.nameIndex.toNat right.nameIndex.toNat).then
    ((compare left.name.length right.name.length).then
      (cmpBytes left.name right.name))

namespace XattrKey

def rank (key : XattrKey) : Nat ×ₗ Nat ×ₗ List Nat :=
  toLex (key.nameIndex.toNat, toLex (key.name.length, key.name.map UInt8.toNat))

theorem rank_injective : Function.Injective rank := by
  rintro ⟨leftIndex, leftName⟩ ⟨rightIndex, rightName⟩ same
  have parts := congrArg ofLex same
  obtain ⟨index, inner⟩ := Prod.mk.inj parts
  obtain ⟨-, name⟩ := Prod.mk.inj (congrArg ofLex inner)
  have sameIndex : leftIndex = rightIndex := XattrNameIndex.toNat_injective index
  have sameName : leftName = rightName := List.map_injective_iff.mpr (fun _ _ => UInt8.toNat_inj.mp) name
  rw [sameIndex, sameName]

instance : LinearOrder XattrKey := LinearOrder.lift' rank rank_injective

variable {left right : XattrKey}

theorem lt_iff : left < right ↔
    left.nameIndex.toNat < right.nameIndex.toNat ∨ left.nameIndex.toNat = right.nameIndex.toNat ∧
      (left.name.length < right.name.length ∨ left.name.length = right.name.length ∧
        left.name.map UInt8.toNat < right.name.map UInt8.toNat) := by
  change left.rank < right.rank ↔ _
  rw [Prod.Lex.lt_iff]
  refine or_congr Iff.rfl (and_congr Iff.rfl ?_)
  exact Prod.Lex.lt_iff

theorem cmpEntryKey_eq_lt : cmpEntryKey left right = .lt ↔ left < right := by
  rw [lt_iff, cmpEntryKey, Ordering.then_eq_lt, Ordering.then_eq_lt, compare_lt_iff_lt, compare_eq_iff_eq,
    compare_lt_iff_lt, compare_eq_iff_eq, cmpBytes_eq_lt]

theorem cmpEntryKey_eq_eq : cmpEntryKey left right = .eq ↔ left = right := by
  rw [cmpEntryKey, Ordering.then_eq_eq, Ordering.then_eq_eq, compare_eq_iff_eq, compare_eq_iff_eq, cmpBytes_eq_eq]
  constructor
  · rintro ⟨index, length, name⟩
    refine rank_injective ?_
    rw [rank, rank, index, length, name]
  · rintro rfl
    exact ⟨rfl, rfl, rfl⟩

end XattrKey

abbrev XattrEntryData := XattrKey × List UInt8

def xattrHeaderSize : Nat := 32

def xattrEntryHeaderSize : Nat := 16

def xattrTerminatorSize : Nat := 4

def xattrEntryValueGap : Nat := 4

def aligned (size : Nat) : Nat := (size + 3) / 4 * 4

def xattrEntryLen (nameLen : Nat) : Nat := aligned (nameLen + xattrEntryHeaderSize)

def xattrValueSize (size : Nat) : Nat := aligned size

structure XattrEntry where
  nameLen : Nat
  nameIndex : Nat
  valueOffset : Nat
  valueBlock : Nat
  valueLen : Nat
  hash : Nat

namespace XattrEntry

def toBytes (entry : XattrEntry) : List UInt8 :=
  toLe 1 entry.nameLen ++ toLe 1 entry.nameIndex ++ toLe 2 entry.valueOffset ++
    toLe 4 entry.valueBlock ++ toLe 4 entry.valueLen ++ toLe 4 entry.hash

def ofBytes (bytes : List UInt8) : XattrEntry where
  nameLen := ofLe (window bytes 0 1)
  nameIndex := ofLe (window bytes 1 1)
  valueOffset := ofLe (window bytes 2 2)
  valueBlock := ofLe (window bytes 4 4)
  valueLen := ofLe (window bytes 8 4)
  hash := ofLe (window bytes 12 4)

end XattrEntry

def xattrMagic : Nat := 0xEA020000

def headerBytes : List UInt8 :=
  toLe 4 xattrMagic ++ toLe 4 1 ++ toLe 4 1 ++ toLe 4 0 ++ List.replicate 16 0

def writeValue (block : Block) (valueCursor : Nat) (value : List UInt8) : Except Error Block :=
  if value.isEmpty then .ok block else block.writeBytes valueCursor value

def readValue (block : Block) (entry : XattrEntry) : Except Error (List UInt8) :=
  if entry.valueLen > 0 then block.readBytes entry.valueOffset entry.valueLen else .ok []

def writeEntry (block : Block) (entryCursor valueCursor : Nat) (entry : XattrEntryData) : Except Error Block := do
  let (key, value) := entry
  let block ← writeValue block valueCursor value
  let rawEntry : XattrEntry := ⟨key.name.length % 256, key.nameIndex.toNat,
    if value.isEmpty then 0 else valueCursor % 65536, 0, value.length % 2 ^ 32, 0⟩
  let block ← block.writeBytes entryCursor rawEntry.toBytes
  block.writeBytes (entryCursor + xattrEntryHeaderSize) key.name

def writeEntries : List XattrEntryData → Nat → Nat → Block → Except Error (Nat × Block)
  | [], entryCursor, _, block => .ok (entryCursor, block)
  | entry :: entries, entryCursor, valueCursor, block =>
    let entryPaddedSize := xattrEntryLen entry.1.name.length
    let valuePaddedSize := xattrValueSize entry.2.length
    if valueCursor < valuePaddedSize then .error ⟨.enospc, "insufficient xattr value space"⟩
    else
      let valueCursor := valueCursor - valuePaddedSize
      if entryCursor + entryPaddedSize + xattrEntryValueGap > valueCursor then
        .error ⟨.enospc, "xattr entry/value regions overlap"⟩
      else do
        let block ← writeEntry block entryCursor valueCursor entry
        writeEntries entries (entryCursor + entryPaddedSize) valueCursor block

def writeEntriesToSegment (entries : List XattrEntryData) : Except Error Block := do
  let block ← zeroBlock.writeBytes 0 headerBytes
  let (entryCursor, block) ← writeEntries entries xattrHeaderSize blockSize block
  block.writeBytes entryCursor (XattrEntry.toBytes ⟨0, 0, 0, 0, 0, 0⟩)

def validateHeader (block : Block) : Except Error Unit := do
  let magic ← block.readBytes 0 4
  let nblocks ← block.readBytes 8 4
  if ofLe magic ≠ xattrMagic ∨ ofLe nblocks ≠ 1 then .error ⟨.eio, "invalid xattr header"⟩
  else return ()

def validateEntry (entry : XattrEntry) (offset : Nat) : Except Error Unit :=
  if offset + xattrEntryLen entry.nameLen ≥ blockSize then .error ⟨.eio, "xattr entry overflows block"⟩
  else if entry.valueBlock ≠ 0 then .error ⟨.eio, "xattr external value blocks are not supported"⟩
  else if entry.valueLen > blockSize then .error ⟨.eio, "xattr value range is out of block bounds"⟩
  else if entry.valueOffset + entry.valueLen > blockSize then
    .error ⟨.eio, "xattr value range is out of block bounds"⟩
  else .ok ()

def nameIndexOnDisk (index : Nat) : Except Error XattrNameIndex :=
  match XattrNameIndex.tryFrom index with
  | some index => .ok index
  | none => .error ⟨.eio, "invalid xattr name index on disk"⟩

def terminatorMissing : Error := ⟨.eio, "xattr entry terminator is missing"⟩

/-- The loop of `validate_block`. An entry is not shorter than its header, so the turns do not
run out before the block does. -/
def validateFrom (block : Block) : Nat → Nat → Except Error Unit
  | 0, _ => .error terminatorMissing
  | turns + 1, offset =>
    if offset + xattrTerminatorSize > blockSize then .error terminatorMissing
    else do
      let marker ← block.readBytes offset 4
      if ofLe marker = 0 then return ()
      else
        let entry := XattrEntry.ofBytes (← block.readBytes offset xattrEntryHeaderSize)
        let _ ← nameIndexOnDisk entry.nameIndex
        validateEntry entry offset
        validateFrom block turns (offset + xattrEntryLen entry.nameLen)

def validateBlock (block : Block) : Except Error Unit := do
  validateHeader block
  validateFrom block blockSize xattrHeaderSize

def sortedAfter (entries : List XattrEntryData) (key : XattrKey) : Bool :=
  match entries.getLast? with
  | some previous => cmpEntryKey previous.1 key == .lt
  | none => true

def parseFrom (block : Block) : Nat → Nat → List XattrEntryData → Except Error (List XattrEntryData)
  | 0, _, _ => .error terminatorMissing
  | turns + 1, offset, entries =>
    if offset + xattrTerminatorSize > blockSize then .error terminatorMissing
    else do
      let marker ← block.readBytes offset 4
      if ofLe marker = 0 then return entries
      else
        let entry := XattrEntry.ofBytes (← block.readBytes offset xattrEntryHeaderSize)
        let nameIndex ← nameIndexOnDisk entry.nameIndex
        validateEntry entry offset
        let name ← block.readBytes (offset + xattrEntryHeaderSize) entry.nameLen
        if !sortedAfter entries ⟨nameIndex, name⟩ then
          .error ⟨.eio, "xattr entries are not strictly sorted"⟩
        else
          let value ← readValue block entry
          parseFrom block turns (offset + xattrEntryLen entry.nameLen) (entries ++ [(⟨nameIndex, name⟩, value)])

def parseEntriesFromBlock (block : Block) : Except Error (List XattrEntryData) :=
  parseFrom block blockSize xattrHeaderSize []

abbrev Device := Nat → Block

abbrev BlockNo := { bid : Nat // bid ≠ 0 }

structure XattrCache where
  blockBuf : Option Block
  entries : List XattrEntryData
  bid : Nat
  dirty : Bool

namespace XattrCache

def new (bid : Nat) : XattrCache := ⟨none, [], bid, false⟩

def findFrom (key : XattrKey) : List XattrEntryData → Nat → Option Nat × Nat
  | [], idx => (none, idx)
  | entry :: entries, idx =>
    match cmpEntryKey entry.1 key with
    | .lt => findFrom key entries (idx + 1)
    | .eq => (some idx, idx)
    | .gt => (none, idx)

def findEntryPosition (entries : List XattrEntryData) (key : XattrKey) : Option Nat × Nat :=
  findFrom key entries 0

def load (cache : XattrCache) (device : Device) : Except Error XattrCache :=
  if cache.blockBuf.isSome then .ok cache
  else if cache.bid = 0 then .ok cache
  else do
    let blockBuf := device cache.bid
    validateBlock blockBuf
    let entries ← parseEntriesFromBlock blockBuf
    return { cache with entries := entries, blockBuf := some blockBuf }

/-- With what `Ext2::alloc_blocks` has returned. -/
def allocBlock (cache : XattrCache) (found : Except Error BlockNo) : Except Error Unit × XattrCache :=
  match found with
  | .error error => (.error error, cache)
  | .ok bid => (.ok (), { cache with bid := bid, blockBuf := some (cache.blockBuf.getD zeroBlock) })

def place (entries : List XattrEntryData) (position : Option Nat × Nat) (key : XattrKey) (value : List UInt8) :
    List XattrEntryData :=
  match position.1 with
  | some idx => entries.set idx (key, value)
  | none => entries.insertIdx position.2 (key, value)

def refusal (found : Option Nat) (flags : XattrSetFlags) : Option Error :=
  if found.isSome then
    if flags.createOnly then some ⟨.eexist, "the target xattr already exists"⟩ else none
  else if flags.replaceOnly then some ⟨.enodata, "the target xattr does not exist"⟩
  else none

def setEntry (cache : XattrCache) (device : Device) (key : XattrKey) (value : List UInt8) (flags : XattrSetFlags)
    (found : Except Error BlockNo) : Except Error Unit × XattrCache :=
  match cache.load device with
  | .error error => (.error error, cache)
  | .ok cache =>
    let position := findEntryPosition cache.entries key
    match refusal position.1 flags with
    | some error => (.error error, cache)
    | none =>
      let cache := { cache with entries := place cache.entries position key value }
      if cache.bid = 0 then
        match cache.allocBlock found with
        | (.error error, cache) => (.error error, cache)
        | (.ok (), cache) => (.ok (), { cache with dirty := true })
      else (.ok (), { cache with dirty := true })

def getEntry (cache : XattrCache) (device : Device) (key : XattrKey) (avail : Nat) :
    Except Error (Nat × List UInt8) × XattrCache :=
  match cache.load device with
  | .error error => (.error error, cache)
  | .ok cache =>
    match (findEntryPosition cache.entries key).1.bind (cache.entries[·]?) with
    | none => (.error ⟨.enodata, "the target xattr does not exist"⟩, cache)
    | some (_, value) =>
      if avail = 0 then (.ok (value.length, []), cache)
      else if value.length > avail then (.error ⟨.erange, "the xattr value buffer is too small"⟩, cache)
      else (.ok (value.length, value), cache)

def freeAndInvalidate (_ : XattrCache) : XattrCache := ⟨none, [], 0, false⟩

def removeEntry (cache : XattrCache) (device : Device) (key : XattrKey) : Except Error Unit × XattrCache :=
  match cache.load device with
  | .error error => (.error error, cache)
  | .ok cache =>
    match (findEntryPosition cache.entries key).1 with
    | none => (.error ⟨.enodata, "the target xattr does not exist"⟩, cache)
    | some idx =>
      let cache := { cache with entries := cache.entries.eraseIdx idx }
      if cache.entries.isEmpty then (.ok (), cache.freeAndInvalidate)
      else (.ok (), { cache with dirty := true })

def listed (entry : XattrEntryData) : List UInt8 := entry.1.nameIndex.prefixBytes ++ entry.1.name ++ [0]

def visible (namespace_ : XattrNamespace) (entry : XattrEntryData) : Bool :=
  !(namespace_ = .user && entry.1.nameIndex.namespaceOf ≠ .user)

def listFrom (bufferSize : Nat) : List XattrEntryData → Nat → Nat → List UInt8 →
    Except Error (Nat × Nat × List UInt8)
  | [], total, remaining, written => .ok (total, remaining, written)
  | entry :: entries, total, remaining, written =>
    let size := (listed entry).length
    if bufferSize > 0 then
      if size > remaining then .error ⟨.erange, "the xattr list buffer is too small"⟩
      else listFrom bufferSize entries (total + size) (remaining - size) (written ++ listed entry)
    else listFrom bufferSize entries (total + size) remaining written

def listEntries (cache : XattrCache) (device : Device) (namespace_ : XattrNamespace) (bufferSize : Nat) :
    Except Error (Nat × List UInt8) × XattrCache :=
  match cache.load device with
  | .error error => (.error error, cache)
  | .ok cache =>
    match listFrom bufferSize (cache.entries.filter (visible namespace_)) 0 bufferSize [] with
    | .error error => (.error error, cache)
    | .ok (total, remaining, written) =>
      (.ok (if bufferSize > 0 then bufferSize - remaining else total, written), cache)

def flush (cache : XattrCache) (device : Device) : Except Error Unit × XattrCache × Device :=
  if !cache.dirty then (.ok (), cache, device)
  else if cache.bid = 0 then (.ok (), { cache with dirty := false }, device)
  else
    match writeEntriesToSegment cache.entries with
    | .error error => (.error error, cache, device)
    | .ok block =>
      (.ok (), { cache with dirty := false, blockBuf := some block },
        fun bid => if bid = cache.bid then block else device bid)

end XattrCache

def parseTargetName (name : XattrName) : Except Error XattrKey := do
  let nameIndex := XattrNameIndex.ofNamespace name.namespace_
  let stripped ← nameIndex.stripPrefix name.fullName
  if stripped.length > 255 then .error ⟨.erange, "xattr name is too long"⟩
  else return ⟨nameIndex, stripped⟩

/-- An inode's attributes, the block number in its descriptor, and the device. -/
structure Inode where
  xattr : XattrCache
  fileAcl : Nat
  device : Device

namespace Inode

def new (device : Device) : Inode := ⟨.new 0, 0, device⟩

def setXattr (inode : Inode) (name : XattrName) (value : List UInt8) (flags : XattrSetFlags)
    (found : Except Error BlockNo) : Except Error Unit × Inode :=
  match parseTargetName name with
  | .error error => (.error error, inode)
  | .ok key =>
    if value.length > blockSize then (.error ⟨.erange, "xattr value is too large"⟩, inode)
    else
      match inode.xattr.setEntry inode.device key value flags found with
      | (.error error, xattr) => (.error error, { inode with xattr := xattr })
      | (.ok (), xattr) => (.ok (), { inode with xattr := xattr, fileAcl := xattr.bid })

def removeXattr (inode : Inode) (name : XattrName) : Except Error Unit × Inode :=
  match parseTargetName name with
  | .error error => (.error error, inode)
  | .ok key =>
    match inode.xattr.removeEntry inode.device key with
    | (.error error, xattr) => (.error error, { inode with xattr := xattr })
    | (.ok (), xattr) => (.ok (), { inode with xattr := xattr, fileAcl := xattr.bid })

def getXattr (inode : Inode) (name : XattrName) (avail : Nat) : Except Error (Nat × List UInt8) × Inode :=
  match parseTargetName name with
  | .error error => (.error error, inode)
  | .ok key =>
    let (result, xattr) := inode.xattr.getEntry inode.device key avail
    (result, { inode with xattr := xattr })

def listXattr (inode : Inode) (namespace_ : XattrNamespace) (bufferSize : Nat) :
    Except Error (Nat × List UInt8) × Inode :=
  let (result, xattr) := inode.xattr.listEntries inode.device namespace_ bufferSize
  (result, { inode with xattr := xattr })

def flush (inode : Inode) : Except Error Unit × Inode :=
  let (result, xattr, device) := inode.xattr.flush inode.device
  (result, { inode with xattr := xattr, device := device })

/-- The inode is written back and dropped, and read again through its descriptor. It stays in
memory if it cannot be written back. -/
def evictAndReload (inode : Inode) : Except Error Unit × Inode :=
  match inode.flush with
  | (.error error, inode) => (.error error, inode)
  | (.ok (), inode) => (.ok (), { inode with xattr := .new inode.fileAcl })

end Inode

end Kei.Ext2
