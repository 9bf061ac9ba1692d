import Kei.SecureDisk.LsmTree

/-! The secure disk: a buffer of data blocks in front of a tree that maps logical block
addresses to encrypted host blocks. Which host block an allocation returns and which key
is drawn for a block is left to the environment, whatever blocks were freed before. -/

namespace Kei.SecureDisk

open Library Checked

inductive Errno
  | notFound
  | outOfDisk
  | decryptFailed
  deriving DecidableEq, Repr

/-- Ideal authenticated encryption of blocks: what was encrypted decrypts to itself, and the
code made for a block under a key verifies no other cipher text under that key. -/
structure Aead (β Key Mac Cipher : Type) where
  encrypt : β → Key → Cipher × Mac
  decrypt : Cipher → Key → Mac → Option β
  decrypt_encrypt : ∀ block key, decrypt (encrypt block key).1 key (encrypt block key).2 = some block
  authentic : ∀ block key cipher other, decrypt cipher key (encrypt block key).2 = some other →
    cipher = (encrypt block key).1

structure Environment (Key : Type) where
  hba : Nat → Nat
  key : Nat → Key

structure RecordValue (Key Mac : Type) where
  hba : Nat
  key : Key
  mac : Mac

structure DataBuf (β : Type) where
  buf : SortedMap Nat β
  cap : Nat
  isFull : Bool

namespace DataBuf

variable {β : Type}

def new (cap : Nat) : DataBuf β := ⟨.empty, cap, false⟩

def get (buf : DataBuf β) (key : Nat) : Option β := buf.buf.get key

def getRange (buf : DataBuf β) (range : Nat × Nat) : List (Nat × β) :=
  buf.buf.entries.filter fun entry => range.1 ≤ entry.1 && entry.1 ≤ range.2

/-- Put a block into the buffer, with whether the buffer is full now. A full buffer would
first be waited for; between requests none is. -/
def put (buf : DataBuf β) (key : Nat) (block : β) : Checked (DataBuf β × Bool) := do
  assert !buf.isFull
  let blocks := buf.buf.insert key block
  let isFull := decide (buf.cap ≤ blocks.size)
  .ok ({ buf with buf := blocks, isFull := isFull }, isFull)

def isEmpty (buf : DataBuf β) : Bool := buf.buf.size == 0

def clear (buf : DataBuf β) : DataBuf β := { buf with buf := .empty, isFull := false }

def allBlocks (buf : DataBuf β) : List (Nat × β) := buf.buf.entries

end DataBuf

abbrev BufMutVec (β : Type) := List (List β)

namespace BufMutVec

variable {β : Type}

def nblocks (bufs : BufMutVec β) : Nat := (bufs.map List.length).sum

/-- Copy a block over the n-th one of the buffers. Behind the last one there is only an
empty slice, which no block fits. -/
def setNth : BufMutVec β → Nat → β → Checked (BufMutVec β)
  | [], _, _ => .error .sliceOutOfRange
  | buf :: rest, nth, block =>
    if buf.length ≤ nth then do
      let rest ← setNth rest (nth - buf.length) block
      .ok (buf :: rest)
    else .ok (buf.set nth block :: rest)

end BufMutVec

structure MlsDisk (β Key Mac Cipher : Type) where
  nblocks : Nat
  userDataDisk : Nat → Cipher
  logicalBlockTable : TxLsmTree (RecordValue Key Mac)
  dataBuf : DataBuf β
  allocated : Nat

def dataBufCap : Nat := 1024

namespace MlsDisk

variable {β Key Mac Cipher : Type}

def create (nblocks : Nat) (device : Nat → Cipher) : MlsDisk β Key Mac Cipher where
  nblocks := nblocks
  userDataDisk := device
  logicalBlockTable := .format memtableCapacity
  dataBuf := .new dataBufCap
  allocated := 0

structure Slot (β Key : Type) where
  lba : Nat
  block : β
  hba : Nat
  key : Key

section

variable (aead : Aead β Key Mac Cipher) (environment : Environment Key)

variable (disk : MlsDisk β Key Mac Cipher)

def slots : List (Slot β Key) :=
  (disk.dataBuf.allBlocks.zipIdx disk.allocated).map fun entry =>
    ⟨entry.1.1, entry.1.2, environment.hba entry.2, environment.key entry.2⟩

def writeBatch (device : Nat → Cipher) (batch : List (Slot β Key)) : Nat → Cipher :=
  match batch with
  | [] => device
  | first :: _ => fun hba =>
    if first.hba ≤ hba then
      ((batch.map fun slot => (aead.encrypt slot.block slot.key).1)[hba - first.hba]?).getD (device hba)
    else device hba

def writeBlocksFromDataBuf : MlsDisk β Key Mac Cipher × List (Nat × RecordValue Key Mac) :=
  let slots := disk.slots environment
  let batches := slots.splitBy fun left right => right.hba - left.hba == 1
  ({ disk with
      userDataDisk := batches.foldl (writeBatch aead) disk.userDataDisk
      allocated := disk.allocated + slots.length },
    slots.map fun slot => (slot.lba, ⟨slot.hba, slot.key, (aead.encrypt slot.block slot.key).2⟩))

def flushDataBuf : Checked (MlsDisk β Key Mac Cipher) := do
  let (disk, records) := disk.writeBlocksFromDataBuf aead environment
  let tree ← records.foldlM (fun tree record => tree.put record.1 record.2) disk.logicalBlockTable
  .ok { disk with logicalBlockTable := tree, dataBuf := disk.dataBuf.clear }

def flushIfFull (atCapacity : Bool) : Checked (MlsDisk β Key Mac Cipher) :=
  if atCapacity then disk.flushDataBuf aead environment else .ok disk

def writeBlocks : Nat → List β → MlsDisk β Key Mac Cipher → Checked (MlsDisk β Key Mac Cipher)
  | _, [], disk => .ok disk
  | lba, block :: rest, disk => do
    let (dataBuf, atCapacity) ← disk.dataBuf.put lba block
    let disk ← flushIfFull aead environment { disk with dataBuf := dataBuf } atCapacity
    writeBlocks (lba + 1) rest disk

def writevBlocks : Nat → List (List β) → MlsDisk β Key Mac Cipher → Checked (MlsDisk β Key Mac Cipher)
  | _, [], disk => .ok disk
  | lba, buf :: rest, disk => do
    let disk ← writeBlocks aead environment lba buf disk
    writevBlocks (lba + buf.length) rest disk

def checkRwArgs (lba nblocks : Nat) : Except Errno Unit :=
  if disk.nblocks < lba + nblocks then .error .outOfDisk else .ok ()

def write (lba : Nat) (buf : List β) : Checked (MlsDisk β Key Mac Cipher × Except Errno Unit) :=
  match disk.checkRwArgs lba buf.length with
  | .error errno => .ok (disk, .error errno)
  | .ok () => do
    let disk ← writeBlocks aead environment lba buf disk
    .ok (disk, .ok ())

def writev (lba : Nat) (bufs : List (List β)) : Checked (MlsDisk β Key Mac Cipher × Except Errno Unit) :=
  match disk.checkRwArgs lba (BufMutVec.nblocks bufs) with
  | .error errno => .ok (disk, .error errno)
  | .ok () => do
    let disk ← writevBlocks aead environment lba bufs disk
    .ok (disk, .ok ())

def sync : Checked (MlsDisk β Key Mac Cipher) := do
  let disk ← disk.flushDataBuf aead environment
  assert disk.dataBuf.isEmpty
  let tree ← disk.logicalBlockTable.sync
  .ok { disk with logicalBlockTable := tree }

def readOneBlock (lba : Nat) (buf : List β) : Checked (Except Errno Unit × List β) := do
  assert (buf.length == 1)
  match disk.dataBuf.get lba with
  | some block => .ok (.ok (), [block])
  | none =>
    match ← disk.logicalBlockTable.get lba with
    | none => .ok (.error .notFound, buf)
    | some value =>
      match aead.decrypt (disk.userDataDisk value.hba) value.key value.mac with
      | none => .ok (.error .decryptFailed, buf)
      | some block => .ok (.ok (), [block])

def copyBuffered (lba : Nat) : List (Nat × β) → BufMutVec β → RangeQueryCtx (RecordValue Key Mac) →
    Checked (BufMutVec β × RangeQueryCtx (RecordValue Key Mac))
  | [], bufs, ctx => .ok (bufs, ctx)
  | (key, block) :: rest, bufs, ctx => do
    let nth ← sub key lba
    let bufs ← bufs.setNth nth block
    let ctx ← ctx.markCompleted key
    copyBuffered lba rest bufs ctx

/-- The records of a batch, each with the cipher text at its place in what one read of
consecutive host blocks returns. -/
def readBatch (batch : List (Nat × RecordValue Key Mac)) : List ((Nat × RecordValue Key Mac) × Cipher) :=
  match batch with
  | [] => []
  | first :: _ => batch.zipIdx.map fun entry => (entry.1, disk.userDataDisk (first.2.hba + entry.2))

def decryptRecords (lba : Nat) : List ((Nat × RecordValue Key Mac) × Cipher) → BufMutVec β →
    Checked (Except Errno Unit × BufMutVec β)
  | [], bufs => .ok (.ok (), bufs)
  | ((key, value), cipher) :: rest, bufs =>
    match aead.decrypt cipher value.key value.mac with
    | none => .ok (.error .decryptFailed, bufs)
    | some block => do
      let nth ← sub key lba
      let bufs ← bufs.setNth nth block
      decryptRecords lba rest bufs

def readRecords (results : List (Nat × RecordValue Key Mac)) : List ((Nat × RecordValue Key Mac) × Cipher) :=
  let sorted := results.mergeSort fun left right => left.2.hba ≤ right.2.hba
  (sorted.splitBy fun left right => right.2.hba - left.2.hba == 1).flatMap disk.readBatch

def readMultiBlocks (lba : Nat) (bufs : BufMutVec β) : Checked (Except Errno Unit × BufMutVec β) := do
  assert !bufs.isEmpty
  let ctx : RangeQueryCtx (RecordValue Key Mac) := .new lba bufs.nblocks
  let range ← unwrap (← ctx.rangeUncompleted)
  let (bufs, ctx) ← copyBuffered lba (disk.dataBuf.getRange range) bufs ctx
  if ctx.isCompleted then .ok (.ok (), bufs)
  else do
    let (ctx, found) ← disk.logicalBlockTable.getRange ctx
    if found then do
      let results ← ctx.intoResults
      decryptRecords aead lba (disk.readRecords results) bufs
    else .ok (.error .notFound, bufs)

def allowEmpty : Except Errno Unit → Except Errno Unit
  | .error .notFound => .ok ()
  | result => result

def read (lba : Nat) (buf : List β) : Checked (Except Errno Unit × List β) :=
  match disk.checkRwArgs lba buf.length with
  | .error errno => .ok (.error errno, buf)
  | .ok () => do
    if buf.length = 1 then do
      let (result, buf) ← disk.readOneBlock aead lba buf
      .ok (allowEmpty result, buf)
    else do
      let (result, bufs) ← disk.readMultiBlocks aead lba [buf]
      .ok (allowEmpty result, bufs.flatten)

def readv (lba : Nat) (bufs : BufMutVec β) : Checked (Except Errno Unit × BufMutVec β) :=
  match disk.checkRwArgs lba bufs.nblocks with
  | .error errno => .ok (.error errno, bufs)
  | .ok () => do
    let (result, bufs) ← disk.readMultiBlocks aead lba bufs
    .ok (allowEmpty result, bufs)

end

/-! ### Runs -/

/-- The requests that change a disk, and a turn of its compaction thread. -/
inductive Event (β : Type)
  | write (lba : Nat) (buf : List β)
  | writev (lba : Nat) (bufs : List (List β))
  | sync
  | compact

def step (aead : Aead β Key Mac Cipher) (environment : Environment Key)
    (disk : MlsDisk β Key Mac Cipher) : Event β → Checked (MlsDisk β Key Mac Cipher)
  | .write lba buf => do
    let (disk, _) ← disk.write aead environment lba buf
    .ok disk
  | .writev lba bufs => do
    let (disk, _) ← disk.writev aead environment lba bufs
    .ok disk
  | .sync => disk.sync aead environment
  | .compact => do
    let tree ← disk.logicalBlockTable.compact
    .ok { disk with logicalBlockTable := tree }

def run (aead : Aead β Key Mac Cipher) (environment : Environment Key) (events : List (Event β))
    (disk : MlsDisk β Key Mac Cipher) : Checked (MlsDisk β Key Mac Cipher) :=
  events.foldlM (fun disk event => disk.step aead environment event) disk

def written (lba : Nat) (blocks : List β) (contents : Nat → Option β) (place : Nat) : Option β :=
  if lba ≤ place then (blocks[place - lba]?).or (contents place) else contents place

/-- The most recent write of each block, for a disk of the given size: a request beyond its
end writes nothing. -/
def latest (nblocks : Nat) (contents : Nat → Option β) : Event β → Nat → Option β
  | .write lba buf => if nblocks < lba + buf.length then contents else written lba buf contents
  | .writev lba bufs =>
    if nblocks < lba + BufMutVec.nblocks bufs then contents else written lba bufs.flatten contents
  | .sync => contents
  | .compact => contents

def history (nblocks : Nat) (events : List (Event β)) : Nat → Option β :=
  events.foldl (latest nblocks) fun _ => none

end MlsDisk

end Kei.SecureDisk
