import Kei.Library.Checked
import Mathlib.Data.BitVec

/-! The driver's side of a virtqueue. The descriptor table and the two rings are in memory that
the device can write to at any time; the links and the lengths that the driver relies on are kept
in slots of its own. -/

namespace Kei.Virtio

open Library Checked

structure DmaBuf where
  daddr : BitVec 64
  len : Nat
  deriving DecidableEq, Repr

structure Descriptor where
  addr : BitVec 64
  len : BitVec 32
  flags : BitVec 16
  next : BitVec 16
  deriving DecidableEq, Repr

structure UsedElem where
  id : BitVec 32
  len : BitVec 32
  deriving DecidableEq, Repr

def DescFlags.next : BitVec 16 := 1

def DescFlags.write : BitVec 16 := 2

/-- What the driver keeps for a descriptor: its successor in the free list or in its chain, and on
the head of a chain in use how many bytes the device may write. -/
structure DescriptorSlot where
  next : Option Nat
  len : Option Nat
  deriving DecidableEq, Repr

/-- The memory shared with the device; the rings have as many slots as the device expects. -/
structure Shared where
  table : List Descriptor
  availRing : List Nat
  availIdx : BitVec 16
  usedRing : List UsedElem
  usedIdx : BitVec 16
  deriving DecidableEq, Repr

structure VirtQueue where
  descs : List DescriptorSlot
  deviceQueueSize : Nat
  numUsed : Nat
  freeHead : Option Nat
  availIdx : BitVec 16
  lastUsedIdx : BitVec 16
  shared : Shared
  deriving DecidableEq, Repr

inductive AddBufsError
  | invalidArgs
  | bufferTooSmall
  deriving DecidableEq, Repr

inductive PopUsedError
  | notReady
  deriving DecidableEq, Repr

def amend (table : List Descriptor) (position : Nat) (change : Descriptor → Descriptor) :
    Checked (List Descriptor) := do
  let desc ← index table position
  store table position (change desc)

def setDmaBuf (table : List Descriptor) (position : Nat) (buf : DmaBuf) : Checked (Nat × List Descriptor) := do
  assert (buf.len < 2 ^ 32 - 1)
  assert (buf.len != 0)
  let table ← amend table position ({ · with addr := buf.daddr, len := BitVec.ofNat 32 buf.len })
  return (buf.len, table)

def setNext (table : List Descriptor) (position : Nat) : Option Nat → Checked (List Descriptor)
  | some next => amend table position ({ · with next := BitVec.ofNat 16 next })
  | none => pure table

structure Offer where
  table : List Descriptor
  last : Option Nat
  current : Option Nat
  deriving DecidableEq, Repr

def Offer.next (descs : List DescriptorSlot) (flags : BitVec 16) (offer : Offer) (buf : DmaBuf) :
    Checked (Nat × Offer) := do
  let current ← unwrap offer.current
  let desc ← index descs current
  let (len, table) ← setDmaBuf offer.table current buf
  let table ← amend table current ({ · with flags := flags })
  let table ← setNext table current desc.next
  return (len, ⟨table, offer.current, desc.next⟩)

def Offer.input (descs : List DescriptorSlot) (offer : Offer) (buf : DmaBuf) : Checked Offer := do
  return (← offer.next descs DescFlags.next buf).2

def Offer.inputs (descs : List DescriptorSlot) (offer : Offer) (bufs : List DmaBuf) : Checked Offer :=
  bufs.foldlM (input descs) offer

/-- With the length of the buffers offered so far goes the offer itself. -/
def Offer.output (descs : List DescriptorSlot) (state : Nat × Offer) (buf : DmaBuf) : Checked (Nat × Offer) := do
  let (len, offer) ← state.2.next descs (DescFlags.next ||| DescFlags.write) buf
  return (← add (2 ^ 32 - 1) state.1 len, offer)

def Offer.outputs (descs : List DescriptorSlot) (start : Nat × Offer) (bufs : List DmaBuf) : Checked (Nat × Offer) :=
  bufs.foldlM (output descs) start

namespace VirtQueue

def newDescs (size : Nat) : List DescriptorSlot :=
  (List.range (size - 1)).foldl
    (fun descs i => descs.modify i ({ · with next := some (i + 1) }) ++ [⟨none, none⟩]) [⟨none, none⟩]

def new (size deviceQueueSize : Nat) (shared : Shared) : VirtQueue where
  descs := newDescs size
  deviceQueueSize := deviceQueueSize
  numUsed := 0
  freeHead := some 0
  availIdx := 0
  lastUsedIdx := 0
  shared := shared

def availableDesc (queue : VirtQueue) : Checked Nat := sub queue.descs.length queue.numUsed

def detach (queue : VirtQueue) (head last : Nat) (table : List Descriptor) (count outputLen : Nat) :
    Checked VirtQueue := do
  let desc ← index queue.descs last
  let descs ← store queue.descs last { desc with next := none }
  let table ← amend table last (fun desc => { desc with flags := desc.flags &&& ~~~DescFlags.next })
  let numUsed ← add (2 ^ 16 - 1) queue.numUsed count
  let first ← index descs head
  let descs ← store descs head { first with len := some outputLen }
  return { queue with
    descs := descs
    freeHead := desc.next
    numUsed := numUsed
    shared := { queue.shared with table := table } }

def offerHead (queue : VirtQueue) (head : Nat) : Checked VirtQueue := do
  let mask ← sub queue.deviceQueueSize 1
  let availRing ← store queue.shared.availRing (queue.availIdx.toNat &&& mask) head
  let availIdx := queue.availIdx + 1
  return { queue with
    availIdx := availIdx
    shared := { queue.shared with availRing := availRing, availIdx := availIdx } }

def addDmaBufs (queue : VirtQueue) (inputs outputs : List DmaBuf) :
    Checked (Except AddBufsError Nat × VirtQueue) := do
  if inputs.isEmpty && outputs.isEmpty then return (.error .invalidArgs, queue)
  if inputs.length + outputs.length > (← queue.availableDesc) then return (.error .bufferTooSmall, queue)
  let head ← unwrap queue.freeHead
  let offer ← Offer.inputs queue.descs ⟨queue.shared.table, queue.freeHead, queue.freeHead⟩ inputs
  let (outputLen, offer) ← Offer.outputs queue.descs (0, offer) outputs
  let last ← unwrap offer.last
  let queue ← queue.detach head last offer.table (inputs.length + outputs.length) outputLen
  let queue ← queue.offerHead head
  return (.ok head, queue)

def addInputBufs (queue : VirtQueue) (inputs : List DmaBuf) : Checked (Except AddBufsError Nat × VirtQueue) :=
  queue.addDmaBufs inputs []

def addOutputBufs (queue : VirtQueue) (outputs : List DmaBuf) : Checked (Except AddBufsError Nat × VirtQueue) :=
  queue.addDmaBufs [] outputs

def canPop (queue : VirtQueue) : Bool := queue.lastUsedIdx != queue.shared.usedIdx

/-- The loop of `recycle_descriptors`, which ends at a descriptor without a successor. -/
def recycle (originFreeHead : Option Nat) : Nat → VirtQueue → Nat → Checked VirtQueue
  | 0, _, _ => .error .hang
  | turns + 1, queue, head => do
    let desc ← index queue.descs head
    let table ← amend queue.shared.table head ({ · with addr := 0, len := 0 })
    let numUsed ← sub queue.numUsed 1
    let queue := { queue with numUsed := numUsed, shared := { queue.shared with table := table } }
    match desc.next with
    | some next => recycle originFreeHead turns queue next
    | none => return { queue with descs := ← store queue.descs head { desc with next := originFreeHead } }

def recycleDescriptors (turns : Nat) (queue : VirtQueue) (head : Nat) : Checked VirtQueue :=
  recycle queue.freeHead turns { queue with freeHead := some head } head

def usedElem (queue : VirtQueue) : Checked UsedElem := do
  let mask ← sub queue.deviceQueueSize 1
  index queue.shared.usedRing (queue.lastUsedIdx.toNat &&& mask)

def inUse (queue : VirtQueue) (index : Nat) : Option (DescriptorSlot × Nat) := do
  let desc ← queue.descs[index]?
  let dmaLen ← desc.len
  pure (desc, dmaLen)

/-- The loop of `pop_used_with_min_bytes`; `limit` bounds the loop over a chain. -/
def popFrom (limit minBytes : Nat) : Nat → VirtQueue → Checked (Except PopUsedError (Nat × Nat) × VirtQueue)
  | 0, _ => .error .hang
  | turns + 1, queue => do
    if !queue.canPop then return (.error .notReady, queue)
    let element ← queue.usedElem
    let index := element.id.toNat
    let len := element.len.toNat
    let queue := { queue with lastUsedIdx := queue.lastUsedIdx + 1 }
    match queue.inUse index with
    | some (desc, dmaLen) =>
      if len > dmaLen || len < minBytes then popFrom limit minBytes turns queue
      else
        let queue := { queue with descs := queue.descs.set index { desc with len := none } }
        let token := index % 2 ^ 16
        return (.ok (token, len), ← queue.recycleDescriptors limit token)
    | none => popFrom limit minBytes turns queue

def popUsedWithMinBytes (turns : Nat) (queue : VirtQueue) (minBytes : Nat) :
    Checked (Except PopUsedError (Nat × Nat) × VirtQueue) :=
  queue.popFrom turns minBytes turns

end VirtQueue

end Kei.Virtio
