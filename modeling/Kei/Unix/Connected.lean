import Kei.Spsc.RingBuffer

/-! A connected pair of UNIX stream or seqpacket sockets. The payload bytes of a direction are
in a ring buffer; files and credentials are in a queue of their own, each with the range of ring
positions it belongs to. -/

namespace Kei.Unix

open Library Kei.Spsc

inductive Errno
  | eagain
  | epipe
  | emsgsize
  | efault
  deriving DecidableEq, Repr

/-- A user buffer to copy from: the bytes left in it, and how many of them come before a fault. -/
structure UserReader where
  data : List UInt8
  fault : Option Nat
  deriving DecidableEq

/-- A user buffer to copy to: the room left in it, how much of that comes before a fault, and the
bytes that have been copied. -/
structure UserWriter where
  avail : Nat
  fault : Option Nat
  copied : List UInt8
  deriving DecidableEq

def faultWithin (fault : Option Nat) (len : Nat) : Option Nat := fault.filter (· < len)

/-- `read` of `MultiRead`: the bytes that are copied, and whether a fault has ended the copy. -/
def UserReader.read (reader : UserReader) (room : Nat) : List UInt8 × Bool × UserReader :=
  let len := min reader.data.length room
  let copied := (faultWithin reader.fault len).getD len
  (reader.data.take copied, (faultWithin reader.fault len).isSome,
    ⟨reader.data.drop copied, reader.fault.map (· - copied)⟩)

def UserWriter.advance (writer : UserWriter) (bytes : List UInt8) : UserWriter :=
  ⟨writer.avail - bytes.length, writer.fault.map (· - bytes.length), writer.copied ++ bytes⟩

/-- `write` of `MultiWrite`: fills the buffer or uses up the bytes, up to a fault. -/
def UserWriter.write (writer : UserWriter) (bytes : List UInt8) : Except Errno Nat × UserWriter :=
  let len := min writer.avail bytes.length
  match faultWithin writer.fault len with
  | some before => (.error .efault, writer.advance (bytes.take before))
  | none => (.ok len, writer.advance (bytes.take len))

/-- `write_fallible`: the bytes go to the free slots, in two parts if these go around the end,
and are committed if no fault has ended the copy. -/
def writeFallible (ring : RingBuffer UInt8) (reader : UserReader) :
    Checked (Except Errno Nat × RingBuffer UInt8) := do
  let freeLen ← ring.freeLen
  let offset := ring.offset ring.tail
  if offset + freeLen > ring.capacity then
    let (first, faulted, reader) := reader.read (ring.capacity - offset)
    let ring ← ring.writeSlice offset first
    if faulted then return (.error .efault, ring)
    let (second, faulted, _) := reader.read (freeLen - (ring.capacity - offset))
    let ring ← ring.writeSlice 0 second
    if faulted then return (.error .efault, ring)
    let writeLen := first.length + second.length
    return (.ok writeLen, ← ring.commitWrite writeLen)
  else
    let (bytes, faulted, _) := reader.read freeLen
    let ring ← ring.writeSlice offset bytes
    if faulted then return (.error .efault, ring)
    return (.ok bytes.length, ← ring.commitWrite bytes.length)

def pickFallible (ring : RingBuffer UInt8) (start stop : BitVec 64) (writer : UserWriter) :
    Checked (Except Errno Nat × UserWriter) := do
  let len := (stop - start).toNat
  let offset := ring.offset start
  if offset + len > ring.capacity then
    let first ← ring.readSlice offset (ring.capacity - offset)
    match writer.write first with
    | (.error errno, writer) => return (.error errno, writer)
    | (.ok readLen, writer) =>
      let second ← ring.readSlice 0 (len - (ring.capacity - offset))
      match writer.write second with
      | (.error errno, writer) => return (.error errno, writer)
      | (.ok more, writer) => return (.ok (readLen + more), writer)
  else
    let bytes ← ring.readSlice offset len
    return writer.write bytes

section AuxiliaryData

variable (φ κ : Type)

structure AuxiliaryData where
  files : List φ
  cred : Option κ
  deriving DecidableEq

/-- Without a value the credentials are the overflow ones. -/
inductive ControlMessage
  | cred (cred : Option κ)
  | files (files : List φ)
  deriving DecidableEq

/-- The positions count the bytes that ever went through the ring and wrap. -/
structure RangedAuxiliaryData where
  data : AuxiliaryData φ κ
  start : BitVec 64
  stop : BitVec 64
  deriving DecidableEq

inductive ReceiveBehavior
  | recv
  | peek
  deriving DecidableEq, Repr

end AuxiliaryData

namespace AuxiliaryData

variable {φ κ : Type}

def empty : AuxiliaryData φ κ := ⟨[], none⟩

def fillCred (data : AuxiliaryData φ κ) (current : κ) : AuxiliaryData φ κ :=
  { data with cred := some (data.cred.getD current) }

def generateControl (data : AuxiliaryData φ κ) (behavior : ReceiveBehavior) (isPassCred : Bool) :
    List (ControlMessage φ κ) × AuxiliaryData φ κ :=
  let creds := if isPassCred then [.cred data.cred] else []
  if data.files.isEmpty then (creds, data)
  else (creds ++ [.files data.files], match behavior with
    | .recv => { data with files := [] }
    | .peek => data)

def isEmpty (data : AuxiliaryData φ κ) : Bool := data.files.isEmpty && data.cred.isNone

def isSubsetOf [DecidableEq κ] (data other : AuxiliaryData φ κ) (isPassCred : Bool) : Bool :=
  if !data.files.isEmpty then false
  else if isPassCred && data.cred ≠ other.cred then false
  else true

end AuxiliaryData

/-- One direction of the connection: what the writing end keeps, with the ring that the other end
reads from. -/
structure Channel (φ κ : Type) where
  ring : RingBuffer UInt8
  allAux : List (RangedAuxiliaryData φ κ)
  hasAux : Bool
  isShutdown : Bool

def readWith (isPeerShutdown : Bool) : Except Errno Nat → Except Errno Nat
  | .error errno => .error errno
  | .ok readLen => if readLen > 0 then .ok readLen else if isPeerShutdown then .ok 0 else .error .eagain

def writeWith (isShutdown : Bool) (ring : RingBuffer UInt8) (write : Checked (Except Errno Nat × RingBuffer UInt8)) :
    Checked (Except Errno Nat × RingBuffer UInt8) :=
  if isShutdown then pure (.error .epipe, ring)
  else do
    let (written, ring) ← write
    match written with
    | .error errno => pure (.error errno, ring)
    | .ok writeLen => pure (if writeLen = 0 then .error .eagain else .ok writeLen, ring)

structure Received where
  auxPos : Nat
  readTotLen : Nat
  truncLen : Nat
  writer : UserWriter
  deriving DecidableEq

namespace Channel

variable {φ κ : Type} [DecidableEq κ]

def nextAux (channel : Channel φ κ) (auxPos : Nat) (readStart : BitVec 64) :
    Nat × Option (RangedAuxiliaryData φ κ) :=
  match channel.allAux[auxPos]? with
  | some front =>
    if front.start = readStart then ((front.stop - readStart).toNat, some front)
    else ((front.start - readStart).toNat, none)
  | none => ((channel.ring.tail - readStart).toNat, none)

def continues (channel : Channel φ κ) (isPassCred : Bool) (auxPos : Nat)
    (auxFront : Option (RangedAuxiliaryData φ κ)) : Checked Bool :=
  let next := (auxFront.map (·.data)).getD .empty
  match auxPos, auxFront with
  | prevPos + 1, _ => do
    let prev ← Checked.unwrap channel.allAux[prevPos]?
    pure (prev.data.isSubsetOf next isPassCred)
  | 0, some _ => pure (AuxiliaryData.empty.isSubsetOf next isPassCred)
  | 0, none => pure true

def receive (channel : Channel φ κ) (isSeqpacket isPassCred isEmpty : Bool) (readBase : BitVec 64) :
    Nat → Nat → Nat → UserWriter → Checked (Except Errno Received)
  | 0, _, _, _ => .error .hang
  | turns + 1, auxPos, readTotLen, writer => do
    let readStart := readBase + BitVec.ofNat 64 readTotLen
    let (auxLen, auxFront) := channel.nextAux auxPos readStart
    let isSubset ← if readTotLen > 0 then channel.continues isPassCred auxPos auxFront else pure true
    if !isSubset then return .ok ⟨auxPos, readTotLen, 0, writer⟩
    let (readRes, writer) ← if !isEmpty && (auxLen > 0 || auxFront.isNone) then do
        let (picked, writer) ← pickFallible channel.ring readStart (readStart + BitVec.ofNat 64 auxLen) writer
        pure (readWith channel.isShutdown picked, writer)
      else pure (.ok 0, writer)
    match readRes with
    | .error errno => return if readTotLen > 0 then .ok ⟨auxPos, readTotLen, 0, writer⟩ else .error errno
    | .ok readLen =>
      let readTotLen := readTotLen + readLen
      let auxPos := if auxFront.isSome then auxPos + 1 else auxPos
      if isSeqpacket then
        return .ok ⟨auxPos, readTotLen, if readLen < auxLen then auxLen - readLen else 0, writer⟩
      else if readLen < auxLen then return .ok ⟨auxPos, readTotLen, 0, writer⟩
      else channel.receive isSeqpacket isPassCred isEmpty readBase turns auxPos readTotLen writer

/-- The auxiliary data that the loop has gone through is dropped, the last of it up to where the
loop has come. -/
def consumeAux (channel : Channel φ κ) (readBase : BitVec 64) (auxPos consumeLen : Nat)
    (aux : RangedAuxiliaryData φ κ) : Checked (Channel φ κ) := do
  let allAux := (channel.allAux.set (auxPos - 1) aux).drop (auxPos - 1)
  let front ← Checked.unwrap allAux.head?
  let allAux :=
    if (front.stop - readBase).toNat ≤ consumeLen then allAux.tail
    else { front with start := readBase + BitVec.ofNat 64 consumeLen } :: allAux.tail
  pure { channel with allAux := allAux, hasAux := !allAux.isEmpty }

structure Delivery (φ κ : Type) where
  len : Nat
  ctrlMsgs : List (ControlMessage φ κ)
  writer : UserWriter
  deriving DecidableEq

def finishRead (channel : Channel φ κ) (isSeqpacket isPassCred : Bool) (behavior : ReceiveBehavior)
    (received : Received) : Checked (Except Errno (Delivery φ κ) × Channel φ κ) := do
  let readBase := channel.ring.head
  let consumeTotLen := received.readTotLen + received.truncLen
  let consumed ←
    if behavior = .recv then do pure { channel with ring := ← channel.ring.commitRead consumeTotLen }
    else pure channel
  let (ctrlMsgs, channel) ← if received.auxPos ≥ 1 then do
      let aux ← Checked.unwrap channel.allAux[received.auxPos - 1]?
      Checked.assert ((aux.start - readBase).toNat ≤ received.readTotLen)
      let (ctrlMsgs, data) := aux.data.generateControl behavior isPassCred
      if behavior = .recv then
        pure (ctrlMsgs, ← consumed.consumeAux readBase received.auxPos consumeTotLen { aux with data := data })
      else pure (ctrlMsgs, consumed)
    else pure ((AuxiliaryData.empty.generateControl behavior isPassCred).1, consumed)
  Checked.assert (isSeqpacket || received.readTotLen != 0)
  return (.ok ⟨received.readTotLen, ctrlMsgs, received.writer⟩, channel)

/-- `try_read` of the end that the channel leads to; `turns` bounds the turns of its loop. -/
def tryRead (turns : Nat) (channel : Channel φ κ) (isSeqpacket isPassCred : Bool) (behavior : ReceiveBehavior)
    (writer : UserWriter) : Checked (Except Errno (Delivery φ κ) × Channel φ κ) := do
  let isEmpty := writer.avail == 0
  if isEmpty && !isSeqpacket then
    return (if channel.ring.isEmpty then .error .eagain else .ok ⟨0, [], writer⟩, channel)
  if !channel.hasAux then
    let head := channel.ring.head
    let (picked, writer) ← pickFallible channel.ring head (head + BitVec.ofNat 64 channel.ring.len) writer
    match readWith channel.isShutdown picked with
    | .error errno => return (.error errno, channel)
    | .ok readLen =>
      let ring ← if behavior = .recv then channel.ring.commitRead readLen else pure channel.ring
      let ctrlMsgs := if isPassCred then (AuxiliaryData.empty.generateControl behavior isPassCred).1 else []
      return (.ok ⟨readLen, ctrlMsgs, writer⟩, { channel with ring := ring })
  match ← channel.receive isSeqpacket isPassCred isEmpty channel.ring.head turns 0 0 writer with
  | .error errno => return (.error errno, channel)
  | .ok received => channel.finishRead isSeqpacket isPassCred behavior received

def writePayload (channel : Channel φ κ) (isSeqpacket : Bool) (reader : UserReader) :
    Checked (Except Errno Nat × RingBuffer UInt8) :=
  if reader.data.isEmpty then pure (.ok 0, channel.ring)
  else writeWith channel.isShutdown channel.ring do
    let freeLen ← channel.ring.freeLen
    if isSeqpacket && freeLen < reader.data.length then pure (.ok 0, channel.ring)
    else writeFallible channel.ring reader

/-- `try_write` of the end that keeps the channel. With the result comes what is left of the
auxiliary data; `current` are the credentials of the caller. -/
def tryWrite (bufSize : Nat) (channel : Channel φ κ) (isSeqpacket needPassCred : Bool) (reader : UserReader)
    (auxData : AuxiliaryData φ κ) (current : κ) :
    Checked (Except Errno Nat × AuxiliaryData φ κ × Channel φ κ) := do
  let isEmpty := reader.data.isEmpty
  if isEmpty && channel.isShutdown then return (.error .epipe, auxData, channel)
  if isEmpty && !isSeqpacket then return (.ok 0, auxData, channel)
  if isSeqpacket && reader.data.length ≥ bufSize then return (.error .emsgsize, auxData, channel)
  if auxData.isEmpty && !isSeqpacket && !needPassCred then
    let (writeRes, ring) ← writeWith channel.isShutdown channel.ring (writeFallible channel.ring reader)
    return (writeRes, auxData, { channel with ring := ring })
  let writeStart := channel.ring.tail
  let (writeRes, ring) ← channel.writePayload isSeqpacket reader
  match writeRes with
  | .error errno => return (.error errno, auxData, { channel with ring := ring, hasAux := !channel.allAux.isEmpty })
  | .ok writeLen =>
    let data := if needPassCred then auxData.fillCred current else auxData
    let range : RangedAuxiliaryData φ κ := ⟨data, writeStart, writeStart + BitVec.ofNat 64 writeLen⟩
    return (.ok writeLen, .empty, { channel with ring := ring, allAux := channel.allAux ++ [range], hasAux := true })

end Channel

inductive Side
  | client
  | server
  deriving DecidableEq, Repr

def Side.peer : Side → Side
  | .client => .server
  | .server => .client

structure Connection (φ κ : Type) where
  channel : Side → Channel φ κ
  isPassCred : Side → Bool

inductive Call (φ κ : Type)
  | write (reader : UserReader) (auxData : AuxiliaryData φ κ) (current : κ)
  | read (behavior : ReceiveBehavior) (writer : UserWriter)
  | setPassCred (isPassCred : Bool)
  | shutdown (shutRead shutWrite : Bool)
  | close

inductive Response (φ κ : Type)
  | written (result : Except Errno Nat)
  | delivered (result : Except Errno (Channel.Delivery φ κ))
  | done

namespace Connection

variable {φ κ : Type}

def newPair (ring : RingBuffer UInt8) : Connection φ κ where
  channel _ := ⟨{ ring with head := 0, tail := 0 }, [], false, false⟩
  isPassCred _ := false

def put (connection : Connection φ κ) (side : Side) (channel : Channel φ κ) : Connection φ κ :=
  { connection with channel := Function.update connection.channel side channel }

def shut (connection : Connection φ κ) (side : Side) (isShut : Bool) : Connection φ κ :=
  if isShut then connection.put side { connection.channel side with isShutdown := true } else connection

def perform [DecidableEq κ] (bufSize : Nat) (isSeqpacket : Bool) (turns : Nat) (connection : Connection φ κ)
    (side : Side) : Call φ κ → Checked (Response φ κ × Connection φ κ)
  | .write reader auxData current => do
    let needPassCred := connection.isPassCred side || connection.isPassCred side.peer
    let (result, _, channel) ←
      (connection.channel side).tryWrite bufSize isSeqpacket needPassCred reader auxData current
    return (.written result, connection.put side channel)
  | .read behavior writer => do
    let (result, channel) ← (connection.channel side.peer).tryRead turns isSeqpacket (connection.isPassCred side)
      behavior writer
    return (.delivered result, connection.put side.peer channel)
  | .setPassCred isPassCred =>
    return (.done, { connection with isPassCred := Function.update connection.isPassCred side isPassCred })
  | .shutdown shutRead shutWrite =>
    return (.done, (connection.shut side.peer shutRead).shut side shutWrite)
  | .close => return (.done, (connection.shut side true).shut side.peer true)

end Connection

end Kei.Unix
