import Kei.FrameAllocator.BuddySet
import Mathlib.Data.Fintype.Sum
import Mathlib.Data.Fintype.Prod
import Mathlib.Tactic.DeriveFintype

/-! The pools of free chunks, one of each CPU and the global one, the caches of small
segments in front of them, and the allocator on top. Every call runs on one CPU with
interrupts disabled. -/

namespace Kei.FrameAllocator

open Library Function

/-- Rust keeps the alignment a power of two, and the callers of the allocator ask for whole pages. -/
structure Layout where
  size : Nat
  align : Nat
  pages : pageSize ∣ size
  power : ∃ exponent, align = 2 ^ exponent

theorem pageSize_power : ∃ exponent, pageSize = 2 ^ exponent := ⟨12, rfl⟩

def maxBuddyOrder : Nat := 32

def maxLocalBuddyOrder : Nat := 18

inductive PoolId (cpus : Nat)
  | ofCpu (cpu : Fin cpus)
  | global
  deriving DecidableEq, Fintype

namespace PoolId

def maxOrder {cpus : Nat} : PoolId cpus → Nat
  | .ofCpu _ => maxLocalBuddyOrder
  | .global => maxBuddyOrder

end PoolId

structure Session (cpus : Nat) where
  slots : Slots
  sets : (pool : PoolId cpus) → BuddySet pool.maxOrder
  locked : Bool

namespace Session

variable {cpus : Nat}

def insertChunk (session : Session cpus) (pool : PoolId cpus) (addr order : Nat) : Checked (Session cpus) := do
  let (slots, set) ← BuddySet.insertChunk session.slots (session.sets pool) addr order
  return ⟨slots, update session.sets pool set, session.locked || pool == .global⟩

def allocChunk (session : Session cpus) (pool : PoolId cpus) (order : Nat) :
    Checked (Session cpus × Option Nat) := do
  let (slots, set, result) ← BuddySet.allocChunk session.slots (session.sets pool) order
  return (⟨slots, update session.sets pool set, session.locked || pool == .global⟩, result)

/-- The size of the global pool if it is locked, otherwise the snapshot taken when it was last unlocked. -/
def getGlobalSize (session : Session cpus) (globalPoolSize : Nat) : Nat :=
  if session.locked then (session.sets .global).totalSize else globalPoolSize

def deallocChunk (cpu : Fin cpus) (session : Session cpus) : Nat × Nat → Checked (Session cpus)
  | (addr, order) =>
    if order ≥ maxLocalBuddyOrder then session.insertChunk .global addr order
    else session.insertChunk (.ofCpu cpu) addr order

def doDealloc (cpu : Fin cpus) (session : Session cpus) (segments : List (Nat × Nat)) : Checked (Session cpus) :=
  segments.foldlM (fun session (addr, size) => do
    let chunks ← splitToChunks addr size
    chunks.foldlM (deallocChunk cpu) session) session

def takeChunk (cpu : Fin cpus) (session : Session cpus) (order : Nat) : Checked (Session cpus × Option Nat) :=
  if order < maxLocalBuddyOrder then do
    let (session, chunkAddr) ← session.allocChunk (.ofCpu cpu) order
    match chunkAddr with
    | some addr => return (session, some addr)
    | none => session.allocChunk .global order
  else session.allocChunk .global order

/-- `pools::alloc` up to the balancing. What the chunk has beyond the layout goes back. -/
def takeLayout (cpu : Fin cpus) (session : Session cpus) (layout : Layout) :
    Checked (Session cpus × Option Nat) := do
  let order := max (greaterOrderOf layout.size) (greaterOrderOf layout.align)
  let (session, chunkAddr) ← session.takeChunk cpu order
  match chunkAddr with
  | none => return (session, none)
  | some addr =>
    if sizeOfOrder order > layout.size then
      let session ← session.doDealloc cpu [(addr + layout.size, sizeOfOrder order - layout.size)]
      return (session, some addr)
    else return (session, some addr)

end Session

section Balancing

variable {cpus : Nat}

def cacheExpectedSize (cpus globalSize : Nat) : Nat := globalSize / cpus / 2

def cacheMinimalSize (cpus globalSize : Nat) : Nat := cacheExpectedSize cpus globalSize / 8

def cacheMaximalSize (cpus globalSize : Nat) : Nat := cacheExpectedSize cpus globalSize * 2

def Session.place (session : Session cpus) (pool : PoolId cpus) (addr order : Nat) : Checked (Session cpus) :=
  if order ≥ pool.maxOrder then do
    let pieces ← splitToOrder addr order (pool.maxOrder - 1)
    pieces.foldlM (fun session piece => session.insertChunk pool piece (pool.maxOrder - 1)) session
  else session.insertChunk pool addr order

def balanceTo (source target : PoolId cpus) : Nat → Session cpus → Checked (Session cpus)
  | 0, session => do
    let (session, allocated) ← session.allocChunk source 0
    match allocated with
    | some addr => session.place target addr 0
    | none => return session
  | order + 1, session => do
    let (session, allocated) ← session.allocChunk source (order + 1)
    match allocated with
    | some addr => session.place target addr (order + 1)
    | none =>
      if order + 1 > 1 then
        let session ← balanceTo source target order session
        balanceTo source target order session
      else return session

def balance (globalPoolSize : Nat) (cpu : Fin cpus) (session : Session cpus) : Checked (Session cpus) :=
  let globalSize := session.getGlobalSize globalPoolSize
  let localSize := (session.sets (.ofCpu cpu)).totalSize
  if localSize ≥ cacheMaximalSize cpus globalSize then
    if localSize = 0 then .ok session
    else do
      let expectedRemoval ← Checked.sub localSize (cacheExpectedSize cpus globalSize)
      let lesserOrder ← lesserOrderOf expectedRemoval
      balanceTo (.ofCpu cpu) .global lesserOrder session
  else if localSize < cacheMinimalSize cpus globalSize then
    if globalSize = 0 then .ok session
    else do
      let expectedAllocation ← Checked.sub (cacheExpectedSize cpus globalSize) localSize
      let lesserOrder ← lesserOrderOf expectedAllocation
      balanceTo .global (.ofCpu cpu) lesserOrder session
  else .ok session

end Balancing

inductive CacheKind
  | cache1
  | cache2
  | cache3
  | cache4
  deriving DecidableEq

namespace CacheKind

instance : Fintype CacheKind where
  elems := {cache1, cache2, cache3, cache4}
  complete := fun kind => by cases kind <;> decide

def nrContFrames : CacheKind → Nat
  | cache1 => 1
  | cache2 => 2
  | cache3 => 3
  | cache4 => 4

def count : CacheKind → Nat
  | cache1 => 12
  | cache2 => 6
  | cache3 => 6
  | cache4 => 6

def segmentSize (kind : CacheKind) : Nat := kind.nrContFrames * pageSize

def ofFrames : Nat → Option CacheKind
  | 1 => some cache1
  | 2 => some cache2
  | 3 => some cache3
  | 4 => some cache4
  | _ => none

def nrToAlloc (kind : CacheKind) : Nat := kind.count * 2 / 3

def nrToDealloc (kind : CacheKind) : Nat := kind.count * 2 / 3 + 1

def fillLayout (kind : CacheKind) : Layout where
  size := kind.nrToAlloc * kind.segmentSize
  align := pageSize
  pages := Dvd.dvd.mul_left (Nat.dvd_mul_left _ _) _
  power := pageSize_power

end CacheKind

/-- The occupied part of the array, the segment that was pushed last in front. -/
structure CacheArray (count : Nat) where
  segments : List Nat
  fits : segments.length ≤ count

namespace CacheArray

variable {count : Nat}

def new (count : Nat) : CacheArray count := ⟨[], Nat.zero_le _⟩

def pushFront (cache : CacheArray count) (addr : Nat) : Option (CacheArray count) :=
  if room : cache.segments.length < count then some ⟨addr :: cache.segments, room⟩ else none

def popFront (cache : CacheArray count) : Option (Nat × CacheArray count) :=
  match cache with
  | ⟨[], _⟩ => none
  | ⟨addr :: rest, fits⟩ => some (addr, ⟨rest, Nat.le_of_succ_le fits⟩)

def popMany : Nat → CacheArray count → Checked (List Nat × CacheArray count)
  | 0, cache => .ok ([], cache)
  | number + 1, cache => do
    let (addr, cache) ← Checked.unwrap cache.popFront
    let (addrs, cache) ← popMany number cache
    return (addr :: addrs, cache)

def pushMany (cache : CacheArray count) (addrs : List Nat) : CacheArray count :=
  addrs.foldl (fun cache addr => (cache.pushFront addr).getD cache) cache

end CacheArray

/-- Everything the allocator keeps: the pools with the metadata slots, the snapshot of the global pool's
size, and for each CPU its caches and its part of the counter of free bytes. -/
structure Allocator (cpus : Nat) where
  slots : Slots
  sets : (pool : PoolId cpus) → BuddySet pool.maxOrder
  globalPoolSize : Nat
  caches : (place : Fin cpus × CacheKind) → CacheArray place.2.count
  totalFreeSize : Fin cpus → BitVec 64

namespace Allocator

variable {cpus : Nat}

def new (cpus : Nat) : Allocator cpus where
  slots := fun _ => none
  sets := fun pool => BuddySet.newEmpty pool.maxOrder
  globalPoolSize := 0
  caches := fun place => CacheArray.new place.2.count
  totalFreeSize := fun _ => 0

variable (state : Allocator cpus) (cpu : Fin cpus)

def openSession : Session cpus := ⟨state.slots, state.sets, false⟩

def closeSession (session : Session cpus) : Allocator cpus :=
  { state with
    slots := session.slots
    sets := session.sets
    globalPoolSize := session.getGlobalSize state.globalPoolSize }

def poolsAlloc (layout : Layout) : Checked (Allocator cpus × Option Nat) := do
  let (session, chunkAddr) ← state.openSession.takeLayout cpu layout
  let session ← balance state.globalPoolSize cpu session
  return (state.closeSession session, chunkAddr)

def poolsDealloc (segments : List (Nat × Nat)) : Checked (Allocator cpus) := do
  let session ← state.openSession.doDealloc cpu segments
  let session ← balance state.globalPoolSize cpu session
  return state.closeSession session

def poolsAddFreeMemory (addr size : Nat) : Checked (Allocator cpus) := do
  let chunks ← splitToChunks addr size
  let session ← chunks.foldlM (fun session (addr, order) => session.insertChunk .global addr order) state.openSession
  return state.closeSession session

def cacheArrayAlloc (kind : CacheKind) : Checked (Allocator cpus × Option Nat) :=
  match (state.caches (cpu, kind)).popFront with
  | some (addr, cache) => .ok ({ state with caches := update state.caches (cpu, kind) cache }, some addr)
  | none => do
    let (state, allocated) ← state.poolsAlloc cpu kind.fillLayout
    match allocated with
    | none => return (state, none)
    | some addr =>
      let rest := (List.range (kind.nrToAlloc - 1)).map fun index => addr + (index + 1) * kind.segmentSize
      let filled := (state.caches (cpu, kind)).pushMany rest
      return ({ state with caches := update state.caches (cpu, kind) filled }, some addr)

def cacheArrayDealloc (kind : CacheKind) (addr : Nat) : Checked (Allocator cpus) :=
  match (state.caches (cpu, kind)).pushFront addr with
  | some cache => .ok { state with caches := update state.caches (cpu, kind) cache }
  | none => do
    let (popped, cache) ← (state.caches (cpu, kind)).popMany (kind.nrToDealloc - 1)
    let emptied : Allocator cpus := { state with caches := update state.caches (cpu, kind) cache }
    emptied.poolsDealloc cpu ((addr :: popped).map fun segment => (segment, kind.segmentSize))

def cacheAlloc (layout : Layout) : Checked (Allocator cpus × Option Nat) :=
  if layout.align > layout.size then state.poolsAlloc cpu layout
  else
    match CacheKind.ofFrames (layout.size / pageSize) with
    | some kind => state.cacheArrayAlloc cpu kind
    | none => state.poolsAlloc cpu layout

/-- A segment of more than four frames has no cache, so the early return for it needs no case of its own. -/
def cacheDealloc (addr size : Nat) : Checked (Allocator cpus) :=
  match CacheKind.ofFrames (size / pageSize) with
  | some kind => state.cacheArrayDealloc cpu kind addr
  | none => state.poolsDealloc cpu [(addr, size)]

/-- The counters wrap, as `fetch_add` and `fetch_sub` on an `AtomicIsize` do. -/
def countFree (change : BitVec 64) : Allocator cpus :=
  { state with totalFreeSize := update state.totalFreeSize cpu (state.totalFreeSize cpu + change) }

def alloc (layout : Layout) : Checked (Allocator cpus × Option Nat) := do
  let (state, result) ← state.cacheAlloc cpu layout
  match result with
  | some addr => return (state.countFree cpu (-BitVec.ofNat 64 layout.size), some addr)
  | none => return (state, none)

def dealloc (addr size : Nat) : Checked (Allocator cpus) :=
  (state.countFree cpu (BitVec.ofNat 64 size)).cacheDealloc cpu addr size

def addFreeMemory (addr size : Nat) : Checked (Allocator cpus) :=
  (state.countFree cpu (BitVec.ofNat 64 size)).poolsAddFreeMemory addr size

/-- `FastSmpCounter::get`: the wrapping sum, and zero where it is negative. -/
def loadTotalFreeSize : Nat :=
  ((List.finRange cpus).foldl (fun total cpu => total + state.totalFreeSize cpu) 0).toInt.toNat

end Allocator

end Kei.FrameAllocator
