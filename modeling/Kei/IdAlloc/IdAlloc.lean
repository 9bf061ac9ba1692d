import Kei.Library.Checked

/-! The id allocator (`id-alloc/src/lib.rs`): a bitmap of the ids in use, with the first free
one remembered. -/

namespace Kei

open Library Checked

structure IdAlloc where
  bitset : List Bool
  firstAvailableId : Nat

namespace IdAlloc

def withCapacity (capacity : Nat) : IdAlloc := ⟨List.replicate capacity false, 0⟩

def isAllocated (ids : IdAlloc) (id : Nat) : Checked Bool := index ids.bitset id

def findFrom (bitset : List Bool) (start : Nat) : Nat :=
  ((List.range' start (bitset.length - start)).find? fun id => bitset[id]? == some false).getD bitset.length

def alloc (ids : IdAlloc) : Checked (Option Nat × IdAlloc) := do
  if ids.firstAvailableId < ids.bitset.length then
    let id := ids.firstAvailableId
    let bitset ← store ids.bitset id true
    return (some id, ⟨bitset, findFrom bitset (id + 1)⟩)
  else return (none, ids)

/-- The `while` loop of `alloc_consecutive` on the current range; every turn takes its end further. -/
def scan (bitset : List Bool) (count : Nat) : Nat → Nat × Nat → Checked (Nat × Nat)
  | 0, _ => .error .hang
  | turns + 1, (start, stop) =>
    if stop - start < count ∧ stop < bitset.length then do
      if !(← index bitset stop) then scan bitset count turns (start, stop + 1)
      else scan bitset count turns (stop + 1, stop + 1)
    else .ok (start, stop)

def storeAll (value : Bool) (bitset : List Bool) (range : List Nat) : Checked (List Bool) :=
  range.foldlM (fun bitset id => store bitset id value) bitset

def allocConsecutive (ids : IdAlloc) (count : Nat) : Checked (Option (Nat × Nat) × IdAlloc) := do
  if count = 0 then return (none, ids)
  if ids.firstAvailableId + count > ids.bitset.length then return (none, ids)
  let (start, stop) ← scan ids.bitset count (ids.bitset.length + 1)
    (ids.firstAvailableId, ids.firstAvailableId + 1)
  if stop - start < count then return (none, ids)
  let bitset ← storeAll true ids.bitset (List.range' start (stop - start))
  if ← index bitset ids.firstAvailableId then return (some (start, stop), ⟨bitset, findFrom bitset stop⟩)
  return (some (start, stop), ⟨bitset, ids.firstAvailableId⟩)

def clearAll (bitset : List Bool) (range : List Nat) : Checked (List Bool) :=
  range.foldlM (fun bitset id => do
    assert (← index bitset id)
    store bitset id false) bitset

def freeConsecutive (ids : IdAlloc) (start stop : Nat) : Checked IdAlloc := do
  if stop ≤ start then return ids
  let bitset ← clearAll ids.bitset (List.range' start (stop - start))
  return ⟨bitset, if start < ids.firstAvailableId then start else ids.firstAvailableId⟩

def free (ids : IdAlloc) (id : Nat) : Checked IdAlloc := do
  let bitset ← clearAll ids.bitset [id]
  return ⟨bitset, if id < ids.firstAvailableId then id else ids.firstAvailableId⟩

def allocSpecific (ids : IdAlloc) (id : Nat) : Checked (Option Nat × IdAlloc) := do
  if ← index ids.bitset id then return (none, ids)
  let bitset ← store ids.bitset id true
  if id = ids.firstAvailableId then return (some id, ⟨bitset, findFrom bitset (id + 1)⟩)
  return (some id, ⟨bitset, ids.firstAvailableId⟩)

end IdAlloc

end Kei
