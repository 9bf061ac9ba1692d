import Kei.Library.Checked
import Mathlib.Algebra.Order.Ring.Nat

/-! The mappings of an address space (`vm_mapping.rs`, `perms.rs`, `interval_set.rs`). The path of a
mapped file is left out. -/

namespace Kei.Vmar

open Library Checked

def pageSize : Nat := 4096

theorem pageSize_pos : 0 < pageSize := by decide

def vmarLowestAddr : Nat := 0x10000

def vmarCapAddr : Nat := 0x4000000000 <<< 9 - pageSize

structure VmPerms where
  read : Bool := false
  write : Bool := false
  exec : Bool := false
  mayRead : Bool := true
  mayWrite : Bool := true
  mayExec : Bool := true
  deriving DecidableEq

inductive MappedMemory
  | anonymous
  | vmo (vmo offset : Nat)
  | device
  deriving DecidableEq

structure VmMapping where
  mapToAddr : Nat
  mapSize : Nat := pageSize
  nonzero : 0 < mapSize := by exact pageSize_pos
  mappedMem : MappedMemory := .anonymous
  isShared : Bool := false
  handlePageFaultsAround : Bool := false
  perms : VmPerms := {}

namespace VmMapping

def mapEnd (mapping : VmMapping) : Nat := mapping.mapToAddr + mapping.mapSize

def isCow (mapping : VmMapping) : Bool := !mapping.isShared && mapping.perms.mayWrite

end VmMapping

structure IntervalSet where
  items : List VmMapping
  disjoint : items.Pairwise fun lower upper => lower.mapEnd ≤ upper.mapToAddr

end Kei.Vmar
