import Mathlib.Tactic.Common

/-! Properties of mapped pages (`page_prop.rs`) and the architecture-independent form of a page
table entry (`page_table/mod.rs`). A set of flags is a record of booleans, one for each bit
the source declares. -/

namespace Kei.Mm

structure PageFlags where
  r : Bool
  w : Bool
  x : Bool
  accessed : Bool
  dirty : Bool
  avail2 : Bool
  deriving DecidableEq, Repr

def PageFlags.empty : PageFlags := ⟨false, false, false, false, false, false⟩

inductive CachePolicy
  | uncacheable
  | writeCombining
  | writeProtected
  | writethrough
  | writeback
  deriving DecidableEq, Repr

structure PrivilegedPageFlags where
  user : Bool
  global : Bool
  avail1 : Bool
  deriving DecidableEq, Repr

structure PageTableFlags where
  avail1 : Bool
  avail2 : Bool
  deriving DecidableEq, Repr

def PageTableFlags.empty : PageTableFlags := ⟨false, false⟩

structure PageProperty where
  flags : PageFlags
  cache : CachePolicy
  privFlags : PrivilegedPageFlags
  deriving DecidableEq, Repr

def PageProperty.newUser (flags : PageFlags) (cache : CachePolicy) : PageProperty :=
  ⟨flags, cache, ⟨true, false, false⟩⟩

inductive PteScalar
  | absent
  | pageTable (paddr : Nat) (flags : PageTableFlags)
  | mapped (paddr : Nat) (prop : PageProperty)
  deriving DecidableEq, Repr

class PteTrait (E : Type) where
  fromRepr : PteScalar → Nat → E
  toRepr : E → Nat → PteScalar
  newZeroed : E

end Kei.Mm
