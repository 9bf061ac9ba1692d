import Mathlib.Data.Nat.Bitwise
import Kei.Mm.PageProp

/-! Page table entries on aarch64 (`arch/aarch64/mm/mod.rs`). -/

namespace Kei.Mm

namespace PteFlags

def valid : Nat := 1 <<< 0

def blockOrTable : Nat := 1 <<< 1

def af : Nat := 1 <<< 10

def ng : Nat := 1 <<< 11

def pxn : Nat := 1 <<< 53

def uxn : Nat := 1 <<< 54

def sw : Nat := 1 <<< 55

end PteFlags

open PteFlags Nat

structure PageTableEntry where
  bits : Nat
  deriving DecidableEq, Repr

namespace PageTableEntry

def physAddrMask : Nat := 0x0000FFFFFFFFF000

def ap0 : Nat := 1 <<< 6

def ap1 : Nat := 1 <<< 7

def isUser (pte : PageTableEntry) : Bool := pte.bits &&& ap0 ≠ 0

def isHuge (pte : PageTableEntry) : Bool := pte.bits &&& blockOrTable = 0

def isGlobal (pte : PageTableEntry) : Bool := pte.bits &&& ng = 0

def isLast (pte : PageTableEntry) (level : Nat) : Bool := level = 1 || pte.isHuge

def paddr (pte : PageTableEntry) : Nat := (pte.bits &&& physAddrMask) >>> 12 <<< 12

def prop (pte : PageTableEntry) : PageProperty :=
  let flags :=
    if pte.bits &&& ap0 ≠ 0 ∧ pte.bits &&& ap1 = 0 then { PageFlags.empty with r := true, w := true }
    else if pte.bits &&& ap0 ≠ 0 ∧ pte.bits &&& ap1 ≠ 0 then { PageFlags.empty with r := true }
    else PageFlags.empty
  let flags := if pte.bits &&& uxn ≠ 0 then flags else { flags with x := true }
  let flags := if pte.bits &&& af ≠ 0 then { flags with accessed := true } else flags
  ⟨flags, .writeback, ⟨pte.isUser, pte.isGlobal, false⟩⟩

def ptFlags (pte : PageTableEntry) : PageTableFlags :=
  if pte.bits &&& sw ≠ 0 then { PageTableFlags.empty with avail1 := true } else PageTableFlags.empty

def isHugeFromProp (_ : PageProperty) : Bool := false

def attrIdx : CachePolicy → Nat
  | .uncacheable | .writeCombining => 0
  | .writeback | .writeProtected | .writethrough => 2

def newPageFlags (level : Nat) (prop : PageProperty) : Nat :=
  let flags := valid ||| af
  let flags := if !prop.privFlags.user then flags ||| uxn else flags
  let flags := if !prop.flags.x then flags ||| pxn else flags
  let flags :=
    if !prop.flags.w then flags ||| ap0 ||| ap1
    else if prop.privFlags.user then flags ||| ap0
    else flags
  let flags := if !prop.privFlags.global then flags ||| ng else flags
  let flags := flags ||| attrIdx prop.cache <<< 2
  let flags := flags ||| 3 <<< 8
  if level = 1 then flags ||| blockOrTable
  else if level ≠ 3 ∧ !isHugeFromProp prop then flags ||| blockOrTable
  else flags

def newPage (paddr level : Nat) (prop : PageProperty) : PageTableEntry :=
  ⟨(paddr &&& physAddrMask) ||| newPageFlags level prop⟩

def newPtFlags (flags : PageTableFlags) : Nat :=
  let sw := if flags.avail1 then sw else 0
  let attrIdxSh := (2 <<< 2) ||| (3 <<< 8)
  valid ||| blockOrTable ||| attrIdxSh ||| af ||| sw

def newPt (paddr : Nat) (flags : PageTableFlags) : PageTableEntry :=
  ⟨(paddr &&& physAddrMask) ||| newPtFlags flags⟩

instance : PteTrait PageTableEntry where
  fromRepr repr level :=
    match repr with
    | .absent => ⟨0⟩
    | .pageTable paddr flags => newPt paddr flags
    | .mapped paddr prop => newPage paddr level prop
  toRepr pte level :=
    if pte.bits &&& valid = 0 then .absent
    else if pte.isLast level then .mapped pte.paddr pte.prop
    else .pageTable pte.paddr pte.ptFlags
  newZeroed := ⟨0⟩

open PteTrait

theorem and_attribute (paddr flags : Nat) {bit : Nat} (apart : physAddrMask &&& bit = 0) :
    ((paddr &&& physAddrMask) ||| flags) &&& bit = flags &&& bit := by
  rw [Nat.and_or_distrib_right, Nat.and_assoc, apart, Nat.and_zero, Nat.zero_or]

theorem paddr_attributes (paddr flags : Nat) (apart : flags &&& physAddrMask = 0) :
    (PageTableEntry.mk ((paddr &&& physAddrMask) ||| flags)).paddr = paddr &&& physAddrMask := by
  have masked : ((paddr &&& physAddrMask) ||| flags) &&& physAddrMask = paddr &&& physAddrMask := by
    rw [Nat.and_or_distrib_right, apart, Nat.or_zero, Nat.and_assoc, Nat.and_self]
  have low : (paddr &&& physAddrMask) % 2 ^ 12 = 0 := by
    rw [← Nat.and_two_pow_sub_one_eq_mod, Nat.and_assoc]
    rw [show physAddrMask &&& (2 ^ 12 - 1) = 0 by decide, and_zero]
  rw [PageTableEntry.paddr, masked, shiftLeft_eq, shiftRight_eq_div_pow]
  exact Nat.div_mul_cancel (Nat.dvd_of_mod_eq_zero low)

def withPaddr (paddr : Nat) : PteScalar → PteScalar
  | .absent => .absent
  | .pageTable _ flags => .pageTable paddr flags
  | .mapped _ prop => .mapped paddr prop

theorem toRepr_attributes (paddr flags level : Nat) (apart : flags &&& physAddrMask = 0) :
    toRepr (PageTableEntry.mk ((paddr &&& physAddrMask) ||| flags)) level =
      withPaddr (paddr &&& physAddrMask) (toRepr (PageTableEntry.mk flags) level) := by
  have bit (bit : Nat) (other : physAddrMask &&& bit = 0) := and_attribute paddr flags other
  have address := paddr_attributes paddr flags apart
  have valid := bit valid (by decide)
  have block := bit blockOrTable (by decide)
  have first := bit ap0 (by decide)
  have second := bit ap1 (by decide)
  have execute := bit uxn (by decide)
  have access := bit af (by decide)
  have global := bit ng (by decide)
  have software := bit sw (by decide)
  simp only [toRepr, isLast, isHuge, prop, isUser, isGlobal, ptFlags, valid, block, first, second, execute,
    access, global, software, address]
  split
  · rfl
  · split <;> rfl

def readBack (prop : PageProperty) : PageProperty :=
  ⟨⟨!prop.flags.w || prop.privFlags.user, prop.flags.w && prop.privFlags.user, prop.privFlags.user, true,
    false, false⟩, .writeback, ⟨!prop.flags.w || prop.privFlags.user, prop.privFlags.global, false⟩⟩

def PageFlagsRead (prop : PageProperty) : Prop :=
  (newPageFlags 1 prop &&& physAddrMask = 0 ∧ toRepr (mk (newPageFlags 1 prop)) 1 = .mapped 0 (readBack prop) ∧
    toRepr (mk (newPageFlags 1 prop)) 2 = .pageTable 0 PageTableFlags.empty) ∧
  newPageFlags 3 prop &&& physAddrMask = 0 ∧ toRepr (mk (newPageFlags 3 prop)) 2 = .mapped 0 (readBack prop)

theorem newPageFlags_reads (prop : PageProperty) : PageFlagsRead prop := by
  have cases : ∀ (cache : CachePolicy) (w x user global : Bool),
      PageFlagsRead ⟨⟨false, w, x, false, false, false⟩, cache, ⟨user, global, false⟩⟩ := by
    unfold PageFlagsRead
    intro cache
    cases cache <;> decide +kernel
  exact cases prop.cache prop.flags.w prop.flags.x prop.privFlags.user prop.privFlags.global

theorem newPageFlags_of_ne {level : Nat} (other : level ≠ 3) (prop : PageProperty) :
    newPageFlags level prop = newPageFlags 1 prop := by
  simp [newPageFlags, other, isHugeFromProp]

theorem toRepr_of_ne {level : Nat} (upper : level ≠ 1) (pte : PageTableEntry) :
    toRepr pte level = toRepr pte 2 := by
  simp [toRepr, isLast, upper]

theorem toRepr_newPage (paddr level : Nat) (prop : PageProperty) :
    toRepr (newPage paddr level prop) level =
      if level = 1 ∨ level = 3 then .mapped (paddr &&& physAddrMask) (readBack prop)
      else .pageTable (paddr &&& physAddrMask) PageTableFlags.empty := by
  obtain ⟨⟨apart, page, table⟩, apartBlock, block⟩ := newPageFlags_reads prop
  rw [newPage]
  by_cases gap : level = 3
  · subst gap
    rw [toRepr_attributes _ _ _ apartBlock, toRepr_of_ne (by decide), block]
    rfl
  · rw [newPageFlags_of_ne gap, toRepr_attributes _ _ _ apart]
    by_cases base : level = 1
    · subst base
      rw [page]
      rfl
    · rw [toRepr_of_ne base, table]
      simp [base, gap, withPaddr]

theorem newPtFlags_read (flags : PageTableFlags) : newPtFlags flags &&& physAddrMask = 0 ∧
    toRepr (mk (newPtFlags flags)) 2 = .pageTable 0 ⟨flags.avail1, false⟩ ∧
    toRepr (mk (newPtFlags flags)) 1 = .mapped 0 (mk (newPtFlags flags)).prop := by
  have cases : ∀ avail1 : Bool, newPtFlags ⟨avail1, false⟩ &&& physAddrMask = 0 ∧
      toRepr (mk (newPtFlags ⟨avail1, false⟩)) 2 = .pageTable 0 ⟨avail1, false⟩ ∧
      toRepr (mk (newPtFlags ⟨avail1, false⟩)) 1 = .mapped 0 (mk (newPtFlags ⟨avail1, false⟩)).prop := by
    decide +kernel
  exact cases flags.avail1

theorem toRepr_newPt (paddr level : Nat) (flags : PageTableFlags) (upper : level ≠ 1) :
    toRepr (newPt paddr flags) level = .pageTable (paddr &&& physAddrMask) ⟨flags.avail1, false⟩ := by
  obtain ⟨apart, table, _⟩ := newPtFlags_read flags
  rw [newPt, toRepr_attributes _ _ _ apart, toRepr_of_ne upper, table]
  rfl

theorem toRepr_newPt_leaf (paddr : Nat) (flags : PageTableFlags) :
    ∃ prop, toRepr (newPt paddr flags) 1 = .mapped (paddr &&& physAddrMask) prop := by
  obtain ⟨apart, _, page⟩ := newPtFlags_read flags
  rw [newPt, toRepr_attributes _ _ _ apart, page]
  exact ⟨_, rfl⟩

theorem toRepr_zeroed (level : Nat) : toRepr (newZeroed : PageTableEntry) level = .absent := by
  simp [toRepr, newZeroed]

def Addressable (paddr : Nat) : Prop := paddr % 4096 = 0 ∧ paddr < 2 ^ 48

theorem Addressable.masked {paddr : Nat} (addressable : Addressable paddr) : paddr &&& physAddrMask = paddr := by
  obtain ⟨pages, rfl⟩ := dvd_of_mod_eq_zero addressable.1
  have bound : pages < 2 ^ 36 := by
    have within := addressable.2
    omega
  have shape : physAddrMask = (2 ^ 36 - 1) <<< 12 := by decide
  have shifted : 4096 * pages = pages <<< 12 := by rw [shiftLeft_eq, mul_comm]
  rw [shape, shifted, ← shiftLeft_and_distrib, and_two_pow_sub_one_eq_mod, mod_eq_of_lt bound]

def Faithful (level : Nat) : PteScalar → Prop
  | .absent => True
  | .pageTable _ flags => level ≠ 1 ∧ flags.avail2 = false
  | .mapped _ prop => (level = 1 ∨ level = 3) ∧ prop.cache = .writeback ∧
      prop.privFlags.user = true ∧ prop.privFlags.avail1 = false ∧
      prop.flags.r = true ∧ prop.flags.x = true ∧ prop.flags.accessed = true ∧
      prop.flags.dirty = false ∧ prop.flags.avail2 = false

def scalarPaddr? : PteScalar → Option Nat
  | .absent => none
  | .pageTable paddr _ | .mapped paddr _ => some paddr

theorem readBack_eq_iff (prop : PageProperty) : readBack prop = prop ↔
    prop.cache = .writeback ∧ prop.privFlags.user = true ∧ prop.privFlags.avail1 = false ∧
      prop.flags.r = true ∧ prop.flags.x = true ∧ prop.flags.accessed = true ∧
      prop.flags.dirty = false ∧ prop.flags.avail2 = false := by
  obtain ⟨⟨r, w, x, accessed, dirty, avail2⟩, cache, ⟨user, global, avail1⟩⟩ := prop
  simp only [readBack, PageProperty.mk.injEq, PageFlags.mk.injEq, PrivilegedPageFlags.mk.injEq]
  cases w <;> cases user <;> grind

theorem fromRepr_toRepr_iff (level : Nat) (repr : PteScalar)
    (addressable : ∀ paddr, scalarPaddr? repr = some paddr → Addressable paddr) :
    toRepr (fromRepr repr level : PageTableEntry) level = repr ↔ Faithful level repr := by
  cases repr with
  | absent => exact iff_of_true (toRepr_zeroed level) trivial
  | pageTable paddr flags =>
    have masked := (addressable paddr rfl).masked
    by_cases leaf : level = 1
    · subst leaf
      obtain ⟨prop, read⟩ := toRepr_newPt_leaf paddr flags
      simp [fromRepr, read, Faithful]
    · obtain ⟨avail1, avail2⟩ := flags
      simp [fromRepr, toRepr_newPt _ _ _ leaf, masked, Faithful, leaf, eq_comm]
  | mapped paddr prop =>
    have masked := (addressable paddr rfl).masked
    simp only [fromRepr, toRepr_newPage, masked, Faithful]
    by_cases leaf : level = 1 ∨ level = 3
    · rw [if_pos leaf, PteScalar.mapped.injEq, readBack_eq_iff]
      tauto
    · rw [if_neg leaf]
      simp [leaf]

end PageTableEntry

end Kei.Mm
