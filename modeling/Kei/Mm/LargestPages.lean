import Kei.Mm.Tree
import Kei.Mm.VmSpace
import Mathlib.Order.Bounds.Basic

/-! How `largest_pages` cuts a range into page table items. -/

namespace Kei.Mm

open Library Checked List

/-- The state of the iterator. -/
structure LargestPages where
  va : Nat
  pa : Nat
  len : Nat

namespace LargestPages

/-- The inner loop, from a level downwards. There is no page size at level 0. -/
def findLevel (pages : LargestPages) : Nat → Checked Nat
  | 0 => .error .subOverflow
  | level + 1 =>
    if pageSize (level + 1) > pages.len ∨ pages.va % pageSize (level + 1) ≠ 0 ∨
      pages.pa % pageSize (level + 1) ≠ 0 then
      pages.findLevel level
    else .ok (level + 1)

def next (highest : Nat) (pages : LargestPages) : Checked (Option ((Nat × Nat) × LargestPages)) :=
  if pages.len = 0 then .ok none
  else do
    let level ← pages.findLevel highest
    let va ← add usizeMax pages.va (pageSize level)
    let pa ← add usizeMax pages.pa (pageSize level)
    let len ← sub pages.len (pageSize level)
    return some ((pages.pa, level), ⟨va, pa, len⟩)

/-- All items of the iterator, if there are fewer than `turns`. -/
def collect (highest : Nat) : Nat → LargestPages → Checked (List (Nat × Nat))
  | 0, _ => .error .hang
  | turns + 1, pages => do
    match ← pages.next highest with
    | none => return []
    | some (item, pages) => return item :: (← collect highest turns pages)

/-- What an item at the start of the rest may be. -/
structure Allows (highest : Nat) (pages : LargestPages) (level : Nat) : Prop where
  positive : 1 ≤ level
  highest : level ≤ highest
  fits : pageSize level ≤ pages.len
  va : pageSize level ∣ pages.va
  pa : pageSize level ∣ pages.pa

def skip (pages : LargestPages) (count : Nat) : LargestPages :=
  ⟨pages.va + count, pages.pa + count, pages.len - count⟩

/-- Each item starts where the ones before it end, at the greatest level that is allowed there, and
together they are as long as the range. -/
structure Tiles (highest : Nat) (pages : LargestPages) (items : List (Nat × Nat)) : Prop where
  total : (items.map fun item => pageSize item.2).sum = pages.len
  each : ∀ index paddr level, items[index]? = some (paddr, level) →
    let rest := pages.skip ((items.take index).map fun item => pageSize item.2).sum
    paddr = rest.pa ∧ IsGreatest {level | rest.Allows highest level} level

theorem findLevel_ok {pages : LargestPages} (filled : basePageSize ≤ pages.len) (va : basePageSize ∣ pages.va)
    (pa : basePageSize ∣ pages.pa) {highest : Nat} (positive : 1 ≤ highest) :
    ∃ level, pages.findLevel highest = .ok level ∧ IsGreatest {level | pages.Allows highest level} level := by
  induction highest with
  | zero => omega
  | succ highest ih =>
    rw [findLevel]
    split
    case isTrue refused =>
      have below {level : Nat} (allows : pages.Allows (highest + 1) level) : level ≤ highest := by
        obtain below | rfl := Nat.lt_or_eq_of_le allows.highest
        · exact Nat.le_of_lt_succ below
        have := allows.fits
        have := Nat.mod_eq_zero_of_dvd allows.va
        have := Nat.mod_eq_zero_of_dvd allows.pa
        omega
      have least : highest ≠ 0 := by
        rintro rfl
        exact Nat.not_succ_le_zero 0 (below ⟨Nat.le_refl 1, Nat.le_refl 1, filled, va, pa⟩)
      obtain ⟨level, found, allowed, greatest⟩ := ih (Nat.one_le_iff_ne_zero.mpr least)
      exact ⟨level, found, { allowed with highest := Nat.le_succ_of_le allowed.highest }, fun other allows =>
        greatest { allows with highest := below allows }⟩
    case isFalse taken =>
      obtain ⟨fits, aligned⟩ := not_or.mp taken
      obtain ⟨va, pa⟩ := not_or.mp aligned
      refine ⟨highest + 1, rfl, ⟨positive, Nat.le_refl _, Nat.le_of_not_lt fits, ?_, ?_⟩, fun _ allows =>
        allows.highest⟩
      · exact Nat.dvd_of_mod_eq_zero (not_not.mp va)
      · exact Nat.dvd_of_mod_eq_zero (not_not.mp pa)

theorem base_dvd_pageSize {level : Nat} (positive : 1 ≤ level) : basePageSize ∣ pageSize level ∧
    0 < pageSize level := by
  obtain ⟨level, rfl⟩ := Nat.exists_eq_add_of_le' positive
  rw [pageSize_succ]
  exact ⟨Nat.dvd_mul_right _ _, Nat.mul_pos (by decide) (Nat.pow_pos (by decide))⟩

theorem Tiles.cons {highest : Nat} {pages : LargestPages} {level : Nat} {items : List (Nat × Nat)}
    (greatest : IsGreatest {level | pages.Allows highest level} level)
    (tiles : (pages.skip (pageSize level)).Tiles highest items) : pages.Tiles highest ((pages.pa, level) :: items) where
  total := by
    have := greatest.1.fits
    have := tiles.total
    simp only [map_cons, sum_cons, skip] at *
    omega
  each index paddr found listed := by
    cases index with
    | zero =>
      obtain ⟨rfl, rfl⟩ := Prod.mk.inj (Option.some.inj listed)
      exact ⟨rfl, greatest⟩
    | succ index =>
      have rest := tiles.each index paddr found listed
      rw [take_succ_cons, map_cons, sum_cons]
      simpa only [skip, Nat.add_assoc, Nat.sub_sub] using rest

theorem collect_tiles {highest : Nat} (positive : 1 ≤ highest) {turns : Nat} {pages : LargestPages}
    (len : basePageSize ∣ pages.len) (va : basePageSize ∣ pages.va) (pa : basePageSize ∣ pages.pa)
    (virtual : pages.va + pages.len ≤ usizeMax) (physical : pages.pa + pages.len ≤ usizeMax)
    (enough : pages.len < turns) :
    ∃ items, collect highest turns pages = .ok items ∧ pages.Tiles highest items := by
  induction turns generalizing pages with
  | zero => omega
  | succ turns ih =>
    rw [collect, next]
    by_cases empty : pages.len = 0
    · rw [if_pos empty]
      exact ⟨[], rfl, empty.symm, nofun⟩
    · have filled := Nat.le_of_dvd (Nat.pos_of_ne_zero empty) len
      obtain ⟨level, found, greatest⟩ := findLevel_ok filled va pa positive
      have fits := greatest.1.fits
      obtain ⟨step, some⟩ := base_dvd_pageSize greatest.1.positive
      obtain ⟨items, ran, tiles⟩ := @ih (pages.skip (pageSize level)) (Nat.dvd_sub len step) (Nat.dvd_add va step)
        (Nat.dvd_add pa step) (by simp only [skip]; omega) (by simp only [skip]; omega) (by simp only [skip]; omega)
      refine ⟨(pages.pa, level) :: items, ?_, .cons greatest tiles⟩
      rw [if_neg empty, found, bind_ok, add_ok (by omega), bind_ok, add_ok (by omega), bind_ok, sub_ok fits, bind_ok]
      change (do return _ :: (← collect highest turns (pages.skip (pageSize level)))) = _
      rw [ran]
      rfl

end LargestPages

variable {Item : Type} (C : PageTableConfig Item) {va pa len : Nat}

def largestPages (va pa len : Nat) : Checked LargestPages := do
  assert (va % basePageSize = 0)
  assert (pa % basePageSize = 0)
  assert (len % basePageSize = 0)
  let stop ← add usizeMax va len
  assert (← isValidRange C va stop)
  return ⟨va, pa, len⟩

/-- An aligned range that the page table manages, and that ends within the address space on both
sides, is cut into the largest pages. -/
theorem largestPages_tile (translates : 1 ≤ C.highestTranslationLevel) (vaAligned : basePageSize ∣ va)
    (paAligned : basePageSize ∣ pa) (lenAligned : basePageSize ∣ len) (virtual : va + len ≤ usizeMax)
    (physical : pa + len ≤ usizeMax) (valid : isValidRange C va (va + len) = .ok true) :
    ∃ items,
      (∃ turns, (largestPages C va pa len >>= LargestPages.collect C.highestTranslationLevel turns) = .ok items) ∧
      LargestPages.Tiles C.highestTranslationLevel ⟨va, pa, len⟩ items := by
  obtain ⟨items, ran, tiles⟩ :=
    @LargestPages.collect_tiles _ translates (len + 1) ⟨va, pa, len⟩ lenAligned vaAligned
    paAligned virtual physical (Nat.lt_succ_self len)
  refine ⟨items, ⟨len + 1, ?_⟩, tiles⟩
  rw [largestPages, Nat.mod_eq_zero_of_dvd vaAligned, Nat.mod_eq_zero_of_dvd paAligned,
    Nat.mod_eq_zero_of_dvd lenAligned, add_ok virtual]
  simpa [assert, bind_ok, valid] using ran

theorem largestPages_tile_huge : ∃ items,
    (∃ turns, (largestPages { userPtConfig 0 with highestTranslationLevel := 2 } 0x1ff000 0x3ff000 0x202000 >>=
      LargestPages.collect 2 turns) = .ok items) ∧ LargestPages.Tiles 2 ⟨0x1ff000, 0x3ff000, 0x202000⟩ items :=
  largestPages_tile { userPtConfig 0 with highestTranslationLevel := 2 } (by decide) (by decide) (by decide) (by decide)
    (by decide) (by decide) rfl

end Kei.Mm
