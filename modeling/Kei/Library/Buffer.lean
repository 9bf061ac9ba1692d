import Kei.Library.Cyclic
import Mathlib.Algebra.Group.Nat.Defs

/-! Fixed-size buffers: reading and writing a range of places, and numbers in little-endian bytes. -/

namespace Library

namespace Buffer

variable {α : Type} {values left right items : List α} {offset count start : Nat}

def window (values : List α) (offset count : Nat) : List α := (values.drop offset).take count

def read (values : List α) (offset count : Nat) : Option (List α) :=
  if offset + count ≤ values.length then some (window values offset count) else none

def write (values : List α) (offset : Nat) (items : List α) : Option (List α) :=
  if offset + items.length ≤ values.length then some (Cyclic.overlay values offset items) else none

theorem read_of_le (bound : offset + count ≤ values.length) :
    read values offset count = some (window values offset count) := if_pos bound

theorem write_of_le (bound : offset + items.length ≤ values.length) :
    write values offset items = some (Cyclic.overlay values offset items) := if_pos bound

theorem getElem?_window (place : Nat) :
    (window values offset count)[place]? = if place < count then values[offset + place]? else none := by
  unfold window
  rw [List.getElem?_take, List.getElem?_drop]

def Agree (left right : List α) (start stop : Nat) : Prop :=
  ∀ place, start ≤ place → place < stop → left[place]? = right[place]?

variable {stop : Nat}

theorem Agree.trans {middle : List α} (one : Agree left middle start stop)
    (two : Agree middle right start stop) : Agree left right start stop :=
  fun place lower upper => (one place lower upper).trans (two place lower upper)

theorem Agree.mono {stop low high : Nat} (agree : Agree left right start stop) (lower : start ≤ low)
    (upper : high ≤ stop) : Agree left right low high :=
  fun place above below => agree place (by omega) (by omega)

theorem Agree.window_eq (agree : Agree left right start stop) (lower : start ≤ offset)
    (upper : offset + count ≤ stop) : window left offset count = window right offset count := by
  apply List.ext_getElem?
  intro place
  rw [getElem?_window, getElem?_window]
  split
  · exact agree _ (by omega) (by omega)
  · rfl

theorem overlay_agree (bound : offset + items.length ≤ values.length)
    (apart : stop ≤ offset ∨ offset + items.length ≤ start) :
    Agree (Cyclic.overlay values offset items) values start stop := by
  intro place lower upper
  rw [Cyclic.getElem?_overlay bound, if_neg (by omega)]

theorem window_overlay (bound : offset + items.length ≤ values.length) :
    window (Cyclic.overlay values offset items) offset items.length = items := by
  apply List.ext_getElem?
  intro place
  rw [getElem?_window]
  split
  · rename_i inside
    rw [Cyclic.getElem?_overlay bound, if_pos (by omega), Nat.add_sub_cancel_left]
  · rename_i outside
    exact (List.getElem?_eq_none (by omega)).symm

theorem window_window (inside : start + count ≤ offset) (place : Nat) :
    window (window values place offset) start count = window values (place + start) count := by
  apply List.ext_getElem?
  intro slot
  rw [getElem?_window, getElem?_window, getElem?_window]
  by_cases within : slot < count
  · rw [if_pos within, if_pos within, if_pos (by omega), Nat.add_assoc]
  · rw [if_neg within, if_neg within]

def toLe : Nat → Nat → List UInt8
  | 0, _ => []
  | width + 1, number => number.toUInt8 :: toLe width (number / 256)

def ofLe : List UInt8 → Nat
  | [] => 0
  | byte :: rest => byte.toNat + 256 * ofLe rest

@[simp]
theorem length_toLe (width number : Nat) : (toLe width number).length = width := by
  induction width generalizing number with
  | zero => rfl
  | succ width ih => rw [toLe, List.length_cons, ih]

theorem ofLe_toLe {width number : Nat} (bound : number < 256 ^ width) : ofLe (toLe width number) = number := by
  induction width generalizing number with
  | zero => rw [Nat.lt_one_iff.mp bound]; rfl
  | succ width ih =>
    rw [Nat.pow_succ] at bound
    rw [toLe, ofLe, ih (Nat.div_lt_of_lt_mul (by rwa [Nat.mul_comm] at bound)), Nat.toUInt8, UInt8.toNat_ofNat']
    exact Nat.mod_add_div _ _

end Buffer

end Library
