import Mathlib.Data.List.Rotate

/-! Lists as rings of slots: reading and writing a run of slots that may go past the end and
on from the start, seen from any slot as the first. -/

namespace Library

open List

namespace Cyclic

variable {α : Type} {values items : List α} {offset slot start used : Nat}

def overlay (values : List α) (offset : Nat) (items : List α) : List α :=
  values.take offset ++ items ++ values.drop (offset + items.length)

theorem length_overlay (bound : offset + items.length ≤ values.length) :
    (overlay values offset items).length = values.length := by
  simp only [overlay, length_append, length_take, length_drop]
  omega

theorem getElem?_overlay (bound : offset + items.length ≤ values.length) :
    (overlay values offset items)[slot]? =
      if offset ≤ slot ∧ slot < offset + items.length then items[slot - offset]? else values[slot]? := by
  have taken : (values.take offset).length = offset := by rw [length_take]; omega
  unfold overlay
  split
  · rename_i inside
    rw [List.getElem?_append_left (by rw [length_append, taken]; omega),
      List.getElem?_append_right (by omega), taken]
  · rename_i outside
    by_cases before : slot < offset
    · rw [List.getElem?_append_left (by rw [length_append, taken]; omega),
        List.getElem?_append_left (by omega), List.getElem?_take_of_lt before]
    · rw [List.getElem?_append_right (by rw [length_append, taken]; omega), length_append, taken,
        List.getElem?_drop]
      congr 1
      omega

def writeAround (values : List α) (offset : Nat) (items : List α) : List α :=
  if offset + items.length > values.length then
    overlay (overlay values offset (items.take (values.length - offset))) 0 (items.drop (values.length - offset))
  else overlay values offset items

def readAround (values : List α) (offset count : Nat) : List α :=
  if offset + count > values.length then
    values.drop offset ++ values.take (count - (values.length - offset))
  else (values.drop offset).take count

theorem readAround_eq {count : Nat} (inside : offset ≤ values.length) (bound : count ≤ values.length) :
    readAround values offset count = (values.rotate offset).take count := by
  rw [rotate_eq_drop_append_take inside]
  unfold readAround
  split
  · rename_i around
    have whole : (values.drop offset).take count = values.drop offset :=
      take_of_length_le (by rw [length_drop]; omega)
    rw [take_append, whole, length_drop, take_take, Nat.min_eq_left (by omega)]
  · rw [take_append_of_le_length (by rw [length_drop]; omega)]

theorem length_writeAround (inside : offset ≤ values.length) (bound : items.length ≤ values.length) :
    (writeAround values offset items).length = values.length := by
  unfold writeAround
  split
  · have first : (overlay values offset (items.take (values.length - offset))).length = values.length :=
      length_overlay (by rw [length_take]; omega)
    rw [length_overlay (by rw [first, length_drop]; omega), first]
  · exact length_overlay (by omega)

def distance (length offset slot : Nat) : Nat := if offset ≤ slot then slot - offset else slot + length - offset

theorem getElem?_writeAround (inside : offset < values.length) (bound : items.length ≤ values.length)
    (slotBound : slot < values.length) :
    (writeAround values offset items)[slot]? =
      if distance values.length offset slot < items.length then items[distance values.length offset slot]?
      else values[slot]? := by
  unfold writeAround distance
  split
  · rename_i around
    have first : (overlay values offset (items.take (values.length - offset))).length = values.length :=
      length_overlay (by rw [length_take]; omega)
    rw [getElem?_overlay (by rw [first, length_drop]; omega),
      getElem?_overlay (by rw [length_take]; omega)]
    simp only [length_drop, length_take, List.getElem?_drop, List.getElem?_take]
    grind
  · rw [getElem?_overlay (by omega)]
    grind

theorem add_mod_of_lt {length first second : Nat} (firstBound : first < length) (secondBound : second ≤ length) :
    (first + second) % length = if first + second < length then first + second else first + second - length := by
  split
  · exact Nat.mod_eq_of_lt ‹_›
  · rw [Nat.mod_eq_sub_mod (by omega), Nat.mod_eq_of_lt (by omega)]

theorem rotate_writeAround (inside : start < values.length) (bound : used + items.length ≤ values.length) :
    (writeAround values ((start + used) % values.length) items).rotate start =
      overlay (values.rotate start) used items := by
  have offsetBound : (start + used) % values.length < values.length := Nat.mod_lt _ (by omega)
  have sameLength : (writeAround values ((start + used) % values.length) items).length = values.length :=
    length_writeAround offsetBound.le (by omega)
  refine ext_getElem? fun index => ?_
  rw [getElem?_overlay (by rw [length_rotate]; exact bound)]
  by_cases within : index < values.length
  · rw [List.getElem?_rotate (by rw [sameLength]; exact within), sameLength,
      getElem?_writeAround offsetBound (by omega) (Nat.mod_lt _ (by omega)), List.getElem?_rotate within,
      Nat.add_comm index start, add_mod_of_lt inside (by omega : used ≤ values.length),
      add_mod_of_lt inside within.le]
    unfold distance
    grind
  · rw [List.getElem?_eq_none (by rw [length_rotate, sameLength]; omega),
      if_neg (by omega), List.getElem?_eq_none (by rw [length_rotate]; omega)]

theorem overlay_nil (values : List α) (offset : Nat) : overlay values offset [] = values := by
  simp [overlay]

theorem overlay_overlay {first second : List α} (inside : offset ≤ values.length)
    (fits : offset + first.length ≤ values.length) (reaches : offset + first.length = values.length ∨ second = []) :
    overlay (overlay values offset first) 0 second = writeAround values offset (first ++ second) := by
  unfold writeAround
  rcases reaches with full | rfl
  · have room : values.length - offset = first.length := by omega
    split
    · rw [room, take_left, drop_left]
    · rename_i short
      obtain rfl : second = [] := eq_nil_of_length_eq_zero (by rw [length_append] at short; omega)
      rw [overlay_nil, append_nil]
  · rw [overlay_nil, append_nil, if_neg (by omega)]

end Cyclic

end Library
