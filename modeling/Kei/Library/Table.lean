import Mathlib.Data.List.Range

/-! Rectangles of values as lists of rows, described by the value at each place. -/

namespace Library

open List Nat

variable {α : Type}

def table (width height : Nat) (picture : Nat → Nat → α) : List (List α) :=
  (List.range height).map fun y => (List.range width).map fun x => picture x y

variable {width height : Nat} {picture other : Nat → Nat → α}

@[simp] theorem length_table : (table width height picture).length = height := by
  simp [table]

theorem getElem?_table {y : Nat} (below : y < height) :
    (table width height picture)[y]? = some ((List.range width).map fun x => picture x y) := by
  simp [table, below]

theorem table_congr (same : ∀ x y, x < width → y < height → picture x y = other x y) :
    table width height picture = table width height other := by
  refine map_congr_left fun y rowBelow => map_congr_left fun x columnBelow => ?_
  exact same x y (mem_range.mp columnBelow) (mem_range.mp rowBelow)

theorem set_table {x y : Nat} {value : α} :
    (table width height picture).set y (((List.range width).map fun x => picture x y).set x value) =
      table width height fun x' y' => if x' = x ∧ y' = y then value else picture x' y' := by
  apply ext_getElem?
  intro row
  simp only [table, List.getElem?_set, List.getElem?_map, length_map, length_range]
  by_cases same : y = row
  · subst same
    by_cases below : y < height
    · simp only [below, if_true, getElem?_range below, Option.map_some, Option.some.injEq]
      apply ext_getElem?
      intro column
      grind
    · simp [below]
  · grind

theorem map_widen_table {wide : Nat} {blank : α} (more : width ≤ wide)
    (empty : ∀ x y, width ≤ x → picture x y = blank) :
    (table width height picture).map (fun row => (row ++ List.replicate (wide - row.length) blank).take wide) =
      table wide height picture := by
  simp only [table, map_map]
  refine map_congr_left fun y _ => ?_
  apply ext_getElem?
  intro column
  simp only [Function.comp_apply, length_map, length_range]
  rw [take_of_length_le (by simp; omega)]
  by_cases inside : column < width
  · rw [List.getElem?_append_left (by simpa using inside)]
    simp [inside, lt_of_lt_of_le inside more]
  · rw [List.getElem?_append_right (by simp; omega), List.getElem?_replicate]
    by_cases within : column < wide
    · rw [if_pos (by simp; omega)]
      simp [within, empty column y (by omega)]
    · rw [if_neg (by simp; omega)]
      simp [within]

theorem table_append_rows {tall : Nat} {blank : α} (more : height ≤ tall)
    (empty : ∀ x y, height ≤ y → picture x y = blank) :
    table width height picture ++ List.replicate (tall - height) (List.replicate width blank) =
      table width tall picture := by
  apply ext_getElem?
  intro row
  by_cases inside : row < height
  · rw [List.getElem?_append_left (by simpa using inside), getElem?_table inside,
      getElem?_table (lt_of_lt_of_le inside more)]
  · rw [List.getElem?_append_right (by simpa using inside), List.getElem?_replicate, length_table]
    by_cases within : row < tall
    · rw [if_pos (by omega), getElem?_table within]
      congr 1
      apply ext_getElem
      · simp
      · intro column _ _
        simp [empty column row (by omega)]
    · rw [if_neg (by omega)]
      simp [table, within]

theorem table_succ : table width (height + 1) picture =
    table width height picture ++ [(List.range width).map fun x => picture x height] := by
  simp [table, range_succ]

theorem length_flatten_table : (table width height picture).flatten.length = width * height := by
  induction height with
  | zero => simp [table]
  | succ height ih =>
    rw [table_succ, flatten_append, length_append, ih]
    simp [mul_succ]

theorem getElem?_flatten_table {x y : Nat} (inside : x < width) (below : y < height) :
    (table width height picture).flatten[y * width + x]? = some (picture x y) := by
  induction height with
  | zero => omega
  | succ height ih =>
    rw [table_succ, flatten_append]
    have size : (table width height picture).flatten.length = width * height := length_flatten_table
    by_cases last : y = height
    · subst last
      have start : y * width + x - width * y = x := by rw [Nat.mul_comm, Nat.add_sub_cancel_left]
      rw [List.getElem?_append_right (by rw [size, Nat.mul_comm]; exact Nat.le_add_right _ _), size, start]
      simp [inside]
    · have upper : y < height := by omega
      rw [List.getElem?_append_left, ih upper]
      calc y * width + x < y * width + width := Nat.add_lt_add_left inside _
        _ = width * (y + 1) := by rw [Nat.mul_comm, Nat.mul_succ]
        _ ≤ width * height := mul_le_mul_left _ upper
        _ = _ := size.symm

end Library
