import Kei.Framebuffer.Sixel
import Kei.Library.Settles
import Kei.Library.Table

/-! What growing the grid and writing a column do to the picture in it, for pixels of any
type. A picture gives a color to every place and is blank outside the grid. -/

namespace Kei.Framebuffer

open Library Checked Nat List

variable {α : Type}

def Room (size columns band : Nat) : Prop :=
  columns * size ≤ isizeMax ∧ (band + 1) * 6 * vecSize ≤ isizeMax

instance (size columns band : Nat) : Decidable (Room size columns band) :=
  inferInstanceAs (Decidable (_ ∧ _))

def painted (picture : Nat → Nat → α) (x count band bits : Nat) (color : α) : Nat → Nat → α :=
  fun px py => if (x ≤ px ∧ px < x + count) ∧ py / 6 = band ∧ bits.testBit (py % 6) then color
    else picture px py

structure Shows (size : Nat) (blank : α) (grid : List (List α)) (width height : Nat)
    (picture : Nat → Nat → α) : Prop where
  rows : grid = table width height picture
  right : ∀ x y, width ≤ x → picture x y = blank
  below : ∀ x y, height ≤ y → picture x y = blank
  narrow : width * size ≤ isizeMax
  short : height * vecSize ≤ isizeMax

theorem withCapacity_settles (size count : Nat) :
    Settles (count * size ≤ isizeMax) (withCapacity size count) fun _ => True :=
  settles_ite trivial

theorem mapM_settles {β : Type} {step : α → Checked β} {result : α → β} {condition : Prop}
    (each : ∀ value, Settles condition (step value) fun found => found = result value) (values : List α) :
    Settles (values = [] ∨ condition) (values.mapM step) fun found => found = values.map result := by
  induction values with
  | nil => exact ⟨.inl rfl, rfl⟩
  | cons value values ih =>
    rw [mapM_cons]
    refine ((each value).bind _ fun first _ same => (ih.map fun rest _ others => ?_)).congr ?_
    · exact cons_eq_cons.mpr ⟨same, others⟩
    · simp only [cons_ne_nil, false_or]
      exact ⟨And.left, fun holds => ⟨holds, .inr holds⟩⟩

section Growing

variable {size width height : Nat} {blank : α} {grid : List (List α)} {picture : Nat → Nat → α}

theorem growWidth_settles (needW : Nat) (right : ∀ x y, width ≤ x → picture x y = blank)
    (narrow : width * size ≤ isizeMax) :
    Settles (height = 0 ∨ needW * size ≤ isizeMax)
      (growWidth size blank (table width height picture) width needW)
      fun grown => grown = (table (max width needW) height picture, max width needW) := by
  unfold growWidth
  split
  · rename_i wider
    have each (row : List α) : Settles (needW * size ≤ isizeMax) (resize size needW blank row)
        fun wide => wide = (row ++ replicate (needW - row.length) blank).take needW :=
      (withCapacity_settles size needW).map fun _ _ _ => rfl
    refine ((mapM_settles each _).map fun rows _ same => ?_).congr ?_
    · rw [same, map_widen_table (le_of_lt wider) right, max_eq_right (le_of_lt wider)]
    · rw [← length_eq_zero_iff, length_table]
  · rename_i enough
    have fits : needW * size ≤ isizeMax :=
      le_trans (mul_le_mul_right size (not_lt.mp enough)) narrow
    rw [max_eq_left (not_lt.mp enough)]
    exact ⟨.inr fits, rfl⟩

theorem growHeight_settles (needH : Nat) (below : ∀ x y, height ≤ y → picture x y = blank) :
    Settles (needH ≤ height ∨ width * size ≤ isizeMax ∧ needH * vecSize ≤ isizeMax)
      (growHeight size blank (table width height picture) width height needH)
      fun grown => grown = (table width (max height needH) picture, max height needH) := by
  unfold growHeight
  split
  · rename_i taller
    refine ((withCapacity_settles size width).bind _ fun _ _ _ =>
      (withCapacity_settles vecSize needH).map fun _ _ _ => ?_).congr ?_
    · rw [table_append_rows (le_of_lt taller) below, max_eq_right (le_of_lt taller)]
    · rw [or_iff_right (not_le.mpr taller)]
  · rename_i enough
    rw [max_eq_left (not_lt.mp enough)]
    exact ⟨.inl (not_lt.mp enough), rfl⟩

theorem growGrid_settles (shows : Shows size blank grid width height picture) (needW band : Nat) :
    Settles (Room size needW band) (growGrid size blank grid width height needW ((band + 1) * 6))
      fun grown => grown = (table (max width needW) (max height ((band + 1) * 6)) picture,
        max width needW, max height ((band + 1) * 6)) := by
  obtain ⟨rfl, right, below, narrow, short⟩ := shows
  have wide : max width needW * size ≤ isizeMax ↔ needW * size ≤ isizeMax := by
    rcases le_total width needW with wider | enough
    · rw [max_eq_right wider]
    · rw [max_eq_left enough]
      exact iff_of_true narrow (le_trans (mul_le_mul_right size enough) narrow)
  have tall : (band + 1) * 6 ≤ height → (band + 1) * 6 * vecSize ≤ isizeMax := fun within =>
    le_trans (mul_le_mul_right _ within) short
  refine ((growWidth_settles needW right narrow).bind_eq
    ((growHeight_settles ((band + 1) * 6) below).map fun taller _ same => ?_)).congr ?_
  · rw [same]
  · rw [wide, Room]
    constructor
    · rintro ⟨low | first, within | ⟨first', second⟩⟩
      · omega
      · exact ⟨first', second⟩
      · exact ⟨first, tall within⟩
      · exact ⟨first', second⟩
    · rintro ⟨first, second⟩
      exact ⟨.inr first, .inr ⟨first, second⟩⟩

theorem Shows.grown (shows : Shows size blank grid width height picture) {needW band : Nat}
    (room : Room size needW band) :
    Shows size blank (table (max width needW) (max height ((band + 1) * 6)) picture) (max width needW)
      (max height ((band + 1) * 6)) picture where
  rows := rfl
  right x y outside := shows.right x y (le_trans (le_max_left _ _) outside)
  below x y outside := shows.below x y (le_trans (le_max_left _ _) outside)
  narrow := by
    rcases le_total width needW with wider | enough
    · rw [max_eq_right wider]
      exact room.1
    · rw [max_eq_left enough]
      exact shows.narrow
  short := by
    rcases le_total height ((band + 1) * 6) with taller | enough
    · rw [max_eq_right taller]
      exact room.2
    · rw [max_eq_left enough]
      exact shows.short

end Growing

theorem writeSixelBits_table {width height x band bits count : Nat} {picture : Nat → Nat → α} (color : α)
    (inside : x < width) (tall : (band + 1) * 6 ≤ height) (few : count ≤ 6) :
    (range count).foldlM (writeSixelBit x band bits color) (table width height picture) =
      .ok (table width height fun px py =>
        if px = x ∧ py / 6 = band ∧ py % 6 < count ∧ bits.testBit (py % 6) then color
        else picture px py) := by
  induction count with
  | zero => simp [pure_eq_ok]
  | succ count ih =>
    rw [range_succ, foldlM_append, ih (by omega), bind_ok]
    simp only [foldlM_cons, foldlM_nil, bind_pure, writeSixelBit]
    by_cases bit : bits.testBit count
    · have below : band * 6 + count < height := by omega
      rw [if_pos bit]
      rw [if_pos (by rwa [length_table]), index_getElem? (getElem?_table below), bind_ok, store,
        if_pos (by simpa using inside), bind_ok, store, if_pos (by rwa [length_table]), set_table]
      congr 1
      refine table_congr fun px py _ _ => ?_
      have place : py = band * 6 + count ↔ py / 6 = band ∧ py % 6 = count := by omega
      simp only [place]
      grind
    · rw [if_neg bit]
      congr 1
      refine table_congr fun px py _ _ => ?_
      grind

theorem writeSixelColumn_table {width height x band bits : Nat} {picture : Nat → Nat → α} (color : α)
    (inside : x < width) (tall : (band + 1) * 6 ≤ height) :
    writeSixelColumn (table width height picture) width x band bits color =
      .ok (table width height (painted picture x 1 band bits color)) := by
  rw [writeSixelColumn, if_neg (not_le.mpr inside), writeSixelBits_table color inside tall (le_refl 6)]
  congr 1
  refine table_congr fun px py _ _ => ?_
  have column : px = x ↔ x ≤ px ∧ px < x + 1 := by omega
  simp only [painted, column, mod_lt _ (by decide : 0 < 6), true_and]

theorem painted_zero (picture : Nat → Nat → α) (x band bits : Nat) (color : α) :
    painted picture x 0 band bits color = picture := by
  funext px py
  exact if_neg fun hit => by omega

theorem painted_painted (picture : Nat → Nat → α) (x first second band bits : Nat) (color : α) :
    painted (painted picture x first band bits color) (x + first) second band bits color =
      painted picture x (first + second) band bits color := by
  funext px py
  simp only [painted]
  by_cases row : py / 6 = band ∧ bits.testBit (py % 6) = true
  · simp only [row, and_true]
    split_ifs <;> first | rfl | omega
  · simp only [row, and_false, if_false]

theorem Shows.paint {size width height x count band bits : Nat} {blank : α} {grid : List (List α)}
    {picture : Nat → Nat → α} (shows : Shows size blank grid width height picture) (color : α)
    (inside : x + count ≤ width) (tall : (band + 1) * 6 ≤ height) :
    Shows size blank (table width height (painted picture x count band bits color)) width height
      (painted picture x count band bits color) where
  __ := shows
  rows := rfl
  right px py outside := by
    rw [painted, if_neg fun hit => by omega]
    exact shows.right px py outside
  below px py outside := by
    rw [painted, if_neg fun hit => by omega]
    exact shows.below px py outside

end Kei.Framebuffer
