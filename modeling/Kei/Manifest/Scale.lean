import Mathlib.Algebra.Order.Field.Basic
import Mathlib.Tactic.Linarith
import Mathlib.Tactic.Ring
import Kei.Library.Checked

/-! Scale transforms (`manifest/scale.rs`), with the arithmetic of `f32` and `f64` read over the
rationals. A table is searched by halving; the search keeps `x[lo] ≤ raw < x[hi]`, whatever
the order of the table is. -/

namespace Kei.Manifest

open Library Checked List Nat

def epsilon : ℚ := 1 / 2 ^ 23

def search (x : List ℚ) (raw : ℚ) : Nat → Nat → Nat → Checked (Nat × Nat)
  | 0, _, _ => .error .hang
  | fuel + 1, lo, hi => do
    if (← sub hi lo) > 1 then
      let mid := (lo + hi) / 2
      if (← index x mid) ≤ raw then search x raw fuel mid hi else search x raw fuel lo mid
    else return (lo, hi)

def blend (x0 x1 y0 y1 raw : ℚ) : ℚ :=
  if |x1 - x0| < epsilon then y0 else y0 + (raw - x0) * (y1 - y0) / (x1 - x0)

def interpolate (x y : List ℚ) (raw : ℚ) : Checked ℚ := do
  if x.isEmpty ∨ y.isEmpty then
    return raw
  if x.length = 1 ∨ raw ≤ (← index x 0) then
    return ← index y 0
  if raw ≥ (← index x (← sub x.length 1)) then
    return ← index y (← sub y.length 1)
  let (lo, hi) ← search x raw x.length 0 (← sub x.length 1)
  return blend (← index x lo) (← index x hi) (← index y lo) (← index y hi) raw

inductive ScaleTransform (υ : Type)
  | passthrough
  | linear (factor offset : ℚ) (unit : Option υ)
  | table (x y : List ℚ) (unit : Option υ)
  | polynomial (coeffs : List ℚ) (unit : Option υ)

namespace ScaleTransform

variable {υ : Type}

def apply (raw : ℚ) : ScaleTransform υ → Checked ℚ
  | passthrough => return raw
  | linear factor offset _ => return raw * factor + offset
  | table x y _ => interpolate x y raw
  | polynomial coeffs _ => return coeffs.reverse.foldl (fun result c => result * raw + c) 0

def applyWithUnit (transform : ScaleTransform υ) (raw : ℚ) (defaultUnit : υ) : Checked (ℚ × υ) := do
  let scaled ← transform.apply raw
  let unit := match transform with
    | linear _ _ (some unit) | table _ _ (some unit) | polynomial _ (some unit) => unit
    | _ => defaultUnit
  return (scaled, unit)

theorem horner_eq (coeffs : List ℚ) (raw : ℚ) (degree : Nat) :
    raw ^ degree * coeffs.foldr (fun c result => result * raw + c) 0 =
      (coeffs.mapIdx fun i c => c * raw ^ (i + degree)).sum := by
  induction coeffs generalizing degree with
  | nil => simp
  | cons c coeffs ih =>
    have shifted := ih (degree + 1)
    simp only [foldr_cons, mapIdx_cons, sum_cons, zero_add]
    simp only [show ∀ i, i + 1 + degree = i + (degree + 1) by omega]
    rw [← shifted]
    ring

theorem apply_polynomial (coeffs : List ℚ) (unit : Option υ) (raw : ℚ) :
    apply raw (polynomial coeffs unit) = .ok (coeffs.mapIdx fun i c => c * raw ^ i).sum := by
  have sum := horner_eq coeffs raw 0
  rw [pow_zero, one_mul] at sum
  rw [apply, foldl_reverse, sum]
  rfl

end ScaleTransform

section Search

variable {x : List ℚ} {raw : ℚ}

structure Brackets (x : List ℚ) (raw : ℚ) (lo : Nat) (x0 x1 : ℚ) : Prop where
  left : x[lo]? = some x0
  right : x[lo + 1]? = some x1
  below : x0 ≤ raw
  above : raw < x1

theorem search_brackets (fuel : Nat) {lo hi : Nat} {x0 x1 : ℚ} (left : x[lo]? = some x0)
    (right : x[hi]? = some x1) (below : x0 ≤ raw) (above : raw < x1) (order : lo < hi)
    (enough : hi ≤ lo + fuel) :
    ∃ found x0 x1, search x raw fuel lo hi = .ok (found, found + 1) ∧ Brackets x raw found x0 x1 := by
  induction fuel generalizing lo hi x0 x1 with
  | zero => omega
  | succ fuel ih =>
    simp only [search, sub_ok (le_of_lt order), bind_ok]
    by_cases apart : hi - lo > 1
    · have within : (lo + hi) / 2 < x.length := by
        have := (List.getElem?_eq_some_iff.mp right).1
        omega
      have middle : x[(lo + hi) / 2]? = some (x[(lo + hi) / 2]) := getElem?_eq_getElem within
      rw [if_pos apart, index_getElem? middle, bind_ok]
      split
      · exact ih middle right ‹_› above (by omega) (by omega)
      · exact ih left middle below (lt_of_not_ge ‹_›) (by omega) (by omega)
    · have next : hi = lo + 1 := by omega
      subst next
      rw [if_neg apart]
      exact ⟨lo, x0, x1, rfl, left, right, below, above⟩

end Search

section Blend

variable {x0 x1 y0 y1 raw later : ℚ}

theorem blend_eq (apart : ¬|x1 - x0| < epsilon) :
    blend x0 x1 y0 y1 raw = y0 + (raw - x0) / (x1 - x0) * (y1 - y0) := by
  rw [blend, if_neg apart]
  ring

theorem blend_between (below : x0 ≤ raw) (above : raw < x1) :
    min y0 y1 ≤ blend x0 x1 y0 y1 raw ∧ blend x0 x1 y0 y1 raw ≤ max y0 y1 := by
  by_cases near : |x1 - x0| < epsilon
  · rw [blend, if_pos near]
    exact ⟨min_le_left _ _, le_max_left _ _⟩
  · have width : 0 < x1 - x0 := by linarith
    have least : 0 ≤ (raw - x0) / (x1 - x0) := div_nonneg (by linarith) width.le
    have most : (raw - x0) / (x1 - x0) ≤ 1 := (div_le_one width).mpr (by linarith)
    rw [blend_eq near]
    rcases le_total y0 y1 with rising | falling
    · rw [min_eq_left rising, max_eq_right rising]
      constructor
      · nlinarith
      · nlinarith
    · rw [min_eq_right falling, max_eq_left falling]
      constructor
      · nlinarith
      · nlinarith

theorem blend_mono (below : x0 ≤ raw) (above : later < x1) (order : raw ≤ later)
    (rising : y0 ≤ y1) : blend x0 x1 y0 y1 raw ≤ blend x0 x1 y0 y1 later := by
  by_cases near : |x1 - x0| < epsilon
  · rw [blend, blend, if_pos near, if_pos near]
  · have width : 0 < x1 - x0 := by linarith
    rw [blend_eq near, blend_eq near]
    gcongr

end Blend

inductive Reading (x y : List ℚ) (raw : ℚ) : ℚ → Prop
  | first {x0 y0 : ℚ} (headX : x[0]? = some x0) (headY : y[0]? = some y0)
      (low : x.length = 1 ∨ raw ≤ x0) : Reading x y raw y0
  | last {x0 x1 y1 : ℚ} (headX : x[0]? = some x0) (lastX : x[x.length - 1]? = some x1)
      (lastY : y[y.length - 1]? = some y1) (several : x.length ≠ 1) (past : x0 < raw)
      (high : x1 ≤ raw) : Reading x y raw y1
  | inside {x0 left right y0 y1 : ℚ} {lo : Nat} (headX : x[0]? = some x0) (past : x0 < raw)
      (searched : search x raw x.length 0 (x.length - 1) = .ok (lo, lo + 1))
      (around : Brackets x raw lo left right) (leftY : y[lo]? = some y0)
      (rightY : y[lo + 1]? = some y1) : Reading x y raw (blend left right y0 y1 raw)

section Tables

variable {x y : List ℚ} {raw later value next : ℚ}

theorem interpolate_reading (same : x.length = y.length) (filled : 1 ≤ x.length) (raw : ℚ) :
    ∃ value, interpolate x y raw = .ok value ∧ Reading x y raw value := by
  obtain ⟨x0, headX⟩ : ∃ value, x[0]? = some value := ⟨_, List.getElem?_eq_getElem filled⟩
  obtain ⟨y0, headY⟩ : ∃ value, y[0]? = some value := ⟨_, List.getElem?_eq_getElem (by omega)⟩
  obtain ⟨x1, lastX⟩ : ∃ value, x[x.length - 1]? = some value := ⟨_, List.getElem?_eq_getElem (by omega)⟩
  obtain ⟨y1, lastY⟩ : ∃ value, y[y.length - 1]? = some value := ⟨_, List.getElem?_eq_getElem (by omega)⟩
  have entries : ¬(x.isEmpty = true ∨ y.isEmpty = true) := by
    rw [List.isEmpty_iff, List.isEmpty_iff, ← List.length_eq_zero_iff, ← List.length_eq_zero_iff]
    omega
  rw [interpolate, if_neg entries]
  simp only [index_getElem? headX, index_getElem? headY, index_getElem? lastX, index_getElem? lastY,
    sub_ok filled, sub_ok (same ▸ filled : 1 ≤ y.length), bind_ok]
  by_cases low : x.length = 1 ∨ raw ≤ x0
  · rw [if_pos low]
    exact ⟨y0, rfl, .first headX headY low⟩
  · rw [if_neg low]
    obtain ⟨several, past⟩ := not_or.mp low
    have past := lt_of_not_ge past
    by_cases high : raw ≥ x1
    · rw [if_pos high]
      exact ⟨y1, rfl, .last headX lastX lastY several past high⟩
    · rw [if_neg high]
      obtain ⟨lo, left, right, searched, around⟩ :=
        search_brackets x.length headX lastX past.le (lt_of_not_ge high) (by omega) (by omega)
      have within : lo + 1 < x.length := (List.getElem?_eq_some_iff.mp around.right).1
      obtain ⟨leftValue, leftY⟩ : ∃ value, y[lo]? = some value := ⟨_, List.getElem?_eq_getElem (by omega)⟩
      obtain ⟨rightValue, rightY⟩ : ∃ value, y[lo + 1]? = some value :=
        ⟨_, List.getElem?_eq_getElem (by omega)⟩
      refine ⟨_, ?_, .inside headX past searched around leftY rightY⟩
      simp only [searched, bind_ok, index_getElem? around.left, index_getElem? around.right,
        index_getElem? leftY, index_getElem? rightY]
      rfl

theorem ordered {values : List ℚ} (sorted : values.Pairwise (· ≤ ·)) {i j : Nat} {a b : ℚ}
    (first : values[i]? = some a) (second : values[j]? = some b) (order : i ≤ j) : a ≤ b := by
  obtain ⟨withinI, rfl⟩ := List.getElem?_eq_some_iff.mp first
  obtain ⟨withinJ, rfl⟩ := List.getElem?_eq_some_iff.mp second
  rcases eq_or_lt_of_le order with rfl | strict
  · exact le_refl _
  · exact pairwise_iff_getElem.mp sorted i j withinI withinJ strict

theorem Reading.between (reading : Reading x y raw value) :
    ∃ (i j : Nat) (bottom top : ℚ), y[i]? = some bottom ∧ y[j]? = some top ∧
      min bottom top ≤ value ∧ value ≤ max bottom top := by
  cases reading with
  | first headX headY low => exact ⟨0, 0, _, _, headY, headY, min_le_left _ _, le_max_left _ _⟩
  | last headX lastX lastY several past high =>
    exact ⟨_, _, _, _, lastY, lastY, min_le_left _ _, le_max_left _ _⟩
  | inside headX past searched around leftY rightY =>
    exact ⟨_, _, _, _, leftY, rightY, blend_between around.below around.above⟩

theorem Reading.head_le (sortedY : y.Pairwise (· ≤ ·)) (reading : Reading x y raw value) {y0 : ℚ}
    (headY : y[0]? = some y0) : y0 ≤ value := by
  obtain ⟨i, j, bottom, top, foundI, foundJ, least, _⟩ := reading.between
  have first := ordered sortedY headY foundI (zero_le i)
  have second := ordered sortedY headY foundJ (zero_le j)
  exact (le_min first second).trans least

theorem Reading.le_last (sortedY : y.Pairwise (· ≤ ·)) (reading : Reading x y raw value) {y1 : ℚ}
    (lastY : y[y.length - 1]? = some y1) : value ≤ y1 := by
  obtain ⟨i, j, bottom, top, foundI, foundJ, _, most⟩ := reading.between
  have withinI := (List.getElem?_eq_some_iff.mp foundI).1
  have withinJ := (List.getElem?_eq_some_iff.mp foundJ).1
  have first := ordered sortedY foundI lastY (by omega)
  have second := ordered sortedY foundJ lastY (by omega)
  exact most.trans (max_le first second)

theorem Reading.not_first {x0 : ℚ} (headX : x[0]? = some x0) (several : x.length ≠ 1)
    (past : x0 < raw) (order : raw ≤ later) {x0' : ℚ} (headX' : x[0]? = some x0')
    (low : x.length = 1 ∨ later ≤ x0') : False := by
  have same : x0 = x0' := Option.some.inj (headX.symm.trans headX')
  rcases low with short | low
  · exact several short
  · exact absurd (past.trans_le (order.trans low)) (same ▸ lt_irrefl x0)

theorem Brackets.blend_le (sortedX : x.Pairwise (· ≤ ·)) (sortedY : y.Pairwise (· ≤ ·)) {lo hi : Nat}
    {left right left' right' y0 y1 y0' y1' : ℚ} (one : Brackets x raw lo left right)
    (two : Brackets x later hi left' right') (order : raw ≤ later) (leftY : y[lo]? = some y0)
    (rightY : y[lo + 1]? = some y1) (leftY' : y[hi]? = some y0') (rightY' : y[hi + 1]? = some y1') :
    blend left right y0 y1 raw ≤ blend left' right' y0' y1' later := by
  rcases lt_trichotomy lo hi with before | rfl | after
  · have rising := ordered sortedY leftY rightY (le_succ lo)
    have rising' := ordered sortedY leftY' rightY' (le_succ hi)
    calc blend left right y0 y1 raw
        ≤ max y0 y1 := (blend_between one.below one.above).2
      _ = y1 := max_eq_right rising
      _ ≤ y0' := ordered sortedY rightY leftY' before
      _ = min y0' y1' := (min_eq_left rising').symm
      _ ≤ blend left' right' y0' y1' later := (blend_between two.below two.above).1
  · obtain rfl : left = left' := Option.some.inj (one.left.symm.trans two.left)
    obtain rfl : right = right' := Option.some.inj (one.right.symm.trans two.right)
    obtain rfl : y0 = y0' := Option.some.inj (leftY.symm.trans leftY')
    obtain rfl : y1 = y1' := Option.some.inj (rightY.symm.trans rightY')
    exact blend_mono one.below two.above order (ordered sortedY leftY rightY (le_succ lo))
  · have bound := ordered sortedX two.right one.left after
    exact absurd two.above (not_lt.mpr (bound.trans (one.below.trans order)))

theorem Reading.le (sortedX : x.Pairwise (· ≤ ·)) (sortedY : y.Pairwise (· ≤ ·))
    (one : Reading x y raw value) (two : Reading x y later next) (order : raw ≤ later) :
    value ≤ next := by
  have one' := one
  cases one with
  | first _ headY _ => exact two.head_le sortedY headY
  | last headX lastX _ several past high =>
    cases two with
    | first headX' _ low => exact (not_first headX several past order headX' low).elim
    | last _ _ lastY _ _ _ => exact one'.le_last sortedY lastY
    | inside _ _ _ around _ _ =>
      have within := (List.getElem?_eq_some_iff.mp around.right).1
      have bound := ordered sortedX around.right lastX (by omega)
      exact absurd around.above (not_lt.mpr (bound.trans (high.trans order)))
  | inside headX past _ around leftY rightY =>
    have within := (List.getElem?_eq_some_iff.mp around.right).1
    cases two with
    | first headX' _ low => exact (not_first headX (by omega) past order headX' low).elim
    | last _ _ lastY _ _ _ => exact one'.le_last sortedY lastY
    | inside _ _ _ around' leftY' rightY' =>
      exact around.blend_le sortedX sortedY around' order leftY rightY leftY' rightY'

/-- On a table of matching lengths `interpolate` returns, clamps at both ends and in between
searches down to two neighbours and stays between their values; if the values ascend with
the points, so does the result with the raw value. -/
theorem interpolate_sound (sortedX : x.Pairwise (· ≤ ·)) (same : x.length = y.length)
    (filled : 1 ≤ x.length) :
    (∀ raw, ∃ value, interpolate x y raw = .ok value ∧
      ((x.length = 1 ∨ ∃ x0, x[0]? = some x0 ∧ raw ≤ x0) ∧ y[0]? = some value ∨
        (∃ x1, x[x.length - 1]? = some x1 ∧ x1 ≤ raw) ∧ y[y.length - 1]? = some value ∨
        ∃ lo x0 x1 y0 y1, search x raw x.length 0 (x.length - 1) = .ok (lo, lo + 1) ∧
          x[lo]? = some x0 ∧ x[lo + 1]? = some x1 ∧ y[lo]? = some y0 ∧ y[lo + 1]? = some y1 ∧
          x0 ≤ raw ∧ raw < x1 ∧ min y0 y1 ≤ value ∧ value ≤ max y0 y1)) ∧
    (y.Pairwise (· ≤ ·) → ∀ raw later value next, raw ≤ later →
      interpolate x y raw = .ok value → interpolate x y later = .ok next → value ≤ next) := by
  constructor
  · intro raw
    obtain ⟨value, ran, reading⟩ := interpolate_reading same filled raw
    refine ⟨value, ran, ?_⟩
    cases reading with
    | first headX headY low => exact .inl ⟨low.imp_right fun low => ⟨_, headX, low⟩, headY⟩
    | last _ lastX lastY _ _ high => exact .inr (.inl ⟨⟨_, lastX, high⟩, lastY⟩)
    | inside _ _ searched around leftY rightY =>
      exact .inr (.inr ⟨_, _, _, _, _, searched, around.left, around.right, leftY, rightY,
        around.below, around.above, blend_between around.below around.above⟩)
  · intro sortedY raw later value next order ran ranLater
    obtain ⟨_, found, one⟩ := interpolate_reading same filled raw
    obtain ⟨_, foundLater, two⟩ := interpolate_reading same filled later
    cases ran.symm.trans found
    cases ranLater.symm.trans foundLater
    exact one.le sortedX sortedY two order

/-- A table with a repeated point. -/
theorem interpolate_repeated :
    (∃ value, interpolate [0, 100, 100, 200] [-50, 50, 60, 150] 100 = .ok value ∧ value = 60) ∧
      ∀ raw later value next, raw ≤ later →
        interpolate [0, 100, 100, 200] [-50, 50, 60, 150] raw = .ok value →
        interpolate [0, 100, 100, 200] [-50, 50, 60, 150] later = .ok next → value ≤ next := by
  have sortedX : ([0, 100, 100, 200] : List ℚ).Pairwise (· ≤ ·) := by decide
  have sortedY : ([-50, 50, 60, 150] : List ℚ).Pairwise (· ≤ ·) := by decide
  have same : ([0, 100, 100, 200] : List ℚ).length = ([-50, 50, 60, 150] : List ℚ).length := rfl
  exact ⟨⟨60, by decide +kernel, rfl⟩, (interpolate_sound sortedX same (by decide)).2 sortedY⟩

end Tables

end Kei.Manifest
