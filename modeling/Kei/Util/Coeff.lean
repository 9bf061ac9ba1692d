import Kei.Library.Checked
import Mathlib.Data.Nat.Size
import Mathlib.Data.Rat.Floor
import Mathlib.Tactic.Positivity
import Mathlib.Tactic.Qify

/-! A fraction as a multiplier and a shift (`aster-util/src/coeff.rs`), for products without a
division: the largest shift is taken for which the multiplier has few enough bits. -/

namespace Kei.Util

open Library Checked

structure Coeff where
  mult : Nat
  shift : Nat
  maxMultiplier : Nat

namespace Coeff

def countBits (tmp shiftAcc : Nat) : Nat :=
  if 0 < tmp then countBits (tmp / 2) (shiftAcc - 1) else shiftAcc

def shiftAcc (maxMultiplier : Nat) : Nat := countBits (maxMultiplier / 2 ^ 32) 32

def search (numerator denominator shiftAcc : Nat) : Nat → Nat → Checked (Nat × Nat)
  | 0, mult => .ok (mult, 0)
  | shift + 1, _ => do
    -- the shift drops the bits that leave the word, the sum is checked
    let sum ← add (2 ^ 64 - 1) (numerator * 2 ^ (shift + 1) % 2 ^ 64) (denominator / 2)
    if sum / denominator / 2 ^ shiftAcc = 0 then return (sum / denominator, shift + 1)
    else search numerator denominator shiftAcc shift (sum / denominator)

def new (numerator denominator maxMultiplier : Nat) : Checked Coeff := do
  assert (maxMultiplier < 2 ^ 40)
  let (mult, shift) ← search numerator denominator (shiftAcc maxMultiplier) 32 0
  return ⟨mult % 2 ^ 32, shift, maxMultiplier⟩

def mul (coeff : Coeff) (rhs : Nat) : Checked Nat := do
  assert (rhs ≤ coeff.maxMultiplier)
  return (← Checked.mul (2 ^ 64 - 1) rhs coeff.mult) / 2 ^ coeff.shift

def mulU32 (coeff : Coeff) (rhs : Nat) : Checked Nat := do
  return (← coeff.mul rhs) % 2 ^ 32

def rounded (n d shift : Nat) : Nat := (n * 2 ^ shift + d / 2) / d

variable {n d m : Nat}

theorem countBits_eq (tmp acc : Nat) : countBits tmp acc = acc - tmp.size := by
  fun_induction countBits tmp acc with
  | case1 tmp acc positive ih =>
    have half : tmp.size = (tmp / 2).size + 1 := by
      have counted := @Nat.size_bit tmp.bodd tmp.div2 (by rw [Nat.bit_bodd_div2]; omega)
      rwa [Nat.bit_bodd_div2, Nat.div2_val] at counted
    omega
  | case2 tmp acc zero =>
    obtain rfl : tmp = 0 := by omega
    rfl

theorem shiftAcc_eq (m : Nat) : shiftAcc m = 32 - (m / 2 ^ 32).size := countBits_eq _ _

theorem shiftAcc_bounds (small : m < 2 ^ 40) :
    24 ≤ shiftAcc m ∧ shiftAcc m ≤ 32 ∧ m < 2 ^ (32 - shiftAcc m) * 2 ^ 32 := by
  have few : (m / 2 ^ 32).size ≤ 8 := Nat.size_le.mpr (by omega)
  have counted := (Nat.div_lt_iff_lt_mul (by decide)).mp (Nat.lt_size_self (m / 2 ^ 32))
  rw [shiftAcc_eq, Nat.sub_sub_self (by omega)]
  exact ⟨by omega, Nat.sub_le _ _, counted⟩

theorem search_le {acc shift start mult last : Nat} (ran : search n d acc shift start = .ok (mult, last)) :
    last ≤ shift := by
  induction shift generalizing start with
  | zero =>
    cases ran
    exact le_refl 0
  | succ shift ih =>
    obtain ⟨sum, -, rest⟩ := bind_eq_ok.mp ran
    split at rest
    · cases rest
      exact le_refl _
    · exact (ih rest).trans (Nat.le_succ _)

/-- Without an overflow the search ends at the first shift whose multiplier has few enough
bits; if there is none it keeps the multiplier of the shift 1 and returns the shift 0. -/
theorem search_spec (acc : Nat) {shift : Nat} (fits : n * 2 ^ shift + d / 2 < 2 ^ 64) (start : Nat) :
    ∃ mult last, search n d acc shift start = .ok (mult, last) ∧
      (0 < last ∧ mult = rounded n d last ∧ mult < 2 ^ acc ∨
        last = 0 ∧ (shift ≠ 0 → mult = rounded n d 1 ∧ 2 ^ acc ≤ mult)) := by
  induction shift generalizing start with
  | zero => exact ⟨start, 0, rfl, .inr ⟨rfl, absurd rfl⟩⟩
  | succ shift ih =>
    rw [search, Nat.mod_eq_of_lt (by omega), add_ok (by omega), bind_ok]
    simp only [Nat.div_eq_zero_iff_lt (Nat.two_pow_pos acc)]
    split
    · rename_i few
      exact ⟨_, _, rfl, .inl ⟨Nat.succ_pos shift, rfl, few⟩⟩
    · rename_i many
      rw [Nat.pow_succ, ← Nat.mul_assoc] at fits
      obtain ⟨mult, last, ran, found | ⟨none, same⟩⟩ := ih (by omega) (rounded n d (shift + 1))
      · exact ⟨mult, last, ran, .inl found⟩
      · refine ⟨mult, last, ran, .inr ⟨none, fun _ => ?_⟩⟩
        cases shift with
        | zero =>
          cases ran
          exact ⟨rfl, Nat.not_lt.mp many⟩
        | succ shift => exact same (Nat.succ_ne_zero shift)

theorem rounded_bounds (positive : 0 < d) (n shift : Nat) :
    2 * (rounded n d shift * d) ≤ 2 * (n * 2 ^ shift) + d ∧
      2 * (n * 2 ^ shift) ≤ 2 * (rounded n d shift * d) + d := by
  have low : rounded n d shift * d ≤ n * 2 ^ shift + d / 2 := Nat.div_mul_le_self _ _
  have high : n * 2 ^ shift + d / 2 < rounded n d shift * d + d := Nat.lt_div_mul_add positive
  omega

theorem rounded_near (positive : 0 < d) (n c shift : Nat) :
    |((c * rounded n d shift / 2 ^ shift : Nat) : ℚ) - n * c / d| < 1 + c / 2 ^ (shift + 1) := by
  have width : (0 : ℚ) < 2 ^ shift := by positivity
  have size : (0 : ℚ) < d := by exact_mod_cast positive
  obtain ⟨low, high⟩ := rounded_bounds positive n shift
  have cut := Nat.div_mul_le_self (c * rounded n d shift) (2 ^ shift)
  have cut' := Nat.lt_div_mul_add (a := c * rounded n d shift) (Nat.two_pow_pos shift)
  generalize rounded n d shift = mult at *
  generalize c * mult / 2 ^ shift = product at *
  qify at low high cut cut'
  have lows := mul_le_mul_of_nonneg_left low (Nat.cast_nonneg (α := ℚ) c)
  have highs := mul_le_mul_of_nonneg_left high (Nat.cast_nonneg (α := ℚ) c)
  have cuts := mul_le_mul_of_nonneg_left cut size.le
  have cuts' := mul_lt_mul_of_pos_left cut' size
  have both := mul_pos width size
  rw [abs_lt, pow_succ]
  constructor <;> field_simp <;> linarith

theorem new_eq (small : m < 2 ^ 40) {mult shift : Nat}
    (found : search n d (shiftAcc m) 32 0 = .ok (mult, shift)) : new n d m = .ok ⟨mult % 2 ^ 32, shift, m⟩ := by
  rw [new, assert, if_pos (decide_eq_true small), bind_ok, found]
  rfl

theorem mul_eq {coeff : Coeff} {c : Nat} (bound : c ≤ coeff.maxMultiplier) (fits : c * coeff.mult < 2 ^ 64) :
    coeff.mul c = .ok (c * coeff.mult / 2 ^ coeff.shift) := by
  rw [mul, assert, if_pos (decide_eq_true bound), bind_ok, mul_ok (by omega)]
  rfl

/-- Every value fits the type that holds it, and every product is near the exact one. -/
structure Accurate (n d m : Nat) (coeff : Coeff) : Prop where
  fits : ∀ shift, coeff.shift ≤ shift → shift ≤ 32 → n * 2 ^ shift + d / 2 < 2 ^ 64
  whole : search n d (shiftAcc m) 32 0 = .ok (coeff.mult, coeff.shift)
  near : ∀ c ≤ m, ∃ product, coeff.mul c = .ok product ∧
    |(product : ℚ) - n * c / d| < 1 + c / 2 ^ (coeff.shift + 1) ∧
      (product < 2 ^ 32 → coeff.mulU32 c = .ok product)

theorem accurate_iff (positive : 0 < d) (small : m < 2 ^ 40) :
    (∃ coeff, new n d m = .ok coeff ∧ coeff.Accurate n d m) ↔
      n * 2 ^ 32 + d / 2 < 2 ^ 64 ∧ (2 * n + d / 2) / d < 2 ^ (32 - (m / 2 ^ 32).size) := by
  have first : (2 * n + d / 2) / d = rounded n d 1 := by rw [rounded, Nat.mul_comm, Nat.pow_one]
  rw [first, ← shiftAcc_eq]
  obtain ⟨least, most, counted⟩ := shiftAcc_bounds small
  constructor
  · rintro ⟨coeff, ran, accurate⟩
    have fits := accurate.fits 32 (search_le accurate.whole) (le_refl 32)
    refine ⟨fits, ?_⟩
    obtain ⟨mult, shift, found, ⟨later, rfl, few⟩ | ⟨rfl, last⟩⟩ := search_spec (shiftAcc m) fits 0
    · exact (Nat.div_le_div_right (Nat.add_le_add_right (Nat.mul_le_mul_left n
        (Nat.pow_le_pow_right Nat.two_pos later)) _)).trans_lt few
    · exfalso
      obtain ⟨same, many⟩ := last (by decide)
      have large : 2 ^ 24 ≤ mult := (Nat.pow_le_pow_right Nat.two_pos least).trans many
      obtain rfl := Except.ok.inj (ran.symm.trans (new_eq small found))
      have kept : mult = mult % 2 ^ 32 := congrArg Prod.fst (Except.ok.inj (found.symm.trans accurate.whole))
      have word : mult < 2 ^ 32 := by omega
      have two : 2 ≤ m := by
        by_contra few
        rw [shiftAcc_eq, Nat.div_eq_of_lt (by omega), Nat.size_zero] at many
        omega
      obtain ⟨product, ran, near, -⟩ := accurate.near 2 two
      rw [mul_eq two (by dsimp only; omega)] at ran
      cases ran
      rw [← kept, Nat.pow_zero, Nat.div_one] at near
      have close := rounded_near positive n 2 1
      rw [← same, Nat.pow_one, Nat.mul_div_cancel_left _ (by decide)] at close
      have upper := (abs_lt.mp near).2
      have lower := (abs_lt.mp close).1
      qify at large
      push_cast at upper
      linarith
  · rintro ⟨fits, few⟩
    obtain ⟨mult, shift, found, ⟨later, rfl, short⟩ | ⟨rfl, last⟩⟩ := search_spec (shiftAcc m) fits 0
    · have ran := new_eq small found
      rw [Nat.mod_eq_of_lt (short.trans_le (Nat.pow_le_pow_right Nat.two_pos most))] at ran
      refine ⟨_, ran, fun tried _ bound => ?_, found,
        fun c bound => ?_⟩
      · have := Nat.mul_le_mul_left n (Nat.pow_le_pow_right Nat.two_pos bound)
        omega
      · have word := calc c * rounded n d shift < 2 ^ (32 - shiftAcc m) * 2 ^ 32 * 2 ^ shiftAcc m :=
              Nat.mul_lt_mul'' (bound.trans_lt counted) short
          _ = 2 ^ 64 := by rw [Nat.mul_right_comm, ← Nat.pow_add, Nat.sub_add_cancel most, ← Nat.pow_add]
        have product : mul ⟨rounded n d shift, shift, m⟩ c = _ := mul_eq bound word
        refine ⟨_, product, rounded_near positive n c shift, fun fits => ?_⟩
        rw [mulU32, product, bind_ok, pure_eq_ok, Nat.mod_eq_of_lt fits]
    · obtain ⟨rfl, many⟩ := last (by decide)
      omega

theorem accurate_documented :
    ∃ coeff, new 23456 56789 1000000000 = .ok coeff ∧ coeff.Accurate 23456 56789 1000000000 :=
  (accurate_iff (by decide) (by decide)).mpr ⟨by decide, by decide⟩

/-- With `2 ^ 33 / 2 ^ 33` all bits leave the word: 100 times one is 0. -/
theorem one_times_hundred : new (2 ^ 33) (2 ^ 33) 100 = .ok ⟨0, 32, 100⟩ ∧ mul ⟨0, 32, 100⟩ 100 = .ok 0 ∧
    ¬|((0 : Nat) : ℚ) - (2 ^ 33 : Nat) * (100 : Nat) / (2 ^ 33 : Nat)| < 1 + (100 : Nat) / 2 ^ (32 + 1) := by
  refine ⟨?_, rfl, by norm_num⟩
  rw [new, shiftAcc_eq]
  rfl

end Coeff

end Kei.Util
