import Mathlib.Data.List.Basic
import Mathlib.Logic.Function.Iterate

/-! Reflected shift registers over the two-element field: the register moves down one
place per bit, and a one that falls out is fed back through `poly`. The bits of a
message enter at the bottom, first bit first. -/

namespace Library.Lfsr

open List
open BitVec hiding replicate_succ

variable {w : Nat} (poly : BitVec w)

def shift (state : BitVec w) : BitVec w :=
  if state.getLsbD 0 then (state >>> 1) ^^^ poly else state >>> 1

def unit (bit : Bool) : BitVec w := if bit then 1#w else 0#w

def absorb (state : BitVec w) (bit : Bool) : BitVec w := shift poly (state ^^^ unit bit)

def absorbAll (state : BitVec w) (bits : List Bool) : BitVec w := bits.foldl (absorb poly) state

@[simp] theorem shift_zero : shift poly 0#w = 0#w := by simp [shift]

theorem shift_xor (left right : BitVec w) :
    shift poly (left ^^^ right) = shift poly left ^^^ shift poly right := by
  have moved : (left ^^^ right) >>> 1 = left >>> 1 ^^^ right >>> 1 := ushiftRight_xor_distrib ..
  simp only [shift, getLsbD_xor, moved]
  cases left.getLsbD 0 <;> cases right.getLsbD 0
  · rfl
  · simp [xor_assoc]
  · simp only [Bool.xor_false, if_true, Bool.false_eq_true, if_false]
    rw [xor_assoc, BitVec.xor_comm (right >>> 1) poly, ← xor_assoc]
  · simp only [Bool.xor_self, Bool.false_eq_true, if_false, if_true]
    rw [BitVec.xor_comm (right >>> 1) poly, BitVec.xor_assoc, ← BitVec.xor_assoc poly, BitVec.xor_self,
      BitVec.zero_xor]

theorem shift_shiftLeft_one (state : BitVec w) (clear : state.getLsbD (w - 1) = false) :
    shift poly (state <<< 1) = state := by
  have bottom : (state <<< 1).getLsbD 0 = false := by simp
  rw [shift, bottom, if_neg (by simp)]
  apply eq_of_getLsbD_eq
  intro position bound
  rw [getLsbD_ushiftRight, getLsbD_shiftLeft]
  by_cases top : 1 + position = w
  · have last : position = w - 1 := by omega
    simp [last, clear]
  · have inside : 1 + position < w := by omega
    simp [inside]

theorem unit_xor (left right : Bool) :
    (unit (left ^^ right) : BitVec w) = unit left ^^^ unit right := by
  cases left <;> cases right <;> simp [unit]

@[simp] theorem absorbAll_nil (state : BitVec w) : absorbAll poly state [] = state := rfl

@[simp] theorem absorbAll_cons (state : BitVec w) (bit : Bool) (rest : List Bool) :
    absorbAll poly state (bit :: rest) = absorbAll poly (absorb poly state bit) rest := rfl

theorem absorbAll_append (state : BitVec w) (left right : List Bool) :
    absorbAll poly state (left ++ right) = absorbAll poly (absorbAll poly state left) right :=
  foldl_append

theorem absorbAll_xor (left right : BitVec w) (first second : List Bool)
    (length : first.length = second.length) :
    absorbAll poly (left ^^^ right) (List.zipWith xor first second) =
      absorbAll poly left first ^^^ absorbAll poly right second := by
  induction first generalizing second left right with
  | nil =>
    cases second with
    | nil => rfl
    | cons bit rest => simp at length
  | cons bit rest ih =>
    cases second with
    | nil => simp at length
    | cons other others =>
      have split : absorb poly (left ^^^ right) (bit ^^ other) =
          absorb poly left bit ^^^ absorb poly right other := by
        simp only [absorb, unit_xor]
        rw [← shift_xor]
        congr 1
        ac_rfl
      simp only [zipWith_cons_cons, absorbAll_cons, split]
      exact ih _ _ others (by simpa using length)

theorem absorbAll_replicate_false (state : BitVec w) (count : Nat) :
    absorbAll poly state (List.replicate count false) = (shift poly)^[count] state := by
  induction count generalizing state with
  | zero => rfl
  | succ count ih =>
    rw [replicate_succ, absorbAll_cons, ih, Function.iterate_succ_apply]
    simp [absorb, unit]

def ofBits (bits : List Bool) : BitVec w := (ofBoolListLE bits).setWidth w

theorem getLsbD_ofBits (bits : List Bool) (position : Nat) (bound : position < w) :
    (ofBits bits : BitVec w).getLsbD position = bits.getD position false := by
  simp [ofBits, bound]

theorem ofBits_nil : (ofBits [] : BitVec w) = 0#w := by
  apply eq_of_getLsbD_eq
  intro position bound
  rw [getLsbD_ofBits _ _ bound]
  simp

theorem ofBits_cons (bit : Bool) (rest : List Bool) :
    (ofBits (bit :: rest) : BitVec w) = unit bit ^^^ ofBits rest <<< 1 := by
  apply eq_of_getLsbD_eq
  intro position bound
  rw [getLsbD_ofBits _ _ bound, getLsbD_xor, getLsbD_shiftLeft]
  cases position with
  | zero => cases bit <;> simp [unit, bound]
  | succ position =>
    have inside : position < w := by omega
    rw [Nat.add_sub_cancel, getLsbD_ofBits _ _ inside]
    cases bit <;> simp [unit, bound]

theorem absorbAll_eq_iterate (state : BitVec w) (bits : List Bool) (short : bits.length ≤ w) :
    absorbAll poly state bits = (shift poly)^[bits.length] (state ^^^ ofBits bits) := by
  induction bits generalizing state with
  | nil => simp [ofBits_nil]
  | cons bit rest ih =>
    rw [length_cons] at short
    have clear : (ofBits rest : BitVec w).getLsbD (w - 1) = false := by
      rw [getLsbD_ofBits _ _ (by omega), getD_eq_getElem?_getD,
        List.getElem?_eq_none (by omega), Option.getD_none]
    rw [absorbAll_cons, ih _ (by omega), length_cons, Function.iterate_succ_apply, ofBits_cons,
      ← xor_assoc, shift_xor, shift_shiftLeft_one poly _ clear]
    rfl

/-! The orbit of a register, on plain numbers so that long stretches of it evaluate. -/

def shiftNat (poly state : Nat) : Nat := if state % 2 = 1 then (state / 2) ^^^ poly else state / 2

theorem shift_toNat (state : BitVec w) :
    (shift poly state).toNat = shiftNat poly.toNat state.toNat := by
  have bottom : state.getLsbD 0 = decide (state.toNat % 2 = 1) := by
    rw [← testBit_toNat, Nat.testBit_zero]
  have moved : (state >>> 1).toNat = state.toNat / 2 := by
    rw [toNat_ushiftRight, Nat.shiftRight_eq_div_pow]
  simp only [shift, shiftNat, bottom, decide_eq_true_eq]
  split
  · rw [toNat_xor, moved]
  · exact moved

def avoidsUnit (poly : Nat) : Nat → Nat → Bool
  | 0, _ => true
  | count + 1, state => state != 1 && avoidsUnit poly count (shiftNat poly state)

theorem iterate_shift_ne_unit (positive : 0 < w) (count : Nat) (state : BitVec w)
    (checked : avoidsUnit poly.toNat count state.toNat = true) :
    ∀ distance < count, (shift poly)^[distance] state ≠ 1#w := by
  induction count generalizing state with
  | zero =>
    intro distance bound
    omega
  | succ count ih =>
    rw [avoidsUnit, Bool.and_eq_true, ← shift_toNat] at checked
    intro distance bound
    cases distance with
    | zero =>
      intro same
      have one : state.toNat = 1 := by
        rw [show state = 1#w from same, toNat_ofNat]
        exact Nat.mod_eq_of_lt (Nat.one_lt_two_pow (by omega))
      simp [one] at checked
    | succ distance =>
      rw [Function.iterate_succ_apply]
      exact ih _ checked.2 distance (by omega)

variable {bits : List Bool}

theorem eq_replicate_false (none : bits.count true = 0) :
    bits = List.replicate bits.length false := by
  rw [eq_replicate_iff]
  refine ⟨rfl, ?_⟩
  intro bit member
  cases bit with
  | false => rfl
  | true => exact absurd member (count_eq_zero.mp none)

theorem exists_first_true (present : true ∈ bits) :
    ∃ before rest, bits = List.replicate before false ++ true :: rest := by
  obtain ⟨before, rest, rfl, absent⟩ := eq_append_cons_of_mem present
  exact ⟨before.length, rest, by rw [← eq_replicate_false (count_eq_zero.mpr absent)]⟩

theorem exists_pair (weight : bits.count true = 2) :
    ∃ before between after, bits = List.replicate before false ++ true ::
      (List.replicate between false ++ true :: List.replicate after false) := by
  obtain ⟨before, rest, rfl⟩ := exists_first_true (count_pos_iff.mp (by omega : 0 < bits.count true))
  have one : rest.count true = 1 := by simpa [count_replicate] using weight
  obtain ⟨between, tail, rfl⟩ := exists_first_true (count_pos_iff.mp (by omega : 0 < rest.count true))
  have none : tail.count true = 0 := by simpa [count_replicate] using one
  exact ⟨before, between, tail.length, by rw [← eq_replicate_false none]⟩

/-! A feedback through the top place loses nothing. -/

section Invertible

variable (top : poly.getLsbD (w - 1) = true)
include top

theorem shift_eq_zero {state : BitVec w} (vanished : shift poly state = 0#w) : state = 0#w := by
  rw [shift] at vanished
  split at vanished
  · have topBit := congrArg (fun register => register.getLsbD (w - 1)) vanished
    have positive : 0 < w := by
      by_contra empty
      have none := getLsbD_of_ge poly (w - 1) (by omega)
      simp [top] at none
    simp only [getLsbD_xor, getLsbD_ushiftRight, top, getLsbD_zero] at topBit
    rw [getLsbD_of_ge state _ (by omega)] at topBit
    simp at topBit
  · rename_i bottom
    apply eq_of_getLsbD_eq
    intro position bound
    cases position with
    | zero => simpa using bottom
    | succ position =>
      have moved := congrArg (fun register => register.getLsbD position) vanished
      simpa [getLsbD_ushiftRight, Nat.add_comm] using moved

theorem iterate_shift_eq_zero (count : Nat) {state : BitVec w}
    (vanished : (shift poly)^[count] state = 0#w) : state = 0#w := by
  induction count generalizing state with
  | zero => exact vanished
  | succ count ih => exact shift_eq_zero poly top (ih (by rwa [Function.iterate_succ_apply] at vanished))

theorem absorbAll_burst_ne_zero (before after : Nat) (window : List Bool) (short : window.length ≤ w)
    (nonzero : true ∈ window) :
    absorbAll poly 0#w (List.replicate before false ++ window ++ List.replicate after false) ≠ 0#w := by
  intro vanished
  have quiet : (shift poly)^[before] 0#w = 0#w := Function.iterate_fixed (shift_zero poly) before
  rw [absorbAll_append, absorbAll_append, absorbAll_replicate_false, absorbAll_replicate_false, quiet,
    absorbAll_eq_iterate poly _ _ short, BitVec.zero_xor] at vanished
  have empty := iterate_shift_eq_zero poly top _ (iterate_shift_eq_zero poly top _ vanished)
  obtain ⟨position, bound, found⟩ := getElem_of_mem nonzero
  have bit := getLsbD_ofBits window position (Nat.lt_of_lt_of_le bound short)
  rw [empty, getLsbD_zero, getD_eq_getElem?_getD, List.getElem?_eq_getElem bound, found] at bit
  cases bit

theorem absorbAll_pair_ne_zero (bits : List Bool) (weight : bits.count true = 2)
    (aperiodic : ∀ distance, distance + 1 < bits.length → (shift poly)^[distance + 1] 1#w ≠ 1#w) :
    absorbAll poly 0#w bits ≠ 0#w := by
  obtain ⟨before, between, after, rfl⟩ := exists_pair weight
  intro vanished
  have quiet : (shift poly)^[before] 0#w = 0#w := Function.iterate_fixed (shift_zero poly) before
  rw [absorbAll_append, absorbAll_replicate_false, quiet, absorbAll_cons, absorbAll_append,
    absorbAll_replicate_false, absorbAll_cons, absorbAll_replicate_false] at vanished
  have cancelled := shift_eq_zero poly top (iterate_shift_eq_zero poly top _ vanished)
  rw [absorb, BitVec.zero_xor, unit, if_pos rfl, ← Function.iterate_succ_apply,
    xor_eq_zero_iff] at cancelled
  refine aperiodic between ?_ cancelled
  simp only [length_append, length_cons, length_replicate]
  omega

end Invertible

/-! A feedback of odd weight preserves the parity of the register. -/

def parity : Nat → BitVec w → Bool
  | 0, _ => false
  | count + 1, state => parity count state ^^ state.getLsbD count

theorem parity_xor (count : Nat) (left right : BitVec w) :
    parity count (left ^^^ right) = (parity count left ^^ parity count right) := by
  induction count with
  | zero => rfl
  | succ count ih =>
    simp only [parity, ih, getLsbD_xor]
    cases parity count left <;> cases parity count right <;> simp

theorem parity_zero (count : Nat) : parity count 0#w = false := by
  induction count with
  | zero => rfl
  | succ count ih => simp [parity, ih]

theorem parity_ushiftRight_one (count : Nat) (state : BitVec w) :
    parity count (state >>> 1) = (parity (count + 1) state ^^ state.getLsbD 0) := by
  induction count with
  | zero => simp [parity]
  | succ count ih =>
    have next : parity (count + 1 + 1) state =
        (parity (count + 1) state ^^ state.getLsbD (count + 1)) := rfl
    rw [parity, ih, next, getLsbD_ushiftRight, Nat.add_comm 1 count, Bool.xor_right_comm]

section Odd

variable (odd : parity w poly = true)
include odd

theorem parity_shift (state : BitVec w) : parity w (shift poly state) = parity w state := by
  have whole : parity (w + 1) state = parity w state := by
    rw [parity, getLsbD_of_ge state w (Nat.le_refl w), Bool.xor_false]
  rw [shift]
  split
  · rename_i bottom
    rw [parity_xor, parity_ushiftRight_one, whole, bottom, odd]
    cases parity w state <;> rfl
  · rename_i bottom
    have clear : state.getLsbD 0 = false := by simpa using bottom
    rw [parity_ushiftRight_one, whole, clear, Bool.xor_false]

theorem parity_absorbAll (state : BitVec w) (bits : List Bool) (single : parity w 1#w = true) :
    parity w (absorbAll poly state bits) = (parity w state ^^ decide (bits.count true % 2 = 1)) := by
  induction bits generalizing state with
  | nil => simp
  | cons bit rest ih =>
    rw [absorbAll_cons, ih, absorb, parity_shift poly odd, parity_xor]
    cases bit with
    | false => simp [unit, parity_zero]
    | true =>
      have flipped : decide ((true :: rest).count true % 2 = 1) =
          !decide (rest.count true % 2 = 1) := by
        rw [count_cons_self, ← decide_not, decide_eq_decide]
        omega
      rw [flipped, unit, if_pos rfl, single]
      cases parity w state <;> simp

theorem absorbAll_odd_ne_zero (bits : List Bool) (single : parity w 1#w = true)
    (weight : bits.count true % 2 = 1) : absorbAll poly 0#w bits ≠ 0#w := by
  intro vanished
  have kept := parity_absorbAll poly odd 0#w bits single
  rw [vanished, parity_zero] at kept
  simp [weight] at kept

end Odd

end Library.Lfsr
