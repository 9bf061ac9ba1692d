import Kei.Framebuffer.AnsiEscape

/-! What the parameters of `ESC [ … m` mean, and that the loop over them sets one colour after the
other. -/

namespace Kei.Framebuffer

open Library Checked Nat EscapeFsm
open List hiding Vector

inductive Setting
  | fg (color : Pixel)
  | bg (color : Pixel)
  deriving DecidableEq, Repr

open Setting

def extended : List Nat → Option (Pixel × Nat)
  | 5 :: n :: _ => some (get256Color (n % 256), 2)
  | 2 :: r :: g :: b :: _ => some (⟨UInt8.ofNat r, UInt8.ofNat g, UInt8.ofNat b⟩, 4)
  | _ => none

def themeColor (number : Nat) : Pixel := colors.toList.getD number Pixel.black

def sgrCode (code : Nat) (rest : List Nat) : Option (List Setting × Nat) :=
  if code = 0 then some ([.fg defaultFg, .bg defaultBg], 0)
  else if 30 ≤ code ∧ code ≤ 37 then some ([.fg (themeColor (code - 30))], 0)
  else if code = 38 then (extended rest).map fun found => ([.fg found.1], found.2)
  else if code = 39 then some ([.fg defaultFg], 0)
  else if 90 ≤ code ∧ code ≤ 97 then some ([.fg (themeColor (code - 90 + 8))], 0)
  else if 40 ≤ code ∧ code ≤ 47 then some ([.bg (themeColor (code - 40))], 0)
  else if code = 48 then (extended rest).map fun found => ([.bg found.1], found.2)
  else if code = 49 then some ([.bg defaultBg], 0)
  else if 100 ≤ code ∧ code ≤ 107 then some ([.bg (themeColor (code - 100 + 8))], 0)
  else none

/-- The settings of a parameter list, with codes read by `read` and unknown ones either passed
over or the end. -/
def settings (read : Nat → Nat) (passes : Bool) : Nat → List Nat → List Setting
  | 0, _ => []
  | _ + 1, [] => []
  | turns + 1, value :: rest =>
    match sgrCode (read value) rest with
    | some (made, used) => made ++ settings read passes turns (rest.drop used)
    | none => if passes then settings read passes turns rest else []

def Setting.apply {σ : Type} [EscapeOp σ] (op : σ) : Setting → Checked σ
  | fg color => EscapeOp.setFgColor op color
  | bg color => EscapeOp.setBgColor op color

theorem index_themeColor {number : Nat} (small : number < 16) :
    index colors.toList number = .ok (themeColor number) := by
  have bound : number < colors.toList.length := by simpa using small
  rw [index_getElem? (getElem?_eq_getElem bound), themeColor, getD_eq_getElem?_getD,
    getElem?_eq_getElem bound]
  rfl

section Sgr

variable {σ : Type} [EscapeOp σ] {fsm : EscapeFsm} {values : List Nat}

theorem extended_eq (rest : List Nat) : extended rest = if rest.length ≥ 2 ∧ rest.getD 0 0 = 5 then
        some (get256Color (rest.getD 1 0 % 256), 2)
      else if rest.length ≥ 4 ∧ rest.getD 0 0 = 2 then
        some (⟨UInt8.ofNat (rest.getD 1 0), UInt8.ofNat (rest.getD 2 0), UInt8.ofNat (rest.getD 3 0)⟩, 4)
      else none := by
  unfold extended
  split
  · simp
  · simp
  · rename_i indexed direct
    rw [if_neg, if_neg]
    · rintro ⟨long, two⟩
      match rest, long, two with
      | a :: r :: g :: b :: tail, _, two =>
        obtain rfl : a = 2 := by simpa using two
        exact direct r g b tail rfl
    · rintro ⟨long, five⟩
      match rest, long, five with
      | a :: n :: tail, _, five =>
        obtain rfl : a = 5 := by simpa using five
        exact indexed n tail rfl

theorem extendedColor_eq (reads : ∀ i < values.length, fsm.paramOr i 0 = values.getD i 0) (cursor : Nat) :
    fsm.extendedColor values.length cursor = extended (values.drop cursor) := by
  have drop (i : Nat) (inside : cursor + i < values.length) :
      fsm.paramOr (cursor + i) 0 = (values.drop cursor).getD i 0 := by
    rw [reads _ inside, getD_eq_getElem?_getD, getD_eq_getElem?_getD, getElem?_drop]
  rw [extended_eq, extendedColor, length_drop]
  by_cases two : 2 ≤ values.length - cursor
  · have first := drop 0 (by omega)
    rw [add_zero] at first
    rw [first, drop 1 (by omega)]
    by_cases four : 4 ≤ values.length - cursor
    · rw [drop 2 (by omega), drop 3 (by omega)]
    · simp only [ge_iff_le, four, false_and, if_false]
  · have four : ¬4 ≤ values.length - cursor := by omega
    simp only [ge_iff_le, two, four, false_and, if_false]

theorem handleSgrLoop_eq (reads : ∀ i < values.length, fsm.paramOr i 0 = values.getD i 0)
    (turns cursor : Nat) (op : σ) :
    fsm.handleSgrLoop values.length turns cursor op =
      (settings (· % 256) false turns (values.drop cursor)).foldlM apply op := by
  induction turns generalizing cursor op with
  | zero => rfl
  | succ turns ih =>
    rw [handleSgrLoop]
    by_cases past : cursor ≥ values.length
    · rw [if_pos past, drop_eq_nil_of_le past]
      rfl
    · have inside : cursor < values.length := not_le.mp past
      have value : fsm.paramOr cursor 0 = values[cursor] := by
        rw [reads cursor inside, getD_eq_getElem?_getD, getElem?_eq_getElem inside]
        rfl
      rw [if_neg past, drop_eq_getElem_cons inside, settings, value]
      simp only [extendedColor_eq reads, Bool.false_eq_true, if_false]
      generalize values[cursor] % 256 = code
      split_ifs
      all_goals
        simp (disch := omega) only [sgrCode, if_pos, if_neg, index_themeColor, bind_ok, cons_append, nil_append,
          foldlM_cons, apply, drop_zero, ih]
      case neg => rfl
      all_goals cases extended (values.drop (cursor + 1)) with
      | none => rfl
      | some found =>
        simp only [Option.map_some, cons_append, nil_append, foldlM_cons, apply, drop_drop]

theorem handleSgr_eq (fsm : EscapeFsm) (numParams : Nat) (op : σ) :
    ∃ made : List Setting, fsm.handleSgr numParams op = made.foldlM apply op := by
  obtain ⟨values, same⟩ : ∃ values, values = (List.range numParams).map (fsm.paramOr · 0) := ⟨_, rfl⟩
  have length : values.length = numParams := by rw [same, length_map, length_range]
  refine ⟨settings (· % 256) false numParams (values.drop 0), ?_⟩
  rw [handleSgr, ← @handleSgrLoop_eq σ _ fsm values, length]
  intro i inside
  rw [length] at inside
  simp [same, inside]

end Sgr

end Kei.Framebuffer
