import Kei.Framebuffer.ConsoleState
import Kei.Framebuffer.Settings
import Kei.Framebuffer.SixelReference

/-! Select Graphic Rendition: what the machine makes of the parameters of `ESC [ … m`. It reads a
code modulo 256 and ends the sequence at the first code it does not know. -/

namespace Kei.Framebuffer

open Library Checked Console Nat EscapeFsm
open List hiding Vector

open Setting

/-- What the parameters stand for: every value is a code as it is, and one that is no code
changes nothing. -/
def defined (values : List Nat) : List Setting := settings id true values.length values

def performed (values : List Nat) : List Setting := settings (· % 256) false values.length values

/-- Every value that is read as a code is one. -/
inductive AllDefined : List Nat → Prop
  | nil : AllDefined []
  | cons {value : Nat} {rest : List Nat} {found : List Setting × Nat} (known : sgrCode value rest = some found)
      (later : AllDefined (rest.drop found.2)) : AllDefined (value :: rest)

theorem sgrCode_lt {code : Nat} {rest : List Nat} {found : List Setting × Nat}
    (known : sgrCode code rest = some found) : code < 256 := by
  unfold sgrCode at known
  split_ifs at known <;> omega

theorem settings_of_defined {values : List Nat} (all : AllDefined values) (turns : Nat) :
    settings (· % 256) false turns values = settings id true turns values := by
  induction all generalizing turns with
  | nil => cases turns <;> rfl
  | cons known later ih =>
    cases turns with
    | zero => rfl
    | succ turns => simp only [settings, mod_eq_of_lt (sgrCode_lt known), id, known, ih]

def EscapeFsm.Holds (fsm : EscapeFsm) (values : List Nat) : Prop :=
  ∀ i, fsm.paramOr i 0 = values.getD i 0

/-! The parameters as they are written; one may be left out. -/

def digitsOf (param : Option Numeral) : List UInt8 := (param.map Numeral.digits).getD []

def valueOf (param : Option Numeral) : Nat := (param.map fun numeral => min numeral.value u32Max).getD 0

def paramsTail (params : List (Option Numeral)) : List UInt8 :=
  params.flatMap fun param => 0x3B :: digitsOf param

def sgrSequence (first : Option Numeral) (rest : List (Option Numeral)) : List UInt8 :=
  [esc, 0x5B] ++ digitsOf first ++ paramsTail rest ++ [0x6D]

namespace Console

variable {σ : Type} [Display σ] (buf : List UInt8) (op : σ) {idx : Nat}

theorem sendByte_csi {params : Vector (Option Nat) 8} {isPrivate inIntermediate : Bool}
    {byte : UInt8} {next : Console σ}
    (parsed : parseCsi ⟨.csi idx isPrivate inIntermediate, params, buf⟩ byte idx isPrivate
      inIntermediate op = .ok next) :
    sendByte (⟨.csi idx isPrivate inIntermediate, params, buf⟩, op) byte = .ok next := by
  simp only [sendByte, eat, parsed, bind_ok, pure_eq_ok, if_true]

variable {current : Option Nat}

theorem sendByte_digit {params : Vector (Option Nat) 8}
    (found : params[idx]? = some current) {digit : UInt8} (decimal : isDigit digit = true) :
    sendByte (⟨.csi idx false false, params, buf⟩, op) digit =
      .ok (⟨.csi idx false false, params.setIfInBounds idx (some (pushDigit (current.getD 0) digit)), buf⟩,
        op) := by
  have bounds : 0x30 ≤ digit ∧ digit ≤ 0x39 := by simpa [isDigit] using decimal
  have high : ¬(0x20 ≤ digit ∧ digit ≤ 0x2F) := fun low =>
    absurd (UInt8.le_trans bounds.1 low.2) (by decide)
  have param : 0x30 ≤ digit ∧ digit ≤ 0x3F := ⟨bounds.1, UInt8.le_trans bounds.2 (by decide)⟩
  have inside : idx < maxParams := (Vector.getElem?_eq_some_iff.mp found).1
  have value : paramOr ⟨.csi idx false false, params, buf⟩ idx 0 = current.getD 0 := by
    rw [paramOr, found]
    rfl
  apply sendByte_csi
  rw [parseCsi, if_neg high, if_pos param, if_neg Bool.false_ne_true, if_pos decimal, value]
  simp only [if_pos inside]

theorem sendByte_separator {params : Vector (Option Nat) 8} (inside : idx + 1 < maxParams) :
    sendByte (⟨.csi idx false false, params, buf⟩, op) 0x3B =
      .ok (⟨.csi (idx + 1) false false, params, buf⟩, op) := by
  apply sendByte_csi
  rw [parseCsi, if_neg (by decide), if_pos (by decide), if_neg Bool.false_ne_true, if_neg (by decide),
    if_pos rfl, if_pos inside]

theorem send_digits {digits : List UInt8} (decimal : ∀ digit ∈ digits, isDigit digit = true)
    (nonempty : digits ≠ []) {params : Vector (Option Nat) 8}
    (found : params[idx]? = some current) :
    send (⟨.csi idx false false, params, buf⟩, op) digits = .ok (⟨.csi idx false false,
        params.setIfInBounds idx (some (digits.foldl pushDigit (current.getD 0))), buf⟩, op) := by
  induction digits generalizing params current with
  | nil => exact absurd rfl nonempty
  | cons digit rest ih =>
    rw [forall_mem_cons] at decimal
    rw [send, runAll_cons (sendByte_digit buf op found decimal.1)]
    cases rest with
    | nil => rfl
    | cons next rest =>
      have inside := (Vector.getElem?_eq_some_iff.mp found).1
      have written : (params.setIfInBounds idx (some (pushDigit (current.getD 0) digit)))[idx]? =
          some (some (pushDigit (current.getD 0) digit)) := by simp [inside]
      refine (ih decimal.2 (cons_ne_nil _ _) written).trans ?_
      simp

def written (params : List (Option Numeral)) : Vector (Option Nat) 8 :=
  Vector.ofFn fun i => (params[i.val]?.bind id).map fun numeral => min numeral.value u32Max

theorem written_set (params : List (Option Numeral)) (param : Option Numeral) :
    (written params).setIfInBounds params.length (param.map fun numeral => min numeral.value u32Max) =
      written (params ++ [param]) := by
  apply Vector.ext
  intro i inside
  rw [Vector.getElem_setIfInBounds]
  simp only [written, Vector.getElem_ofFn]
  by_cases last : params.length = i
  · subst last
    simp
  · rw [if_neg last]
    by_cases early : i < params.length
    · rw [getElem?_append_left early]
    · have late : params.length + 1 ≤ i := by omega
      rw [getElem?_eq_none (by omega), getElem?_eq_none (by simpa using late)]

theorem written_next {params : List (Option Numeral)} (room : params.length < 8) :
    (written params)[params.length]? = some none := by
  simp [written, room]

theorem send_param (params : List (Option Numeral)) (param : Option Numeral) (room : params.length < 8) :
    send (⟨.csi params.length false false, written params, buf⟩, op) (digitsOf param) =
      .ok (⟨.csi params.length false false, written (params ++ [param]), buf⟩, op) := by
  rw [← written_set]
  cases param with
  | none =>
    have same : (written params).setIfInBounds params.length none = written params := by
      apply Vector.ext
      intro i inside
      rw [Vector.getElem_setIfInBounds]
      split
      · rename_i last
        subst last
        simp [written]
      · rfl
    rw [Option.map_none, same]
    rfl
  | some numeral =>
    have read : numeral.digits.foldl pushDigit 0 = min numeral.value u32Max := pushDigits_eq numeral.digits 0
    rw [Option.map_some, ← read]
    exact send_digits buf op numeral.decimal numeral.nonempty (written_next room)

theorem send_tail (params rest : List (Option Numeral)) (last : Option Numeral)
    (room : params.length + 1 + rest.length ≤ 8) :
    send (⟨.csi params.length false false, written (params ++ [last]), buf⟩, op) (paramsTail rest) =
      .ok (⟨.csi (params.length + rest.length) false false, written (params ++ last :: rest), buf⟩, op) := by
  induction rest generalizing params last with
  | nil => simp [paramsTail, send]
  | cons param rest ih =>
    rw [length_cons] at room
    have here : (params ++ [last]).length = params.length + 1 := by simp
    have inside : params.length + 1 < maxParams := by
      simp only [maxParams]
      omega
    have read := send_param buf op (params ++ [last]) param (by omega)
    have later := ih (params ++ [last]) param (by omega)
    rw [here] at read later
    have text : paramsTail (param :: rest) = 0x3B :: (digitsOf param ++ paramsTail rest) := rfl
    rw [text, send, runAll_cons (sendByte_separator buf op inside), runAll_append read]
    refine later.trans ?_
    simp [add_comm, add_left_comm]

end Console

section Sequence

variable {σ : Type} [Display σ] {params : Vector (Option Nat) 8} {buf : List UInt8} {op : σ}

theorem written_holds {state : WaitFor} {buf : List UInt8} {params : List (Option Numeral)}
    (room : params.length ≤ 8) :
    EscapeFsm.Holds ⟨state, written params, buf⟩ (params.map valueOf) := by
  intro i
  rw [paramOr, getD_eq_getElem?_getD, getElem?_map]
  by_cases inside : i < params.length
  · have small : i < 8 := lt_of_lt_of_le inside room
    rw [Vector.getElem?_eq_getElem small, written, Vector.getElem_ofFn, getElem?_eq_getElem inside]
    rfl
  · rw [getElem?_eq_none (not_lt.mp inside)]
    by_cases small : i < 8
    · rw [Vector.getElem?_eq_getElem small, written, Vector.getElem_ofFn,
        getElem?_eq_none (not_lt.mp inside)]
      rfl
    · rw [Vector.getElem?_eq_none (not_lt.mp small)]
      rfl

theorem sendByte_final {idx : Nat} : sendByte (⟨.csi idx false false, params, buf⟩, op) 0x6D = do
      let op ← handleSgr ⟨.escape, params, buf⟩ (idx + 1) op
      return (⟨.escape, params, buf⟩, op) := by
  have parsed : parseCsi ⟨.csi idx false false, params, buf⟩ 0x6D idx false false op = do
      let op ← handleSgr ⟨.escape, params, buf⟩ (idx + 1) op
      return (⟨.escape, params, buf⟩, op) := by
    rw [parseCsi, if_neg (by decide), if_neg (by decide), if_pos (by decide)]
    rfl
  simp only [sendByte, eat, parsed, bind_assoc, pure_bind, if_true]

theorem send_sgrSequence (first : Option Numeral) (rest : List (Option Numeral)) (room : rest.length < maxParams) :
    send (⟨.escape, params, buf⟩, op) (sgrSequence first rest) = do
      let op ← (performed ((first :: rest).map valueOf)).foldlM apply op
      return (⟨.escape, written (first :: rest), buf⟩, op) := by
  have opened : sendByte (⟨.escape, params, buf⟩, op) esc = .ok (⟨.bracket, params, buf⟩, op) := rfl
  have started : sendByte (⟨.bracket, params, buf⟩, op) 0x5B =
      .ok (⟨.csi 0 false false, written [], buf⟩, op) := by
    have fresh : written [] = Vector.replicate 8 none := by
      apply Vector.ext
      intro i inside
      simp [written]
    rw [fresh]
    rfl
  have read := send_param buf op [] first (by decide)
  have more := send_tail buf op [] rest first (by simp only [maxParams] at room; simp; omega)
  simp only [nil_append, length_nil, zero_add] at read more
  have holds : EscapeFsm.Holds ⟨.escape, written (first :: rest), buf⟩ ((first :: rest).map valueOf) :=
    written_holds (succ_le_of_lt room)
  have handled := handleSgrLoop_eq (fun i _ => holds i) (rest.length + 1) 0 op
  have count : ((first :: rest).map valueOf).length = rest.length + 1 := by simp
  rw [sgrSequence, append_assoc, append_assoc, cons_append, cons_append, nil_append,
    send, runAll_cons opened, runAll_cons started, runAll_append read, runAll_append more]
  simp only [runAll, foldlM_cons, foldlM_nil, bind_pure, sendByte_final, performed, count,
    handleSgr]
  rw [count] at handled
  rw [handled, drop_zero]

end Sequence

/-! The colors of a console after a sequence. -/

def Setting.fg? : Setting → Option Pixel
  | fg color => some color
  | bg _ => none

def Setting.bg? : Setting → Option Pixel
  | fg _ => none
  | bg color => some color

def Setting.settle (current : Pixel × Pixel) : Setting → Pixel × Pixel
  | fg color => (color, current.2)
  | bg color => (current.1, color)

def lastColor (which : Setting → Option Pixel) (made : List Setting) : Option Pixel :=
  made.reverse.findSome? which

theorem lastColor_cons (which : Setting → Option Pixel) (setting : Setting) (made : List Setting) :
    lastColor which (setting :: made) = (lastColor which made).or (which setting) := by
  simp [lastColor, findSome?_append]

theorem foldl_settle (made : List Setting) (current : Pixel × Pixel) : made.foldl settle current =
      ((lastColor fg? made).getD current.1, (lastColor bg? made).getD current.2) := by
  induction made generalizing current with
  | nil => rfl
  | cons setting made ih =>
    rw [foldl_cons, ih, lastColor_cons, lastColor_cons]
    cases setting with
    | fg color => cases lastColor fg? made <;> cases lastColor bg? made <;> rfl
    | bg color => cases lastColor fg? made <;> cases lastColor bg? made <;> rfl

theorem foldl_settle_eq_iff (first second : List Setting) :
    (∀ current, first.foldl settle current = second.foldl settle current) ↔
      lastColor fg? first = lastColor fg? second ∧ lastColor bg? first = lastColor bg? second := by
  have other (color : Pixel) : ∃ different, different ≠ color := by
    by_cases black : color = Pixel.black
    · exact ⟨defaultFg, by rw [black]; decide⟩
    · exact ⟨Pixel.black, Ne.symm black⟩
  have decided {one two : Option Pixel} (same : ∀ color, one.getD color = two.getD color) : one = two := by
    cases one with
    | none =>
      cases two with
      | none => rfl
      | some color =>
        obtain ⟨different, differs⟩ := other color
        exact absurd (same different) differs
    | some color =>
      cases two with
      | none =>
        obtain ⟨different, differs⟩ := other color
        exact absurd (same different).symm differs
      | some second => exact congrArg some (same color)
  simp only [foldl_settle, Prod.mk.injEq]
  constructor
  · intro same
    exact ⟨decided fun color => (same (color, color)).1, decided fun color => (same (color, color)).2⟩
  · rintro ⟨front, back⟩ current
    rw [front, back]
    exact ⟨rfl, rfl⟩

namespace FramebufferConsole

variable {fb : FrameBuffer}

def colored (state : ConsoleState fb) (current : Pixel × Pixel) : ConsoleState fb :=
  { state with fgColor := current.1, bgColor := current.2 }

theorem foldlM_apply (made : List Setting) (state : ConsoleState fb) : made.foldlM apply state =
      .ok (colored state (made.foldl settle (state.fgColor, state.bgColor))) := by
  induction made generalizing state with
  | nil => rfl
  | cons setting made ih =>
    rw [foldlM_cons, foldl_cons]
    cases setting with
    | fg color => exact ih { state with fgColor := color }
    | bg color => exact ih { state with bgColor := color }

theorem send_sgr (first : Option Numeral) {rest : List (Option Numeral)} (room : rest.length < maxParams)
    {console : FramebufferConsole fb} (waiting : console.1.state = .escape) :
    console.send (sgrSequence first rest) =
      .ok (⟨.escape, written (first :: rest), console.1.dcsBuf⟩,
        colored console.2 ((performed ((first :: rest).map valueOf)).foldl settle
          (console.2.fgColor, console.2.bgColor))) := by
  obtain ⟨⟨state, params, buf⟩, screen⟩ := console
  cases waiting
  rw [send_sgrSequence first rest room, foldlM_apply]
  rfl

/-- What a sequence should do to a console that is waiting for one: give it the colors of the
defined codes, print nothing, and wait again. -/
def ObeysSgr (fb : FrameBuffer) (first : Option Numeral) (rest : List (Option Numeral)) : Prop :=
  ∀ console : FramebufferConsole fb, console.1.state = .escape →
    ∃ next, console.send (sgrSequence first rest) = .ok next ∧ next.1.state = .escape ∧
      next.2 = colored console.2 ((defined ((first :: rest).map valueOf)).foldl settle
        (console.2.fgColor, console.2.bgColor))

/-- A sequence is obeyed exactly when the codes up to the first unknown one, taken modulo 256,
set the same foreground and the same background last as all its codes taken as they are. -/
theorem obeysSgr_iff (fb : FrameBuffer) (first : Option Numeral) {rest : List (Option Numeral)}
    (room : rest.length < maxParams) :
    ObeysSgr fb first rest ↔ lastColor fg? (performed ((first :: rest).map valueOf)) =
          lastColor fg? (defined ((first :: rest).map valueOf)) ∧
        lastColor bg? (performed ((first :: rest).map valueOf)) =
          lastColor bg? (defined ((first :: rest).map valueOf)) := by
  rw [← foldl_settle_eq_iff]
  constructor
  · intro obeys current
    let screen : ConsoleState fb := ConsoleState.new (fun _ => Vector.replicate 8 0x55) ⟨Bytes.zeros _, 0⟩
    have waiting : EscapeFsm.new.state = .escape := rfl
    obtain ⟨next, sent, _, shown⟩ := obeys (EscapeFsm.new, colored screen current) waiting
    rw [send_sgr first room waiting] at sent
    cases sent
    exact Prod.ext (congrArg ConsoleState.fgColor shown) (congrArg ConsoleState.bgColor shown)
  · intro same console waiting
    refine ⟨_, send_sgr first room waiting, rfl, ?_⟩
    rw [same]

theorem obeysSgr_of_defined (fb : FrameBuffer) (first : Option Numeral) {rest : List (Option Numeral)}
    (room : rest.length < maxParams) (all : AllDefined ((first :: rest).map valueOf)) : ObeysSgr fb first rest := by
  intro console waiting
  refine ⟨_, send_sgr first room waiting, rfl, ?_⟩
  rw [performed, settings_of_defined all, defined]

/-- `ESC [ 31 ; 44 m`. -/
theorem obeysSgr_plain : ObeysSgr (stripe 16) (some ⟨[0x33, 0x31], by decide, by simp [isDigit]⟩)
    [some ⟨[0x34, 0x34], by decide, by simp [isDigit]⟩] :=
  (obeysSgr_iff (stripe 16) _ (by decide)).mpr (by decide)

/-- `ESC [ 287 m` colors the text red, as 31 does, although 287 is no code; and of
`ESC [ 1 ; 31 m` the known code is lost. -/
theorem sgr_misread :
    ((onStripe 16).send [esc, 0x5B, 0x32, 0x38, 0x37, 0x6D]).map (fun console => console.2.fgColor) =
        .ok (themeColor 1) ∧
      defined [287] = [] ∧
      ((onStripe 16).send [esc, 0x5B, 0x31, 0x3B, 0x33, 0x31, 0x6D]).map (fun console => console.2.fgColor) =
        .ok defaultFg ∧
      defined [1, 31] = [.fg (themeColor 1)] := by
  decide +kernel

end FramebufferConsole

end Kei.Framebuffer
