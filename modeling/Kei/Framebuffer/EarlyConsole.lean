import Kei.Framebuffer.SixelReference

/-! The text path of the early framebuffer console (`print_str_ansi` in `fb_console.rs`). Its
output is the sequence of characters it draws, each with its color, and of images it is
given; the debug lines on the serial port are left out. -/

namespace Kei.Framebuffer

inductive Output
  | char (byte : UInt8) (color : UInt32)
  | image (data : List UInt8)
  deriving DecidableEq, Repr

/-- The statics of the console: the foreground color, the collected Sixel data, and the output. -/
structure EarlyConsole where
  currentFg : UInt32
  dcsBuf : List UInt8
  output : List Output
  deriving DecidableEq, Repr

inductive ScanState
  | normal
  | escape
  | csi
  | csiParam
  | dcsParam
  | dcsData
  | dcsEsc
  deriving DecidableEq, Repr

structure Scanner where
  state : ScanState
  paramBuf : Nat
  hasParam : Bool
  console : EarlyConsole
  deriving DecidableEq, Repr

def fgColor : UInt32 := 0xFFDCDFE4

def ansiPalette : Vector UInt32 16 :=
  #v[0xFF282C34, 0xFFE06C75, 0xFF98C379, 0xFFE5C07B, 0xFF61AFEF, 0xFFC678DD, 0xFF56B6C2, 0xFFDCDFE4,
    0xFF5A6374, 0xFFE06C75, 0xFF98C379, 0xFFE5C07B, 0xFF61AFEF, 0xFFC678DD, 0xFF56B6C2, 0xFFDCDFE4]

namespace EarlyConsole

def dcsCapacity : Nat := 4096

def writeByte (console : EarlyConsole) (byte : UInt8) : EarlyConsole :=
  { console with output := console.output ++ [.char byte console.currentFg] }

def sgrColor (code : Nat) : Option UInt32 :=
  if code = 0 then some fgColor
  else if 30 ≤ code ∧ code ≤ 37 then ansiPalette[code - 30]?
  else if code = 39 then some fgColor
  else if 90 ≤ code ∧ code ≤ 97 then ansiPalette[code - 90 + 8]?
  else none

def applySgr (console : EarlyConsole) (code : Nat) : EarlyConsole :=
  { console with currentFg := (sgrColor code).getD console.currentFg }

def collect (console : EarlyConsole) (bytes : List UInt8) : EarlyConsole :=
  if console.dcsBuf.length + bytes.length ≤ dcsCapacity then
    { console with dcsBuf := console.dcsBuf ++ bytes }
  else console

end EarlyConsole

open EarlyConsole List

namespace Scanner

def start (console : EarlyConsole) : Scanner := ⟨.normal, 0, false, console⟩

def escapeByte (scanner : Scanner) (byte : UInt8) : Scanner :=
  if byte = 0x5B then { scanner with state := .csi, paramBuf := 0, hasParam := false }
  else if byte = 0x50 then
    { scanner with state := .dcsParam, console := { scanner.console with dcsBuf := [] } }
  else if byte = esc then scanner
  else { scanner with state := .normal, console := scanner.console.writeByte byte }

def csiByte (scanner : Scanner) (byte : UInt8) : Scanner :=
  if isDigit byte then
    { scanner with state := .csiParam, paramBuf := pushDigit scanner.paramBuf byte, hasParam := true }
  else if byte = 0x6D then
    { scanner with
      state := .normal
      console := if scanner.hasParam then scanner.console
        else { scanner.console with currentFg := fgColor } }
  else if byte = 0x3B then { scanner with state := .csiParam }
  else { scanner with state := .normal }

def csiParamByte (scanner : Scanner) (byte : UInt8) : Scanner :=
  if isDigit byte then
    { scanner with paramBuf := pushDigit scanner.paramBuf byte, hasParam := true }
  else if byte = 0x3B then scanner
  else if byte = 0x6D then
    { state := .normal, paramBuf := 0, hasParam := false
      console := scanner.console.applySgr scanner.paramBuf }
  else { scanner with state := .normal }

def dcsEscByte (scanner : Scanner) (byte : UInt8) : Scanner :=
  if byte = 0x5C then
    { scanner with
      state := .normal
      console := { scanner.console with output := scanner.console.output ++ [.image scanner.console.dcsBuf] } }
  else if byte = esc then scanner
  else { scanner with state := .dcsData, console := scanner.console.collect [esc, byte] }

def step (scanner : Scanner) (byte : UInt8) : Scanner :=
  match scanner.state with
  | .normal =>
    if byte = esc then { scanner with state := .escape }
    else { scanner with console := scanner.console.writeByte byte }
  | .escape => scanner.escapeByte byte
  | .dcsParam =>
    if byte = 0x71 then { scanner with state := .dcsData }
    else if byte = esc then { scanner with state := .dcsEsc }
    else scanner
  | .dcsData =>
    if byte = esc then { scanner with state := .dcsEsc }
    else { scanner with console := scanner.console.collect [byte] }
  | .dcsEsc => scanner.dcsEscByte byte
  | .csi => scanner.csiByte byte
  | .csiParam => scanner.csiParamByte byte

end Scanner

def Scanner.run (scanner : Scanner) (text : List UInt8) : Scanner := text.foldl step scanner

abbrev Parameter := { numeral : Numeral // numeral.value < 65536 }

/-- A text in the pieces its writer means: characters, color sequences with parameters, the
reset without one, other control sequences, and Sixel images. -/
inductive Piece
  | plain (byte : { b : UInt8 // b ≠ esc })
  | sgr (first : Parameter) (rest : List Parameter)
  | reset
  | control (params : List { b : UInt8 // isDigit b = true ∨ b = 0x3B })
      (final : { b : UInt8 // 0x40 ≤ b ∧ b ≤ 0x7E ∧ b ≠ 0x6D })
  | sixel (params : List { b : UInt8 // b ≠ 0x71 ∧ b ≠ esc }) (data : List { b : UInt8 // b ≠ esc })

def separated (rest : List Parameter) : List UInt8 := rest.flatMap fun param => 0x3B :: param.1.digits

def joined (first : Parameter) (rest : List Parameter) : Numeral where
  digits := first.1.digits ++ rest.flatMap fun param => param.1.digits
  nonempty := by simp [first.1.nonempty]
  decimal := by
    intro digit member
    rw [mem_append, mem_flatMap] at member
    obtain inFirst | ⟨param, _, inParam⟩ := member
    · exact first.1.decimal digit inFirst
    · exact param.1.decimal digit inParam

namespace Piece

def bytes : Piece → List UInt8
  | plain byte => [byte.1]
  | sgr first rest => esc :: 0x5B :: (first.1.digits ++ (separated rest ++ [0x6D]))
  | reset => [esc, 0x5B, 0x6D]
  | control params final => esc :: 0x5B :: (params.map Subtype.val ++ [final.1])
  | sixel params data =>
    esc :: 0x50 :: (params.map Subtype.val ++ 0x71 :: (data.map Subtype.val ++ [esc, 0x5C]))

def foreground (fg : UInt32) : Piece → UInt32
  | sgr first _ => (sgrColor first.1.value).getD fg
  | reset => fgColor
  | plain _ | control _ _ | sixel _ _ => fg

/-- The digits of a color sequence, read as one number, choose the color that its first
parameter chooses. -/
def ReadsFirst (fg : UInt32) : Piece → Prop
  | sgr first rest =>
    (sgrColor (joined first rest).value).getD fg = (sgrColor first.1.value).getD fg
  | plain _ | reset | control _ _ | sixel _ _ => True

end Piece

open Piece

def text (pieces : List Piece) : List UInt8 := pieces.flatMap bytes

def EarlyConsole.chars (console : EarlyConsole) : List Output :=
  console.output.filter fun | .char _ _ => true | .image _ => false

/-- What a piece must have done: a character is printed in the current color, a color sequence
has the effect of its first parameter and no other, and nothing else prints a character. -/
def Piece.Done (before after : Scanner) (piece : Piece) : Prop :=
  after.state = .normal ∧ match piece with
    | plain byte => after.console = before.console.writeByte byte.1
    | sgr first _ => after.console = before.console.applySgr first.1.value
    | reset | control _ _ | sixel _ _ => after.console.chars = before.console.chars

def Scanner.Obeys (scanner : Scanner) (pieces : List Piece) : Prop :=
  ∀ done piece left, pieces = done ++ piece :: left →
    piece.Done (scanner.run (text done)) (scanner.run (text (done ++ [piece])))

def ReadsFirst (fg : UInt32) : List Piece → Prop
  | [] => True
  | piece :: pieces => piece.ReadsFirst fg ∧ ReadsFirst (piece.foreground fg) pieces

namespace Scanner

@[simp] theorem run_nil (scanner : Scanner) : scanner.run [] = scanner := rfl

@[simp] theorem run_cons (scanner : Scanner) (byte : UInt8) (bytes : List UInt8) :
    scanner.run (byte :: bytes) = (scanner.step byte).run bytes := rfl

theorem run_append (scanner : Scanner) (first second : List UInt8) :
    scanner.run (first ++ second) = (scanner.run first).run second := foldl_append

theorem run_digits {digits : List UInt8} (decimal : ∀ digit ∈ digits, isDigit digit = true)
    (value : Nat) (console : EarlyConsole) :
    run ⟨.csiParam, value, true, console⟩ digits =
      ⟨.csiParam, digits.foldl pushDigit value, true, console⟩ := by
  induction digits generalizing value with
  | nil => rfl
  | cons digit digits ih =>
    rw [forall_mem_cons] at decimal
    have read : step ⟨.csiParam, value, true, console⟩ digit =
        ⟨.csiParam, pushDigit value digit, true, console⟩ := by
      simp [step, csiParamByte, decimal.1]
    rw [run_cons, read, ih decimal.2, foldl_cons]

theorem run_separated (rest : List Parameter) (value : Nat) (console : EarlyConsole) :
    run ⟨.csiParam, value, true, console⟩ (separated rest) =
      ⟨.csiParam, (rest.flatMap fun param => param.1.digits).foldl pushDigit value, true, console⟩ := by
  induction rest generalizing value with
  | nil => rfl
  | cons param rest ih =>
    have skip : step ⟨.csiParam, value, true, console⟩ 0x3B = ⟨.csiParam, value, true, console⟩ := rfl
    rw [separated, flatMap_cons, cons_append, run_cons, skip, run_append,
      run_digits param.1.decimal, flatMap_cons, foldl_append]
    exact ih _

theorem run_first (first : Parameter) (paramBuf : Nat) (hasParam : Bool) (console : EarlyConsole) :
    run ⟨.normal, paramBuf, hasParam, console⟩ (esc :: 0x5B :: first.1.digits) =
      ⟨.csiParam, first.1.digits.foldl pushDigit 0, true, console⟩ := by
  have decimal := first.1.decimal
  have opened : run ⟨.normal, paramBuf, hasParam, console⟩ [esc, 0x5B] = ⟨.csi, 0, false, console⟩ := rfl
  change run (run ⟨.normal, paramBuf, hasParam, console⟩ [esc, 0x5B]) first.1.digits = _
  rw [opened]
  cases written : first.1.digits with
  | nil => exact absurd written first.1.nonempty
  | cons digit digits =>
    rw [written, forall_mem_cons] at decimal
    have read : step ⟨.csi, 0, false, console⟩ digit = ⟨.csiParam, pushDigit 0 digit, true, console⟩ := by
      simp [step, csiByte, decimal.1]
    rw [run_cons, read, run_digits decimal.2, foldl_cons]

end Scanner

theorem EarlyConsole.sgrColor_min (code : Nat) : sgrColor (min code u32Max) = sgrColor code := by
  obtain small | large := Nat.le_total code u32Max
  · rw [Nat.min_eq_left small]
  · rw [Nat.min_eq_right large]
    have far : 97 < code := Nat.lt_of_lt_of_le (by decide) large
    have passed : sgrColor code = none := by
      simp only [sgrColor]
      rw [if_neg (by omega), if_neg (by omega), if_neg (by omega), if_neg (by omega)]
    rw [passed]
    rfl

namespace Scanner

theorem run_sgr (first : Parameter) (rest : List Parameter) (paramBuf : Nat) (hasParam : Bool)
    (console : EarlyConsole) :
    run ⟨.normal, paramBuf, hasParam, console⟩ (sgr first rest).bytes =
      ⟨.normal, 0, false, console.applySgr (joined first rest).value⟩ := by
  have number : (joined first rest).digits.foldl pushDigit 0 = min (joined first rest).value u32Max :=
    pushDigits_eq _ 0
  have bytes : (sgr first rest).bytes =
      (esc :: 0x5B :: first.1.digits) ++ (separated rest ++ [0x6D]) := rfl
  rw [bytes, run_append, run_first, run_append, run_separated, ← foldl_append]
  change run ⟨.csiParam, (joined first rest).digits.foldl pushDigit 0, true, console⟩ [0x6D] = _
  rw [number]
  change (⟨.normal, 0, false, console.applySgr (min (joined first rest).value u32Max)⟩ : Scanner) = _
  rw [applySgr, sgrColor_min, applySgr]

def Controls (console : EarlyConsole) (scanner : Scanner) : Prop :=
  (scanner.state = .csi ∨ scanner.state = .csiParam) ∧ scanner.console = console

variable {scanner : Scanner} {console : EarlyConsole}

theorem Controls.param (inside : scanner.Controls console)
    {byte : UInt8} (param : isDigit byte = true ∨ byte = 0x3B) : (scanner.step byte).Controls console := by
  obtain ⟨state, paramBuf, hasParam, current⟩ := scanner
  obtain ⟨rfl | rfl, rfl⟩ := inside <;> obtain digit | rfl := param
  · simp [step, csiByte, digit, Controls]
  · exact ⟨.inr rfl, rfl⟩
  · simp [step, csiParamByte, digit, Controls]
  · exact ⟨.inr rfl, rfl⟩

theorem Controls.params (inside : scanner.Controls console)
    (params : List { b : UInt8 // isDigit b = true ∨ b = 0x3B }) :
    (scanner.run (params.map Subtype.val)).Controls console := by
  induction params generalizing scanner with
  | nil => exact inside
  | cons param params ih => exact ih (inside.param param.2)

theorem Controls.final (inside : scanner.Controls console)
    {byte : UInt8} (letter : 0x40 ≤ byte ∧ byte ≤ 0x7E ∧ byte ≠ 0x6D) :
    (scanner.step byte).state = .normal ∧ (scanner.step byte).console = console := by
  have digit : isDigit byte = false := by
    have low : ¬ byte ≤ 0x39 := by
      intro below
      exact absurd (UInt8.le_trans letter.1 below) (by decide)
    simp [isDigit, low]
  have separator : byte ≠ 0x3B := by
    rintro rfl
    exact absurd letter.1 (by decide)
  obtain ⟨state, paramBuf, hasParam, current⟩ := scanner
  obtain ⟨rfl | rfl, rfl⟩ := inside
  · simp [step, csiByte, digit, separator, letter.2.2]
  · simp [step, csiParamByte, digit, separator, letter.2.2]

def Collects (state : ScanState) (console : EarlyConsole) (scanner : Scanner) : Prop :=
  scanner.state = state ∧ scanner.console.currentFg = console.currentFg ∧
    scanner.console.output = console.output

theorem Collects.params
    (inside : scanner.Collects .dcsParam console) (params : List { b : UInt8 // b ≠ 0x71 ∧ b ≠ esc }) :
    (scanner.run (params.map Subtype.val)).Collects .dcsParam console := by
  induction params generalizing scanner with
  | nil => exact inside
  | cons param params ih =>
    refine ih ?_
    obtain ⟨state, paramBuf, hasParam, current⟩ := scanner
    obtain ⟨rfl, same⟩ := inside
    simpa [step, param.2.1, param.2.2] using ⟨rfl, same⟩

theorem Collects.data
    (inside : scanner.Collects .dcsData console) (data : List { b : UInt8 // b ≠ esc }) :
    (scanner.run (data.map Subtype.val)).Collects .dcsData console := by
  induction data generalizing scanner with
  | nil => exact inside
  | cons byte data ih =>
    refine ih ?_
    obtain ⟨state, paramBuf, hasParam, current⟩ := scanner
    obtain ⟨rfl, fg, output⟩ := inside
    simp only [step, byte.2, ↓reduceIte, collect]
    split
    · exact ⟨rfl, fg, output⟩
    · exact ⟨rfl, fg, output⟩

theorem run_control (params : List { b : UInt8 // isDigit b = true ∨ b = 0x3B })
    (final : { b : UInt8 // 0x40 ≤ b ∧ b ≤ 0x7E ∧ b ≠ 0x6D })
    (normal : scanner.state = .normal) :
    (scanner.run (control params final).bytes).state = .normal ∧
      (scanner.run (control params final).bytes).console = scanner.console := by
  obtain ⟨state, paramBuf, hasParam, console⟩ := scanner
  obtain rfl : state = .normal := normal
  have opened : (run ⟨.normal, paramBuf, hasParam, console⟩ [esc, 0x5B]).Controls console :=
    ⟨.inl rfl, rfl⟩
  have closed := (opened.params params).final final.2
  rw [← run_append] at closed
  have bytes : (control params final).bytes =
      ([esc, 0x5B] ++ params.map Subtype.val) ++ [final.1] := rfl
  rw [bytes, run_append]
  exact closed

theorem Collects.command
    (inside : scanner.Collects .dcsParam console) : (scanner.run [0x71]).Collects .dcsData console := by
  obtain ⟨state, paramBuf, hasParam, current⟩ := scanner
  obtain ⟨rfl, same⟩ := inside
  exact ⟨rfl, same⟩

theorem Collects.finish
    (inside : scanner.Collects .dcsData console) :
    (scanner.run [esc, 0x5C]).state = .normal ∧
      (scanner.run [esc, 0x5C]).console.currentFg = console.currentFg ∧
      ∃ image, (scanner.run [esc, 0x5C]).console.output = console.output ++ [.image image] := by
  obtain ⟨state, paramBuf, hasParam, current⟩ := scanner
  obtain ⟨rfl, fg, output⟩ := inside
  refine ⟨rfl, fg, current.dcsBuf, ?_⟩
  rw [← output]
  rfl

theorem run_sixel (params : List { b : UInt8 // b ≠ 0x71 ∧ b ≠ esc })
    (data : List { b : UInt8 // b ≠ esc }) (normal : scanner.state = .normal) :
    (scanner.run (sixel params data).bytes).state = .normal ∧
      (scanner.run (sixel params data).bytes).console.currentFg = scanner.console.currentFg ∧
      ∃ image, (scanner.run (sixel params data).bytes).console.output =
        scanner.console.output ++ [.image image] := by
  obtain ⟨state, paramBuf, hasParam, console⟩ := scanner
  obtain rfl : state = .normal := normal
  have opened : (run ⟨.normal, paramBuf, hasParam, console⟩ [esc, 0x50]).Collects .dcsParam console :=
    ⟨rfl, rfl, rfl⟩
  have bytes : (sixel params data).bytes =
      [esc, 0x50] ++ (params.map Subtype.val ++ ([0x71] ++ (data.map Subtype.val ++ [esc, 0x5C]))) := rfl
  rw [bytes, run_append, run_append, run_append, run_append]
  exact ((opened.params params).command.data data).finish

theorem done_iff (normal : scanner.state = .normal) (piece : Piece) :
    piece.Done scanner (scanner.run piece.bytes) ↔ piece.ReadsFirst scanner.console.currentFg := by
  have start := normal
  obtain ⟨state, paramBuf, hasParam, console⟩ := scanner
  obtain rfl : state = .normal := normal
  cases piece with
  | plain byte => simp [Piece.Done, Piece.ReadsFirst, bytes, step, byte.2]
  | sgr first rest =>
    rw [run_sgr]
    simp [Piece.Done, Piece.ReadsFirst, applySgr]
  | reset => exact iff_of_true ⟨rfl, rfl⟩ trivial
  | control params final =>
    obtain ⟨back, same⟩ := run_control params final start
    exact iff_of_true ⟨back, congrArg chars same⟩ trivial
  | sixel params data =>
    obtain ⟨back, _, image, output⟩ := run_sixel params data start
    refine iff_of_true ⟨back, ?_⟩ trivial
    simp [chars, output]

theorem run_piece (normal : scanner.state = .normal) {piece : Piece}
    (reads : piece.ReadsFirst scanner.console.currentFg) :
    (scanner.run piece.bytes).state = .normal ∧
      (scanner.run piece.bytes).console.currentFg = piece.foreground scanner.console.currentFg := by
  have done := (done_iff normal piece).mpr reads
  refine ⟨done.1, ?_⟩
  cases piece with
  | plain byte =>
    have printed : (scanner.run (plain byte).bytes).console = scanner.console.writeByte byte.1 := done.2
    rw [printed]
    rfl
  | sgr first rest => exact congrArg currentFg done.2
  | reset =>
    obtain ⟨state, paramBuf, hasParam, console⟩ := scanner
    obtain rfl : state = .normal := normal
    rfl
  | control params final => exact congrArg currentFg (run_control params final normal).2
  | sixel params data => exact (run_sixel params data normal).2.1

theorem obeys_cons (scanner : Scanner) (piece : Piece) (pieces : List Piece) :
    scanner.Obeys (piece :: pieces) ↔
      piece.Done scanner (scanner.run piece.bytes) ∧ (scanner.run piece.bytes).Obeys pieces := by
  have shift : ∀ done, scanner.run (text (piece :: done)) = (scanner.run piece.bytes).run (text done) := by
    intro done
    rw [text, flatMap_cons, run_append, text]
  constructor
  · intro obeys
    refine ⟨?_, ?_⟩
    · simpa [text] using obeys [] piece pieces rfl
    · rintro done next left rfl
      have later := obeys (piece :: done) next left rfl
      rwa [cons_append, shift, shift] at later
  · rintro ⟨now, later⟩ done next left split
    cases done with
    | nil =>
      obtain ⟨rfl, rfl⟩ := List.cons.inj split
      simpa [text] using now
    | cons first done =>
      obtain ⟨rfl, rfl⟩ := List.cons.inj split
      rw [cons_append, shift, shift]
      exact later done next left rfl

theorem obeys_iff (normal : scanner.state = .normal) (pieces : List Piece) :
    scanner.Obeys pieces ↔ ReadsFirst scanner.console.currentFg pieces := by
  induction pieces generalizing scanner with
  | nil =>
    refine iff_of_true ?_ trivial
    intro done piece left split
    exact absurd split (by simp)
  | cons piece pieces ih =>
    rw [obeys_cons, done_iff normal, ReadsFirst]
    apply and_congr_right
    intro reads
    obtain ⟨back, color⟩ := run_piece normal reads
    rw [ih back, color]

theorem obeys_of_single (normal : scanner.state = .normal) {pieces : List Piece}
    (single : ∀ first rest, sgr first rest ∈ pieces → rest = []) : scanner.Obeys pieces := by
  rw [obeys_iff normal]
  generalize scanner.console.currentFg = fg
  induction pieces generalizing fg with
  | nil => trivial
  | cons piece pieces ih =>
    refine ⟨?_, ih (fun first rest member => single first rest (mem_cons_of_mem _ member)) _⟩
    cases piece with
    | sgr first rest =>
      obtain rfl := single first rest mem_cons_self
      simp [Piece.ReadsFirst, joined, Numeral.value]
    | _ => trivial

end Scanner

end Kei.Framebuffer
