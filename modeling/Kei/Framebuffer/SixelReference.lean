import Kei.Framebuffer.SixelTotal

/-! The decoder against a painter with 256 independent registers, on payloads that are written
command by command. -/

namespace Kei.Framebuffer

open Library Checked Drawing List

structure Numeral where
  digits : List UInt8
  nonempty : digits ≠ []
  decimal : ∀ digit ∈ digits, isDigit digit = true

def Numeral.value (numeral : Numeral) : Nat :=
  numeral.digits.foldl (fun value digit => value * 10 + (digit.toNat - 0x30)) 0

def Numeral.two : Numeral := ⟨[0x32], by decide, by simp [isDigit]⟩

def definitionBytes (register co red green blue : Numeral) : List UInt8 :=
  register.digits ++ 0x3B :: (co.digits ++ 0x3B :: (red.digits ++ 0x3B :: (green.digits ++
    0x3B :: blue.digits)))

inductive Instruction
  | define (register : { r : Numeral // r.value ≤ 255 }) (red green blue : { c : Numeral // c.value ≤ 100 })
  | select (register : { r : Numeral // r.value ≤ 255 })
  | data (char : { c : UInt8 // isDataChar c = true })
  | repeated (count : Numeral) (char : { c : UInt8 // isDataChar c = true })
  | carriageReturn
  | nextBand

namespace Instruction

def bytes : Instruction → List UInt8
  | define register red green blue =>
    0x23 :: definitionBytes register.1 Numeral.two red.1 green.1 blue.1
  | select register => 0x23 :: register.1.digits
  | data char => [char.1]
  | repeated count char => 0x21 :: (count.digits ++ [char.1])
  | carriageReturn => [0x24]
  | nextBand => [0x2D]

def command : Instruction → Command
  | define register red green blue =>
    .color [register.1.value, 2, red.1.value, green.1.value, blue.1.value]
  | select register => .color [register.1.value]
  | data char => .data (char.1.toNat - 0x3F)
  | repeated count char => .repeated (min count.value u32Max) (char.1.toNat - 0x3F)
  | carriageReturn => .carriageReturn
  | nextBand => .nextBand

end Instruction

open Instruction

def payload (instructions : List Instruction) : List UInt8 := instructions.flatMap bytes

section Parsing

def EndsParams (data : List UInt8) : Prop :=
  ∀ byte, data.head? = some byte → isDigit byte = false ∧ byte ≠ 0x3B

theorem pushDigits_eq (digits : List UInt8) (value : Nat) :
    digits.foldl pushDigit (min value u32Max) =
      min (digits.foldl (fun value digit => value * 10 + (digit.toNat - 0x30)) value) u32Max := by
  induction digits generalizing value with
  | nil => rfl
  | cons digit digits ih =>
    rw [foldl_cons, foldl_cons, ← ih]
    congr 1
    simp only [pushDigit, u32Max]
    omega

theorem parseParamsLoop_digits {digits : List UInt8} (decimal : ∀ digit ∈ digits, isDigit digit = true)
    (rest : List UInt8) (params : List Nat) (current : Nat) (hasDigit : Bool) (consumed : Nat) :
    parseParamsLoop (digits ++ rest) params current hasDigit consumed =
      parseParamsLoop rest params (digits.foldl pushDigit current) (hasDigit || !digits.isEmpty)
        (consumed + digits.length) := by
  induction digits generalizing current hasDigit consumed with
  | nil => simp
  | cons digit digits ih =>
    rw [forall_mem_cons] at decimal
    rw [cons_append, parseParamsLoop, if_pos decimal.1, ih decimal.2]
    simp [Nat.add_comm, Nat.add_left_comm]

theorem parseParamsLoop_numeral (numeral : Numeral) (rest : List UInt8) (params : List Nat) (consumed : Nat) :
    parseParamsLoop (numeral.digits ++ rest) params 0 false consumed =
      parseParamsLoop rest params (min numeral.value u32Max) true (consumed + numeral.digits.length) := by
  have read : numeral.digits.foldl pushDigit 0 = min numeral.value u32Max := pushDigits_eq numeral.digits 0
  have some : numeral.digits.isEmpty = false := isEmpty_eq_false_iff.mpr numeral.nonempty
  rw [parseParamsLoop_digits numeral.decimal, read, some]
  rfl

theorem parseParamsLoop_separator (rest : List UInt8) (params : List Nat) (current consumed : Nat) :
    parseParamsLoop (0x3B :: rest) params current true consumed =
      parseParamsLoop rest (params ++ [current]) 0 false (consumed + 1) := by
  rw [parseParamsLoop, if_neg (by decide), if_pos rfl, if_pos rfl]

variable {rest : List UInt8}

theorem parseParamsLoop_end (ends : EndsParams rest) (params : List Nat)
    (current consumed : Nat) :
    parseParamsLoop rest params current true consumed = (params ++ [current], consumed) := by
  cases rest with
  | nil => rfl
  | cons byte rest =>
    obtain ⟨digit, separator⟩ := ends byte rfl
    rw [parseParamsLoop, if_neg (by rw [digit]; decide), if_neg separator]
    rfl

theorem Numeral.min_value {numeral : Numeral} (small : numeral.value ≤ 255) :
    min numeral.value u32Max = numeral.value :=
  Nat.min_eq_left (Nat.le_trans small (by decide))

theorem parseParams_numeral (numeral : Numeral) (ends : EndsParams rest) :
    parseParams (numeral.digits ++ rest) = ([min numeral.value u32Max], numeral.digits.length) := by
  rw [parseParams, parseParamsLoop_numeral, parseParamsLoop_end ends, Nat.zero_add, nil_append]

theorem parseParams_definition (register co red green blue : Numeral)
    (ends : EndsParams rest) :
    parseParams (definitionBytes register co red green blue ++ rest) =
      ([min register.value u32Max, min co.value u32Max, min red.value u32Max, min green.value u32Max,
          min blue.value u32Max],
        (definitionBytes register co red green blue).length) := by
  simp only [definitionBytes, parseParams, append_assoc, cons_append, parseParamsLoop_numeral,
    parseParamsLoop_separator, parseParamsLoop_end ends, nil_append, length_append, length_cons,
    Prod.mk.injEq, true_and]
  omega

end Parsing

theorem dataChar_ends {char : UInt8} (data : isDataChar char = true) : isDigit char = false ∧ char ≠ 0x3B := by
  have least : 0x3F ≤ char := by
    simp only [isDataChar, Bool.and_eq_true, decide_eq_true_eq] at data
    exact data.1
  constructor
  · simp only [isDigit, Bool.and_eq_false_iff, decide_eq_false_iff_not]
    right
    intro small
    exact absurd (UInt8.le_trans least small) (by decide)
  · rintro rfl
    exact absurd least (by decide)

theorem Instruction.endsParams (instruction : Instruction) (rest : List UInt8) :
    EndsParams (instruction.bytes ++ rest) := by
  rintro _ head
  cases instruction with
  | define register red green blue =>
    cases head
    decide
  | select register =>
    cases head
    decide
  | data char =>
    cases head
    exact dataChar_ends char.2
  | repeated count char =>
    cases head
    decide
  | carriageReturn =>
    cases head
    decide
  | nextBand =>
    cases head
    decide

theorem payload_endsParams (instructions : List Instruction) : EndsParams (payload instructions) := by
  cases instructions with
  | nil =>
    rintro _ head
    cases head
  | cons instruction rest => exact instruction.endsParams (payload rest)

theorem readCommand_dataChar {char : UInt8} (data : isDataChar char = true) (rest : List UInt8) :
    readCommand char rest = (.data (char.toNat - 0x3F), rest) := by
  have other {byte : UInt8} (no : isDataChar byte = false) : char ≠ byte := by
    rintro rfl
    rw [data] at no
    cases no
  rw [readCommand, if_neg (other (by decide)), if_neg (other (by decide)), if_neg (other (by decide)),
    if_neg (other (by decide)), if_neg (other (by decide)), if_pos data]

theorem Instruction.read (instruction : Instruction) {rest : List UInt8} (ends : EndsParams rest) :
    ∃ c tail, instruction.bytes = c :: tail ∧ readCommand c (tail ++ rest) = (instruction.command, rest) := by
  cases instruction with
  | define register red green blue =>
    refine ⟨_, _, rfl, ?_⟩
    have percent {c : Numeral} (small : c.value ≤ 100) : c.value ≤ 255 := Nat.le_trans small (by decide)
    rw [readCommand, if_neg (by decide), if_pos rfl, parseParams_definition _ _ _ _ _ ends, drop_left,
      Numeral.min_value register.2, Numeral.min_value (percent red.2), Numeral.min_value (percent green.2),
      Numeral.min_value (percent blue.2)]
    rfl
  | select register =>
    refine ⟨_, _, rfl, ?_⟩
    rw [readCommand, if_neg (by decide), if_pos rfl, parseParams_numeral _ ends, drop_left,
      Numeral.min_value register.2]
    rfl
  | data char => exact ⟨_, _, rfl, readCommand_dataChar char.2 rest⟩
  | repeated count char =>
    refine ⟨_, _, rfl, ?_⟩
    have stop : EndsParams (char.1 :: rest) := by
      rintro _ head
      cases head
      exact dataChar_ends char.2
    rw [append_assoc, singleton_append, readCommand, if_neg (by decide), if_neg (by decide),
      if_pos rfl, parseParams_numeral _ stop, drop_left]
    simp only [char.2, if_true]
    rfl
  | carriageReturn => exact ⟨_, _, rfl, rfl⟩
  | nextBand => exact ⟨_, _, rfl, rfl⟩

theorem readCommands_payload (instructions : List Instruction) (turns : Nat)
    (enough : (payload instructions).length ≤ turns) :
    readCommands turns (payload instructions) = instructions.map command := by
  induction instructions generalizing turns with
  | nil => cases turns <;> rfl
  | cons instruction rest ih =>
    obtain ⟨c, tail, bytes, read⟩ := instruction.read (payload_endsParams rest)
    have split : payload (instruction :: rest) = c :: (tail ++ payload rest) := by
      rw [payload, flatMap_cons, bytes]
      rfl
    rw [split, length_cons, length_append] at enough
    cases turns with
    | zero => omega
    | succ turns => rw [split, readCommands, read, ih turns (by omega), map_cons]

theorem commands_payload (instructions : List Instruction) :
    commands (payload instructions) = instructions.map command :=
  readCommands_payload instructions _ (Nat.le_refl _)

/-- The color of the painter with independent registers: the one defined last for the selected
register itself. -/
def referenceInk (history : List (List Nat)) : Pixel :=
  ((lastDefined (fun reg => reg == selected history) history).map percentPixel).getD
    defaultPalette[selected history % 16]

section Pictures

variable {α : Type} {first second : List (List Nat) → α} {drawing : Drawing}

theorem Drawing.find_inside {strokes : List Stroke} {px py : Nat} {stroke : Stroke}
    (found : strokes.find? (fun stroke => stroke.Covers px py) = some stroke) :
    px < strokes.foldr (fun stroke width => max width (stroke.x + stroke.count)) 0 ∧
      py < strokes.foldr (fun stroke height => max height ((stroke.band + 1) * 6)) 0 := by
  induction strokes with
  | nil => cases found
  | cons newest older ih =>
    rw [List.find?_cons] at found
    rw [foldr_cons, foldr_cons]
    split at found
    · rename_i covers
      have place : newest.Covers px py := of_decide_eq_true covers
      obtain ⟨⟨_, right⟩, row, _⟩ := place
      omega
    · have inside := ih found
      omega

theorem Drawing.top_inside {px py : Nat} {stroke : Stroke} (found : drawing.top px py = some stroke) :
    px < drawing.width ∧ py < drawing.height :=
  find_inside found

theorem Drawing.picture_eq_iff (background : α) :
    (∀ px py, px < drawing.width → py < drawing.height →
      drawing.picture first background px py = drawing.picture second background px py) ↔
      ∀ px py stroke, drawing.top px py = some stroke → first stroke.history = second stroke.history := by
  constructor
  · intro same px py stroke found
    obtain ⟨right, low⟩ := top_inside found
    have here := same px py right low
    rwa [picture, picture, found] at here
  · intro agree px py _ _
    rw [picture, picture]
    cases found : drawing.top px py with
    | none => rfl
    | some stroke => exact agree px py stroke found

end Pictures

theorem draw_raster {commands : List Command} (plain : ∀ params, .raster params ∉ commands) :
    (draw commands).raster = none := by
  have kept (drawing : Drawing) : (commands.foldl step drawing).raster = drawing.raster := by
    induction commands generalizing drawing with
    | nil => rfl
    | cons command rest ih =>
      rw [foldl_cons, ih fun params member => plain params (mem_cons_of_mem _ member)]
      cases command with
      | raster params => exact absurd mem_cons_self (plain params)
      | color params => rfl
      | repeated count bits => rfl
      | carriageReturn => rfl
      | nextBand => rfl
      | data bits => rfl
      | skipped => rfl
  exact kept blank

theorem Instruction.command_plain (instructions : List Instruction) (params : List Nat) :
    .raster params ∉ instructions.map command := by
  intro member
  obtain ⟨instruction, _, same⟩ := mem_map.mp member
  cases instruction <;> cases same

section Images

variable {drawing : Drawing}

theorem Drawing.image_eq (plain : drawing.raster = none) :
    drawing.image = if drawing.width = 0 ∨ drawing.height = 0 then none
      else some ⟨drawing.width, drawing.height,
        (table drawing.width drawing.height (drawing.picture ink Pixel.black)).flatten⟩ := by
  have size : drawing.size = (drawing.width, drawing.height) := by
    rw [size, plain]
    rfl
  rw [image, size]

theorem Drawing.top_of_image_none (plain : drawing.raster = none) (missing : drawing.image = none)
    (x y : Nat) : drawing.top x y = none := by
  cases found : drawing.top x y with
  | none => rfl
  | some stroke =>
    obtain ⟨right, low⟩ := top_inside found
    rw [image_eq plain, if_neg (by omega)] at missing
    cases missing

theorem Drawing.pixels_of_image {image : SixelImage} (plain : drawing.raster = none)
    (found : drawing.image = some image) :
    image.width = drawing.width ∧ image.height = drawing.height ∧
      ∀ x y, x < drawing.width → y < drawing.height →
        image.pixels[y * drawing.width + x]? = some (drawing.picture ink Pixel.black x y) := by
  rw [image_eq plain] at found
  split at found
  · cases found
  · cases found
    exact ⟨rfl, rfl, fun x y right low => getElem?_flatten_table right low⟩

end Images

/-- The decoder paints as the reference does exactly when the payload fits and, for every
stroke that is seen, no other register that shares the palette entry of the selected one got
another color after it. -/
theorem decode_reference_iff (instructions : List Instruction) :
    let drawing := draw (instructions.map command)
    (∃ result, decode (payload instructions) = .ok result ∧
      (result = none → ∀ x y, drawing.top x y = none) ∧
      ∀ image, result = some image → image.width = drawing.width ∧ image.height = drawing.height ∧
        ∀ x y, x < image.width → y < image.height →
          image.pixels[y * image.width + x]? = some (drawing.picture referenceInk Pixel.black x y)) ↔
      PayloadFits (payload instructions) ∧
        ∀ x y stroke, drawing.top x y = some stroke → ink stroke.history = referenceInk stroke.history := by
  intro drawing
  have plain : drawing.raster = none := draw_raster (command_plain instructions)
  have settles := decode_settles (payload instructions)
  rw [commands_payload] at settles
  rw [← picture_eq_iff Pixel.black, PayloadFits, commands_payload]
  constructor
  · rintro ⟨result, ran, _, painted⟩
    obtain ⟨fits, rfl⟩ := settles.of_ok ran
    refine ⟨fits, fun x y right low => ?_⟩
    cases found : drawing.image with
    | none =>
      rw [image_eq plain, if_neg (by omega)] at found
      cases found
    | some image =>
      obtain ⟨wide, tall, reference⟩ := painted image found
      have pixel := (pixels_of_image plain found).2.2 x y right low
      have expected := reference x y (wide ▸ right) (tall ▸ low)
      rw [wide, pixel] at expected
      exact Option.some.inj expected
  · rintro ⟨fits, same⟩
    obtain ⟨_, ran, rfl⟩ := settles.exists_ok fits
    refine ⟨_, ran, top_of_image_none plain, ?_⟩
    intro image found
    obtain ⟨wide, tall, pixels⟩ := pixels_of_image plain found
    refine ⟨wide, tall, fun x y right low => ?_⟩
    rw [wide] at right ⊢
    rw [tall] at low
    rw [pixels x y right low, same x y right low]

/-- Register 0 made red, register 16 made green, and a column drawn with register 0:
`#0;2;100;0;0#16;2;0;100;0#0~`. -/
def aliased : List Instruction :=
  let zero : Numeral := ⟨[0x30], by decide, by simp [isDigit]⟩
  let sixteen : Numeral := ⟨[0x31, 0x36], by decide, by simp [isDigit]⟩
  let hundred : Numeral := ⟨[0x31, 0x30, 0x30], by decide, by simp [isDigit]⟩
  [.define ⟨zero, by decide⟩ ⟨hundred, by decide⟩ ⟨zero, by decide⟩ ⟨zero, by decide⟩,
    .define ⟨sixteen, by decide⟩ ⟨zero, by decide⟩ ⟨hundred, by decide⟩ ⟨zero, by decide⟩,
    .select ⟨zero, by decide⟩, .data ⟨0x7E, by decide⟩]

/-- The column comes out green. -/
theorem aliased_decodes :
    decode (payload aliased) = .ok (some ⟨1, 6, List.replicate 6 ⟨0, 255, 0⟩⟩) ∧
      (draw (aliased.map command)).picture referenceInk Pixel.black 0 0 = ⟨255, 0, 0⟩ := by
  decide +kernel

end Kei.Framebuffer
