import Kei.Library.Checked
import Mathlib.Data.Vector.Basic

/-! The Sixel decoder (`sixel.rs`). The input cursor of `decode` is the list of bytes it
has not consumed yet; arithmetic is checked where a build with overflow checks checks
it and an input can reach the bound. A grown vector takes no more room than it needs. -/

namespace Kei.Framebuffer

open Library Checked

structure Pixel where
  red : UInt8
  green : UInt8
  blue : UInt8
  deriving DecidableEq, Repr

def Pixel.black : Pixel := ⟨0, 0, 0⟩

def maxRegisters : Nat := 256

def u32Max : Nat := 4294967295

def usizeMax : Nat := 18446744073709551615

def isizeMax : Nat := 9223372036854775807

structure SixelImage where
  width : Nat
  height : Nat
  pixels : List Pixel
  deriving DecidableEq, Repr

def defaultPalette : Vector Pixel 16 :=
  #v[⟨0, 0, 0⟩, ⟨51, 51, 204⟩, ⟨204, 51, 51⟩, ⟨51, 204, 51⟩, ⟨204, 51, 204⟩, ⟨51, 204, 204⟩,
    ⟨204, 204, 51⟩, ⟨204, 204, 204⟩, ⟨51, 51, 51⟩, ⟨51, 51, 255⟩, ⟨255, 51, 51⟩, ⟨51, 255, 51⟩,
    ⟨255, 51, 255⟩, ⟨51, 255, 255⟩, ⟨255, 255, 51⟩, ⟨255, 255, 255⟩]

def isDigit (byte : UInt8) : Bool := 0x30 ≤ byte && byte ≤ 0x39

def pushDigit (current : Nat) (byte : UInt8) : Nat :=
  min (min (current * 10) u32Max + (byte.toNat - 0x30)) u32Max

def parseParamsLoop : List UInt8 → List Nat → Nat → Bool → Nat → List Nat × Nat
  | [], params, current, hasDigit, consumed =>
    (if hasDigit then params ++ [current] else params, consumed)
  | byte :: rest, params, current, hasDigit, consumed =>
    if isDigit byte then parseParamsLoop rest params (pushDigit current byte) true (consumed + 1)
    else if byte = 0x3B then
      parseParamsLoop rest (params ++ [if hasDigit then current else 0]) 0 false (consumed + 1)
    else (if hasDigit then params ++ [current] else params, consumed)

def parseParams (data : List UInt8) : List Nat × Nat := parseParamsLoop data [] 0 false 0

structure Canvas where
  palette : Vector Pixel 16
  currentColor : Nat
  rasterW : Option Nat
  rasterH : Option Nat
  gridPixels : List (List Pixel)
  gridWidth : Nat
  gridHeight : Nat
  curX : Nat
  curSixelY : Nat

def Canvas.new : Canvas := ⟨defaultPalette, 0, none, none, [], 0, 0, 0, 0⟩

/-- A vector of `count` elements of `size` bytes is refused above `isize::MAX` bytes. -/
def withCapacity (size count : Nat) : Checked Unit :=
  if count * size ≤ isizeMax then .ok () else .error .capacityOverflow

def pixelSize : Nat := 3

def vecSize : Nat := 24

section Grid

variable {α : Type}

def resize (size needW : Nat) (blank : α) (row : List α) : Checked (List α) := do
  withCapacity size needW
  return (row ++ List.replicate (needW - row.length) blank).take needW

def growWidth (size : Nat) (blank : α) (grid : List (List α)) (width needW : Nat) :
    Checked (List (List α) × Nat) :=
  if needW > width then do return (← grid.mapM (resize size needW blank), needW)
  else .ok (grid, width)

def growHeight (size : Nat) (blank : α) (grid : List (List α)) (width height needH : Nat) :
    Checked (List (List α) × Nat) :=
  if needH > height then do
    withCapacity size width
    withCapacity vecSize needH
    return (grid ++ List.replicate (needH - height) (List.replicate width blank), needH)
  else .ok (grid, height)

def growGrid (size : Nat) (blank : α) (grid : List (List α)) (width height needW needH : Nat) :
    Checked (List (List α) × Nat × Nat) := do
  let (grid, width) ← growWidth size blank grid width needW
  let (grid, height) ← growHeight size blank grid width height needH
  return (grid, width, height)

def writeSixelBit (x sixelY bits : Nat) (color : α) (grid : List (List α)) (bit : Nat) :
    Checked (List (List α)) :=
  if bits.testBit bit then
    let py := sixelY * 6 + bit
    if py < grid.length then do
      let row ← index grid py
      store grid py (← store row x color)
    else .ok grid
  else .ok grid

def writeSixelColumn (grid : List (List α)) (gridWidth x sixelY bits : Nat) (color : α) :
    Checked (List (List α)) :=
  if x ≥ gridWidth then .ok grid
  else (List.range 6).foldlM (writeSixelBit x sixelY bits color) grid

end Grid

def ensureGridSize (canvas : Canvas) (needW needH : Nat) : Checked Canvas := do
  let (grid, width, height) ←
    growGrid pixelSize Pixel.black canvas.gridPixels canvas.gridWidth canvas.gridHeight needW needH
  return { canvas with gridPixels := grid, gridWidth := width, gridHeight := height }

theorem register_lt (reg : Nat) : reg % 16 < 16 := Nat.mod_lt reg (by decide)

def putColumn (canvas : Canvas) (bits : Nat) : Checked Canvas := do
  let pixel := canvas.palette[canvas.currentColor % 16]
  let needW ← add usizeMax canvas.curX 1
  let needH ← mul usizeMax (← add usizeMax canvas.curSixelY 1) 6
  let canvas ← ensureGridSize canvas needW needH
  let grid ← writeSixelColumn canvas.gridPixels canvas.gridWidth canvas.curX canvas.curSixelY bits pixel
  return { canvas with gridPixels := grid, curX := needW }

def putColumns : Nat → Canvas → Nat → Checked Canvas
  | 0, canvas, _ => .ok canvas
  | count + 1, canvas, bits => do putColumns count (← putColumn canvas bits) bits

def isDataChar (byte : UInt8) : Bool := 0x3F ≤ byte && byte ≤ 0x7E

def percentChannel (value : Nat) : Checked UInt8 := do
  return UInt8.ofNat ((← mul u32Max value 255) / 100)

def defineColor (canvas : Canvas) (params : List Nat) : Checked Canvas :=
  match params with
  | [] => .ok { canvas with currentColor := 0 }
  | reg :: _ :: r :: g :: b :: _ => do
    let pixel := ⟨← percentChannel r, ← percentChannel g, ← percentChannel b⟩
    if reg < maxRegisters then
      return { canvas with palette := canvas.palette.set (reg % 16) pixel, currentColor := reg }
    return canvas
  | reg :: _ => .ok { canvas with currentColor := reg }

def setRaster (canvas : Canvas) (params : List Nat) : Canvas :=
  match params with
  | _ :: _ :: width :: height :: _ => { canvas with rasterW := some width, rasterH := some height }
  | _ => canvas

def repeatColumn (canvas : Canvas) (count : Nat) : List UInt8 → Checked (Canvas × List UInt8)
  | [] => .ok (canvas, [])
  | sixelChar :: rest =>
    if isDataChar sixelChar then do
      return (← putColumns count canvas (sixelChar.toNat - 0x3F), rest)
    else .ok (canvas, rest)

def nextBand (canvas : Canvas) : Checked Canvas := do
  return { canvas with curX := 0, curSixelY := ← add usizeMax canvas.curSixelY 1 }

def decodeStep (canvas : Canvas) (c : UInt8) (rest : List UInt8) : Checked (Canvas × List UInt8) :=
  if c = 0x22 then
    let (params, consumed) := parseParams rest
    .ok (setRaster canvas params, rest.drop consumed)
  else if c = 0x23 then do
    let (params, consumed) := parseParams rest
    return (← defineColor canvas params, rest.drop consumed)
  else if c = 0x21 then
    let (params, consumed) := parseParams rest
    repeatColumn canvas (params.headD 1) (rest.drop consumed)
  else if c = 0x24 then .ok ({ canvas with curX := 0 }, rest)
  else if c = 0x2D then do
    return (← nextBand canvas, rest)
  else if isDataChar c then do
    return (← putColumn canvas (c.toNat - 0x3F), rest)
  else .ok (canvas, rest)

/-- The loop of `decode`; a turn consumes a byte at least, so as many turns as there are
bytes are enough. -/
def decodeLoop : Nat → Canvas → List UInt8 → Checked Canvas
  | 0, canvas, _ => .ok canvas
  | _ + 1, canvas, [] => .ok canvas
  | turns + 1, canvas, c :: rest => do
    let (canvas, rest) ← decodeStep canvas c rest
    decodeLoop turns canvas rest

def flatPixel (canvas : Canvas) (y x : Nat) : Checked Pixel :=
  if y < canvas.gridHeight ∧ x < canvas.gridWidth then do index (← index canvas.gridPixels y) x
  else .ok Pixel.black

def flatten (canvas : Canvas) (width height : Nat) : Checked (List Pixel) := do
  let rows ← (List.range height).mapM fun y => (List.range width).mapM fun x => flatPixel canvas y x
  return rows.flatten

def decode (dcsData : List UInt8) : Checked (Option SixelImage) := do
  let canvas ← decodeLoop dcsData.length Canvas.new dcsData
  let width := canvas.rasterW.getD canvas.gridWidth
  let height := canvas.rasterH.getD canvas.gridHeight
  if width = 0 ∨ height = 0 then
    return none
  withCapacity pixelSize (← mul usizeMax width height)
  return some ⟨width, height, ← flatten canvas width height⟩

/-! The escape byte of the terminator reaches the decoder with the data and changes
nothing there. -/

def esc : UInt8 := 0x1B

theorem parseParamsLoop_append_esc (data : List UInt8) (params : List Nat) (current : Nat)
    (hasDigit : Bool) (consumed : Nat) :
    parseParamsLoop (data ++ [esc]) params current hasDigit consumed =
      parseParamsLoop data params current hasDigit consumed := by
  induction data generalizing params current hasDigit consumed with
  | nil => rfl
  | cons byte rest ih => simp only [List.cons_append, parseParamsLoop, ih]

theorem parseParamsLoop_consumed_le (data : List UInt8) (params : List Nat) (current : Nat)
    (hasDigit : Bool) (consumed : Nat) :
    (parseParamsLoop data params current hasDigit consumed).2 ≤ consumed + data.length := by
  induction data generalizing params current hasDigit consumed with
  | nil => simp [parseParamsLoop]
  | cons byte rest ih =>
    simp only [parseParamsLoop, List.length_cons]
    split
    · exact Nat.le_trans (ih ..) (by omega)
    · split
      · exact Nat.le_trans (ih ..) (by omega)
      · simp only
        omega

theorem parseParams_append_esc (data : List UInt8) : parseParams (data ++ [esc]) = parseParams data :=
  parseParamsLoop_append_esc data [] 0 false 0

theorem parseParams_consumed_le (data : List UInt8) : (parseParams data).2 ≤ data.length := by
  simpa [parseParams] using parseParamsLoop_consumed_le data [] 0 false 0

/-- How a turn on `rest` and one on `rest ++ [esc]` compare: both panic alike, or both
draw the same and the second leaves the escape byte, unless a repeat count took it. -/
def SameTurn (rest : List UInt8) (plain escaped : Checked (Canvas × List UInt8)) : Prop :=
  (∃ panic, plain = .error panic ∧ escaped = .error panic) ∨
    ∃ canvas left, plain = .ok (canvas, left) ∧ left.length ≤ rest.length ∧
      (escaped = .ok (canvas, left ++ [esc]) ∨ left = [] ∧ escaped = .ok (canvas, []))

theorem sameTurn_of_canvas (rest left : List UInt8) (canvas : Checked Canvas)
    (shorter : left.length ≤ rest.length) :
    SameTurn rest (do return (← canvas, left)) (do return (← canvas, left ++ [esc])) := by
  cases canvas with
  | error panic => exact Or.inl ⟨panic, rfl, rfl⟩
  | ok canvas => exact Or.inr ⟨canvas, left, rfl, shorter, Or.inl rfl⟩

theorem repeatColumn_sameTurn (rest left : List UInt8) (canvas : Canvas) (count : Nat)
    (shorter : left.length ≤ rest.length) :
    SameTurn rest (repeatColumn canvas count left) (repeatColumn canvas count (left ++ [esc])) := by
  cases left with
  | nil => exact Or.inr ⟨canvas, [], rfl, by simp, Or.inr ⟨rfl, rfl⟩⟩
  | cons sixelChar tail =>
    rw [List.length_cons] at shorter
    simp only [List.cons_append, repeatColumn]
    split
    · exact sameTurn_of_canvas rest tail _ (by omega)
    · exact sameTurn_of_canvas rest tail (.ok canvas) (by omega)

theorem decodeStep_sameTurn (canvas : Canvas) (c : UInt8) (rest : List UInt8) :
    SameTurn rest (decodeStep canvas c rest) (decodeStep canvas c (rest ++ [esc])) := by
  have within := parseParams_consumed_le rest
  have dropped : (rest ++ [esc]).drop (parseParams rest).2 = rest.drop (parseParams rest).2 ++ [esc] :=
    List.drop_append_of_le_length within
  have shorter : (rest.drop (parseParams rest).2).length ≤ rest.length := by
    rw [List.length_drop]
    omega
  simp only [decodeStep, parseParams_append_esc, dropped]
  split
  · exact sameTurn_of_canvas rest _ (.ok _) shorter
  split
  · exact sameTurn_of_canvas rest _ _ shorter
  split
  · exact repeatColumn_sameTurn rest _ canvas _ shorter
  split
  · exact sameTurn_of_canvas rest rest (.ok _) (Nat.le_refl _)
  split
  · exact sameTurn_of_canvas rest rest _ (Nat.le_refl _)
  split
  · exact sameTurn_of_canvas rest rest _ (Nat.le_refl _)
  · exact sameTurn_of_canvas rest rest (.ok canvas) (Nat.le_refl _)

theorem decodeLoop_append_esc (turns : Nat) (canvas : Canvas) (data : List UInt8)
    (enough : data.length ≤ turns) :
    decodeLoop (turns + 1) canvas (data ++ [esc]) = decodeLoop turns canvas data := by
  induction turns generalizing canvas data with
  | zero =>
    obtain rfl := List.eq_nil_of_length_eq_zero (Nat.le_zero.mp enough)
    rfl
  | succ turns ih =>
    cases data with
    | nil => rfl
    | cons c rest =>
      rw [List.length_cons] at enough
      rw [List.cons_append, decodeLoop, decodeLoop]
      rcases decodeStep_sameTurn canvas c rest with
        ⟨panic, plain, escaped⟩ | ⟨next, left, plain, shorter, escaped | ⟨rfl, escaped⟩⟩
      · rw [plain, escaped]
        rfl
      · rw [plain, escaped, bind_ok, bind_ok]
        exact ih next left (by omega)
      · rw [plain, escaped, bind_ok, bind_ok]
        cases turns <;> rfl

theorem decode_append_esc (data : List UInt8) : decode (data ++ [esc]) = decode data := by
  simp only [decode, List.length_append, List.length_singleton,
    decodeLoop_append_esc data.length Canvas.new data (Nat.le_refl _)]

end Kei.Framebuffer
