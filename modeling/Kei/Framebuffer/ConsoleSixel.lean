import Kei.Framebuffer.SixelReference

/-! The other Sixel decoder of the kernel, that of the early console (`decode_sixel` in
`fb_console.rs`), with colors as `XRGB8888` words and a palette of 256 entries. -/

namespace Kei.Framebuffer

open Library Checked

structure SixelState where
  palette : List UInt32
  currentColor : Nat
  grid : List (List UInt32)
  gridW : Nat
  curX : Nat
  curSixelY : Nat
  deriving DecidableEq, Repr

namespace SixelState

def background : UInt32 := 0xFF000000

def wordSize : Nat := 4

def vt330 : List UInt32 :=
  [0xFF000000, 0xFF3333CC, 0xFFCC3333, 0xFF33CC33, 0xFFCC33CC, 0xFF33CCCC, 0xFFCCCC33, 0xFFCCCCCC,
    0xFF333333, 0xFF3333FF, 0xFFFF3333, 0xFF33FF33, 0xFFFF33FF, 0xFF33FFFF, 0xFFFFFF33, 0xFFFFFFFF]

def new : SixelState := ⟨vt330 ++ List.replicate 240 background, 0, [], 0, 0, 0⟩

def ensureGrid (grid : List (List UInt32)) (gridW needW needH : Nat) :
    Checked (List (List UInt32) × Nat) := do
  let (grid, gridW, _) ← growGrid wordSize background grid gridW grid.length needW needH
  return (grid, gridW)

def writeSixelCol (grid : List (List UInt32)) (gridW x sixelY bits : Nat) (color : UInt32) :
    Checked (List (List UInt32)) :=
  writeSixelColumn grid gridW x sixelY bits color

def putColumn (state : SixelState) (bits : Nat) (color : UInt32) : Checked SixelState := do
  let needW ← add usizeMax state.curX 1
  let needH ← mul usizeMax (← add usizeMax state.curSixelY 1) 6
  let (grid, gridW) ← ensureGrid state.grid state.gridW needW needH
  let grid ← writeSixelCol grid gridW state.curX state.curSixelY bits color
  return { state with grid := grid, gridW := gridW, curX := needW }

def putColumns : Nat → SixelState → Nat → UInt32 → Checked SixelState
  | 0, state, _, _ => .ok state
  | count + 1, state, bits, color => do putColumns count (← state.putColumn bits color) bits color

def word (red green blue : Nat) : UInt32 :=
  (0xFF000000 : UInt32) ||| (UInt32.ofNat red <<< (16 : UInt32)) ||| (UInt32.ofNat green <<< (8 : UInt32)) |||
    UInt32.ofNat blue

def shade (r g b : Nat) : Checked UInt32 := do
  return word ((← mul u32Max r 255) / 100) ((← mul u32Max g 255) / 100) ((← mul u32Max b 255) / 100)

def defineColor (state : SixelState) (params : List Nat) : Checked SixelState :=
  match params with
  | reg :: _ :: r :: g :: b :: _ => do
    let color ← shade r g b
    if reg < state.palette.length then
      return { state with palette := ← store state.palette reg color, currentColor := reg }
    return { state with currentColor := reg }
  | reg :: _ => .ok { state with currentColor := reg }
  | [] => .ok { state with currentColor := 0 }

def repeatColumn (state : SixelState) (count : Nat) : List UInt8 → Checked (SixelState × List UInt8)
  | [] => .ok (state, [])
  | sixelChar :: rest =>
    if isDataChar sixelChar then do
      let color ← index state.palette (min state.currentColor 255)
      return (← putColumns count state (sixelChar.toNat - 0x3F) color, rest)
    else .ok (state, rest)

def drawChar (state : SixelState) (bits : Nat) : Checked SixelState := do
  state.putColumn bits (← index state.palette state.currentColor)

def nextBand (state : SixelState) : Checked SixelState := do
  return { state with curX := 0, curSixelY := ← add usizeMax state.curSixelY 1 }

def parseSixelParams (data : List UInt8) : List Nat × Nat := parseParams data

def decodeStep (state : SixelState) (c : UInt8) (rest : List UInt8) :
    Checked (SixelState × List UInt8) :=
  if c = 0x23 then do
    let (params, consumed) := parseSixelParams rest
    return (← state.defineColor params, rest.drop consumed)
  else if c = 0x21 then
    let (params, consumed) := parseSixelParams rest
    state.repeatColumn (params.headD 1) (rest.drop consumed)
  else if c = 0x24 then .ok ({ state with curX := 0 }, rest)
  else if c = 0x2D then do
    return (← state.nextBand, rest)
  else if isDataChar c then do
    return (← state.drawChar (c.toNat - 0x3F), rest)
  else .ok (state, rest)

def decodeLoop : Nat → SixelState → List UInt8 → Checked SixelState
  | 0, state, _ => .ok state
  | _ + 1, state, [] => .ok state
  | turns + 1, state, c :: rest => do
    let (state, rest) ← state.decodeStep c rest
    decodeLoop turns state rest

def flatRow (gridW : Nat) (row : List UInt32) : Checked (List UInt32) :=
  (List.range gridW).mapM fun x => if x < row.length then index row x else .ok background

end SixelState

open SixelState in
def decodeSixel (data : List UInt8) : Checked (Option (Nat × Nat × List UInt32)) := do
  let state ← SixelState.decodeLoop data.length SixelState.new data
  let height := state.grid.length
  if state.gridW = 0 ∨ height = 0 then
    return none
  withCapacity wordSize (← mul usizeMax state.gridW height)
  return some (state.gridW, height, (← state.grid.mapM (flatRow state.gridW)).flatten)

end Kei.Framebuffer
