import Kei.Framebuffer.AnsiEscape
import Kei.Framebuffer.Backend

/-! The text console on a framebuffer (`console.rs`): a cursor, a font, a buffer with the
content of the screen, and the framebuffer it is drawn to while output is enabled. -/

namespace Kei.Framebuffer

open Library Checked

inductive ConsoleMode
  | text
  | graphics
  deriving DecidableEq, Repr

structure ConsoleState (fb : FrameBuffer) where
  xPos : Nat
  yPos : Nat
  fgColor : Pixel
  bgColor : Pixel
  font : BitmapFont
  isActive : Bool
  mode : ConsoleMode
  bytes : Bytes fb.bufferSize
  device : Device fb.bufferSize

namespace ConsoleState

variable {fb : FrameBuffer}

def new (glyphs : BitmapFont.BasicFonts) (device : Device fb.bufferSize) : ConsoleState fb where
  xPos := 0
  yPos := 0
  fgColor := ⟨0xDC, 0xDF, 0xE4⟩
  bgColor := ⟨0x28, 0x2C, 0x34⟩
  font := BitmapFont.newBasic8x8 glyphs
  isActive := false
  mode := .text
  bytes := Bytes.zeros fb.bufferSize
  device := device

variable (state : ConsoleState fb)

def isOutputEnabled : Bool := state.isActive && state.mode = .text

def output (offset : Nat) (data : List UInt8) : Checked (ConsoleState fb) :=
  if state.isOutputEnabled then do
    return { state with device := ← fb.writeBytesAt state.device offset data }
  else .ok state

def flushFullscreen : Checked (ConsoleState fb) :=
  state.output 0 state.bytes.1

def drawBytes (offset : Nat) (data : List UInt8) : Checked (ConsoleState fb) := do
  let _stop ← add usizeMax offset data.length
  let state := { state with bytes := ← state.bytes.copyFromSlice offset data }
  state.output offset data

def drawRows (fgPixel bgPixel : List UInt8) :
    List (List UInt8) → Nat → ConsoleState fb → Checked (ConsoleState fb)
  | [], _, state => .ok state
  | row :: rows, offset, state => do
    let bits ← state.font.bits row
    let state ← state.drawBytes offset (bits.flatMap fun isFg => if isFg then fgPixel else bgPixel)
    drawRows fgPixel bgPixel rows (← fb.yAdd offset) state

def drawChar (ch : UInt8) : Checked (ConsoleState fb) :=
  match state.font.char ch with
  | none => .ok state
  | some rows => do
    drawRows (fb.renderPixel state.fgColor) (fb.renderPixel state.bgColor) rows
      (← fb.calcOffset state.xPos state.yPos) state

def shiftLinesUp : Checked (ConsoleState fb) := do
  let offset ← fb.calcOffset 0 state.font.height
  let state := { state with bytes := ← state.bytes.shiftDown offset }
  let state ← state.output 0 state.bytes.1
  return { state with yPos := ← sub state.yPos state.font.height }

def newline : Checked (ConsoleState fb) := do
  let state := { state with yPos := ← add usizeMax state.yPos state.font.height, xPos := 0 }
  if state.yPos > (← sub fb.height state.font.height) then state.shiftLinesUp else .ok state

def carriageReturn : ConsoleState fb := { state with xPos := 0 }

def backspace : Checked (ConsoleState fb) := do
  if state.xPos < state.font.width then
    return state
  let state := { state with xPos := ← sub state.xPos state.font.width }
  state.drawChar 0x20

def wrapLine : Checked (ConsoleState fb) := do
  if state.xPos > (← sub fb.width state.font.width) then state.newline else .ok state

def sendChar (ch : UInt8) : Checked (ConsoleState fb) :=
  if ch = 0x0A then state.newline
  else if ch = 0x0D then .ok state.carriageReturn
  else if ch = 0x08 then state.backspace
  else do
    let state ← state.wrapLine
    let state ← state.drawChar ch
    return { state with xPos := ← add usizeMax state.xPos state.font.width }

def setFont (font : BitmapFont) : Checked (Bool × ConsoleState fb) := do
  if font.width > fb.width ∨ font.height > fb.height / 2 then
    return (false, state)
  let state := { state with font := font }
  if state.yPos > (← sub fb.height state.font.height) then
    return (true, ← state.shiftLinesUp)
  return (true, state)

def fillRectPixels (x0 y0 x1 y1 : Nat) (color : Pixel) : Checked (ConsoleState fb) := do
  assert (x1 ≤ fb.width)
  assert (y1 ≤ fb.height)
  let count ← sub x1 x0
  let row := (List.replicate count (fb.renderPixel color)).flatten
  (List.range' y0 (y1 - y0)).foldlM (fun state y => do state.drawBytes (← fb.calcOffset x0 y) row) state

def imageRow (fb : FrameBuffer) (pixels : List Pixel) (imgW drawW row : Nat) : Checked (List UInt8) := do
  let rendered ← (List.range drawW).mapM fun col => do
    return fb.renderPixel (← index pixels (row * imgW + col))
  return rendered.flatten

def advanceTo (newY : Nat) : Checked (ConsoleState fb) :=
  if newY ≥ fb.height then state.shiftLinesUp else .ok { state with yPos := newY }

def blitPixels (pixels : List Pixel) (imgW imgH : Nat) : Checked (ConsoleState fb) := do
  if imgW = 0 ∨ imgH = 0 then
    return state
  let xStart := min state.xPos fb.width
  let yStart := min state.yPos fb.height
  let drawW := min imgW (fb.width - xStart)
  let drawH := min imgH (fb.height - yStart)
  let state ← (List.range drawH).foldlM (fun (state : ConsoleState fb) row => do
    let offset ← fb.calcOffset xStart (yStart + row)
    state.drawBytes offset (← imageRow fb pixels imgW drawW row)) state
  let fontH := state.font.height
  let cellsH := (← sub (← add usizeMax imgH fontH) 1) / fontH
  let newY ← add usizeMax state.yPos (← mul usizeMax cellsH fontH)
  let state ← state.advanceTo newY
  return { state with xPos := 0 }

def cursorCellRect : Checked (Nat × Nat × Nat × Nat) := do
  let cx1 ← add usizeMax state.xPos state.font.width
  let cy1 ← add usizeMax state.yPos state.font.height
  assert (cy1 ≤ fb.height)
  return (state.xPos, state.yPos, min cx1 fb.width, cy1)

def setCursor (x y : Nat) : Checked (ConsoleState fb) := do
  let maxX ← sub (fb.width / state.font.width) 1
  let maxY ← sub (fb.height / state.font.height) 1
  let xPos ← mul usizeMax (min x maxX) state.font.width
  let yPos ← mul usizeMax (min y maxY) state.font.height
  return { state with xPos := xPos, yPos := yPos }

def eraseInDisplay (mode : EraseInDisplay) : Checked (ConsoleState fb) := do
  let bg := state.bgColor
  let (cx0, cy0, cx1, cy1) ← state.cursorCellRect
  match mode with
  | .cursorToEnd =>
    let state ← state.fillRectPixels cx0 cy0 fb.width cy1 bg
    if cy1 < fb.height then state.fillRectPixels 0 cy1 fb.width fb.height bg else .ok state
  | .cursorToBeginning =>
    let state ← if cy0 > 0 then state.fillRectPixels 0 0 fb.width cy0 bg else .ok state
    state.fillRectPixels 0 cy0 cx1 cy1 bg
  | .entireScreen | .entireScreenAndScrollback => state.fillRectPixels 0 0 fb.width fb.height bg

instance : Display (ConsoleState fb) where
  setCursor := setCursor
  setFgColor state color := .ok { state with fgColor := color }
  setBgColor state color := .ok { state with bgColor := color }
  eraseInDisplay := eraseInDisplay
  renderImage := blitPixels
  sendChar := sendChar

end ConsoleState

abbrev FramebufferConsole (fb : FrameBuffer) := Console (ConsoleState fb)

namespace FramebufferConsole

variable {fb : FrameBuffer}

def new (glyphs : BitmapFont.BasicFonts) (device : Device fb.bufferSize) : FramebufferConsole fb :=
  (EscapeFsm.new, ConsoleState.new glyphs device)

def activate (console : FramebufferConsole fb) : Checked (FramebufferConsole fb) := do
  let state := { console.2 with isActive := true }
  if console.2.isActive then
    return (console.1, state)
  return (console.1, ← state.flushFullscreen)

def deactivate (console : FramebufferConsole fb) : FramebufferConsole fb :=
  (console.1, { console.2 with isActive := false })

def setMode (console : FramebufferConsole fb) (mode : ConsoleMode) : Checked (FramebufferConsole fb) := do
  let state := { console.2 with mode := mode }
  if console.2.mode = .graphics then
    return (console.1, ← state.flushFullscreen)
  return (console.1, state)

def setFont (console : FramebufferConsole fb) (font : BitmapFont) :
    Checked (Bool × FramebufferConsole fb) := do
  let (accepted, state) ← console.2.setFont font
  return (accepted, console.1, state)

def flush (console : FramebufferConsole fb) : Checked (FramebufferConsole fb) := do
  return (console.1, ← console.2.flushFullscreen)

inductive Request
  | send (bytes : List UInt8)
  | setFont (font : BitmapFont)
  | setMode (mode : ConsoleMode)
  | activate
  | deactivate
  | flush

def perform (console : FramebufferConsole fb) : Request → Checked (FramebufferConsole fb)
  | .send bytes => console.send bytes
  | .setFont font => do return (← console.setFont font).2
  | .setMode mode => console.setMode mode
  | .activate => console.activate
  | .deactivate => .ok console.deactivate
  | .flush => console.flush

def run : FramebufferConsole fb → List Request → Checked (FramebufferConsole fb) := runAll perform

def stripe (height : Fin 64) : FrameBuffer where
  backend := .mmio
  width := 8
  height := height
  lineSize := 8
  pixelFormat := .grayscale8
  bufferSize := height * 8
  line := Nat.le_refl _
  lines := Nat.le_refl _
  addressable := Nat.le_trans (Nat.mul_le_mul_right 8 (Nat.le_of_lt height.isLt)) (by decide)

def onStripe (height : Fin 64) : FramebufferConsole (stripe height) :=
  new (fun _ => Vector.replicate 8 0x55) ⟨Bytes.zeros _, 0⟩

end FramebufferConsole

end Kei.Framebuffer
