import Kei.Framebuffer.Sixel
import Mathlib.Data.List.FinRange
import Mathlib.Tactic.Ring

/-! What the console draws with: rendered pixels (`pixel.rs`), fonts (`font.rs`) and the
framebuffer (`framebuffer.rs`). The constructors' checks are fields, so that a font or a
framebuffer is always one that they can build. -/

namespace Kei.Framebuffer

open Library Checked

inductive PixelFormat
  | grayscale8
  | rgb565
  | rgb888
  | bgrReserved
  deriving DecidableEq, Repr

def PixelFormat.nbytes : PixelFormat → Nat
  | .grayscale8 => 1
  | .rgb565 => 2
  | .rgb888 => 3
  | .bgrReserved => 4

def Pixel.render (pixel : Pixel) : PixelFormat → List UInt8
  | .grayscale8 =>
    let redWeight := 77 * pixel.red.toNat
    let greenWeight := 150 * pixel.green.toNat
    let blueWeight := 29 * pixel.blue.toNat
    [UInt8.ofNat ((redWeight + greenWeight + blueWeight) >>> 8)]
  | .rgb565 =>
    let r := pixel.red.toNat >>> 3
    let g := pixel.green.toNat >>> 2
    let b := pixel.blue.toNat >>> 3
    let word := (r <<< 11) ||| (g <<< 5) ||| b
    [UInt8.ofNat (word >>> 8), UInt8.ofNat word]
  | .rgb888 => [pixel.red, pixel.green, pixel.blue]
  | .bgrReserved => [pixel.blue, pixel.green, pixel.red, 0]

@[simp] theorem Pixel.render_length (pixel : Pixel) (format : PixelFormat) :
    (pixel.render format).length = format.nbytes := by
  cases format <;> rfl

theorem PixelFormat.nbytes_pos (format : PixelFormat) : 0 < format.nbytes := by
  cases format <;> decide

/-- No object in the kernel half of the address space (`ADDRESS_WIDTH` is 48) is larger. -/
def kernelSpace : Nat := 140737488355328

def chunksExact (size : Nat) (data : List UInt8) : List (List UInt8) :=
  (List.range (data.length / size)).map fun number => (data.drop (number * size)).take size

structure BitmapFont where
  width : Nat
  height : Nat
  charSize : Nat
  bitmap : List UInt8
  sized : charSize = (width + 7) / 8 * height
  nonempty : bitmap.length ≠ 0
  whole : charSize ≠ 0 ∧ bitmap.length % charSize = 0
  addressable : bitmap.length ≤ kernelSpace

namespace BitmapFont

def rowSize (font : BitmapFont) : Nat := (font.width + 7) / 8

theorem rowSize_pos (font : BitmapFont) : 0 < font.rowSize := by
  refine Nat.pos_of_ne_zero fun zero => font.whole.1 ?_
  rw [font.sized, show (font.width + 7) / 8 = 0 from zero, Nat.zero_mul]

theorem width_pos (font : BitmapFont) : 0 < font.width := by
  have positive := font.rowSize_pos
  unfold rowSize at positive
  omega

theorem height_pos (font : BitmapFont) : 0 < font.height := by
  refine Nat.pos_of_ne_zero fun zero => font.whole.1 ?_
  rw [font.sized, zero, Nat.mul_zero]

/-- The remainder by a character size of zero panics as the assertion does. -/
def new (width height : Nat) (bitmap : List UInt8) (addressable : bitmap.length ≤ kernelSpace) :
    Checked BitmapFont := do
  let charSize ← mul usizeMax ((width + 7) / 8) height
  if nonempty : bitmap.length = 0 then
    .error .assertFailed
  else if whole : charSize ≠ 0 ∧ bitmap.length % charSize = 0 ∧ charSize = (width + 7) / 8 * height then
    .ok ⟨width, height, charSize, bitmap, whole.2.2, nonempty, ⟨whole.1, whole.2.1⟩, addressable⟩
  else
    .error .assertFailed

/-- The table `BASIC_FONTS` of the `font8x8` crate, for the characters below `0x7F`. -/
abbrev BasicFonts := Fin 0x7F → Vector UInt8 8

theorem basic_length (glyphs : BasicFonts) :
    ((List.finRange 0x7F).flatMap fun ch => (glyphs ch).toList).length = 1016 := by
  simp [List.length_flatMap]

def newBasic8x8 (glyphs : BasicFonts) : BitmapFont where
  width := 8
  height := 8
  charSize := 8
  bitmap := (List.finRange 0x7F).flatMap fun ch => (glyphs ch).toList
  sized := rfl
  nonempty := by
    rw [basic_length]
    decide
  whole := by
    rw [basic_length]
    decide
  addressable := by
    rw [basic_length]
    decide

def char (font : BitmapFont) (ch : UInt8) : Option (List (List UInt8)) :=
  let pos := ch.toNat * font.charSize
  if pos + font.charSize ≤ font.bitmap.length then
    some (chunksExact font.rowSize ((font.bitmap.drop pos).take font.charSize))
  else none

def bits (font : BitmapFont) (rowData : List UInt8) : Checked (List Bool) :=
  (List.range font.width).mapM fun i => do
    return (← index rowData (i / 8)).toNat.testBit (i % 8)

end BitmapFont

inductive FrameBufferBackend
  | mmio
  | blit
  deriving DecidableEq, Repr

/-- A framebuffer as its creators set it up: the lines hold the pixels, and the memory holds
the lines. -/
structure FrameBuffer where
  backend : FrameBufferBackend
  width : Nat
  height : Nat
  lineSize : Nat
  pixelFormat : PixelFormat
  bufferSize : Nat
  line : width * pixelFormat.nbytes ≤ lineSize
  lines : height * lineSize ≤ bufferSize
  addressable : bufferSize ≤ kernelSpace

abbrev Bytes (size : Nat) := { bytes : List UInt8 // bytes.length = size }

namespace Bytes

variable {size : Nat}

def zeros (size : Nat) : Bytes size := ⟨List.replicate size 0, List.length_replicate⟩

def copyFromSlice (bytes : Bytes size) (offset : Nat) (data : List UInt8) : Checked (Bytes size) :=
  if within : offset + data.length ≤ size then
    .ok ⟨bytes.1.take offset ++ data ++ bytes.1.drop (offset + data.length), by
      have length := bytes.2
      simp only [List.length_append, List.length_take, List.length_drop, length]
      omega⟩
  else .error .sliceOutOfRange

def shiftDown (bytes : Bytes size) (offset : Nat) : Checked (Bytes size) :=
  if within : offset ≤ size then
    .ok ⟨bytes.1.drop offset ++ List.replicate offset 0, by
      have length := bytes.2
      simp only [List.length_append, List.length_drop, List.length_replicate, length]
      omega⟩
  else .error .sliceOutOfRange

end Bytes

structure Device (size : Nat) where
  memory : Bytes size
  writes : Nat

namespace FrameBuffer

variable (fb : FrameBuffer)

def renderPixel (pixel : Pixel) : List UInt8 := pixel.render fb.pixelFormat

def calcOffset (x y : Nat) : Checked Nat := do
  add usizeMax (← mul usizeMax x fb.pixelFormat.nbytes) (← mul usizeMax y fb.lineSize)

def yAdd (offset : Nat) : Checked Nat := add isizeMax offset fb.lineSize

/-- `write_bytes_at` with the `unwrap` of its callers: an I/O memory refuses a write that
does not fit, and a blit buffer asserts that it does. -/
def writeBytesAt (device : Device fb.bufferSize) (offset : Nat) (data : List UInt8) :
    Checked (Device fb.bufferSize) :=
  match device.memory.copyFromSlice offset data with
  | .ok memory => .ok ⟨memory, device.writes + 1⟩
  | .error _ =>
    match fb.backend with
    | .mmio => .error .unwrapNone
    | .blit => .error .assertFailed

end FrameBuffer

end Kei.Framebuffer
