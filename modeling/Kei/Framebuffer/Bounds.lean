import Kei.Framebuffer.ConsoleState
import Kei.Framebuffer.EscapeRules
import Kei.Framebuffer.SixelGrid

/-! The cursor stays on the screen and every drawing stays in the framebuffer, as long as no
image makes the console scroll further than it can or leaves the cursor on a line that is
cut off by the lower edge. -/

namespace Kei.Framebuffer

open Library Checked FrameBuffer List Nat

namespace FrameBuffer

variable {fb : FrameBuffer}

theorem lineSize_le (tall : 0 < fb.height) : fb.lineSize ≤ kernelSpace := by
  have lines := fb.lines
  have addressable := fb.addressable
  have one : 1 * fb.lineSize ≤ fb.height * fb.lineSize := mul_le_mul_right _ tall
  omega

theorem width_le (tall : 0 < fb.height) : fb.width ≤ kernelSpace := by
  have line := fb.line
  have size := lineSize_le tall
  have one : fb.width * 1 ≤ fb.width * fb.pixelFormat.nbytes :=
    mul_le_mul_left _ fb.pixelFormat.nbytes_pos
  omega

theorem height_le (wide : 0 < fb.width) : fb.height ≤ kernelSpace := by
  have lines := fb.lines
  have addressable := fb.addressable
  have line := fb.line
  have one : fb.height * 1 ≤ fb.height * fb.lineSize :=
    mul_le_mul_left _ (lt_of_lt_of_le (mul_pos wide fb.pixelFormat.nbytes_pos) line)
  omega

theorem row_within {x y count : Nat} (right : x + count ≤ fb.width) (above : y < fb.height) :
    x * fb.pixelFormat.nbytes + y * fb.lineSize + count * fb.pixelFormat.nbytes ≤ fb.bufferSize := by
  have line : (x + count) * fb.pixelFormat.nbytes ≤ fb.lineSize :=
    le_trans (mul_le_mul_right _ right) fb.line
  have lines : (y + 1) * fb.lineSize ≤ fb.bufferSize := le_trans (mul_le_mul_right _ above) fb.lines
  rw [add_mul] at line lines
  omega

theorem calcOffset_ok {x y : Nat} (right : x ≤ fb.width) (above : y ≤ fb.height) (tall : 0 < fb.height) :
    fb.calcOffset x y = .ok (x * fb.pixelFormat.nbytes + y * fb.lineSize) := by
  have line : x * fb.pixelFormat.nbytes ≤ fb.lineSize := le_trans (mul_le_mul_right _ right) fb.line
  have lines : y * fb.lineSize ≤ fb.bufferSize := le_trans (mul_le_mul_right _ above) fb.lines
  have size := lineSize_le tall
  have addressable := fb.addressable
  have large : kernelSpace + kernelSpace ≤ usizeMax := by decide
  rw [calcOffset, mul_ok (by omega), bind_ok, mul_ok (by omega), bind_ok, add_ok (by omega)]

end FrameBuffer

namespace BitmapFont

theorem chunksExact_length {size : Nat} (positive : 0 < size) {data : List UInt8} {count : Nat}
    (whole : data.length = size * count) :
    (chunksExact size data).length = count ∧ ∀ chunk ∈ chunksExact size data, chunk.length = size := by
  have number : data.length / size = count := by rw [whole, Nat.mul_div_cancel_left _ positive]
  refine ⟨by simp [chunksExact, number], ?_⟩
  intro chunk member
  obtain ⟨index, below, rfl⟩ := mem_map.mp member
  rw [mem_range, number] at below
  have fits : index * size + size ≤ data.length := by
    rw [whole, mul_comm size, ← succ_mul]
    exact mul_le_mul_right _ below
  rw [length_take, length_drop]
  omega

theorem char_rows {font : BitmapFont} {ch : UInt8} {rows : List (List UInt8)} (found : font.char ch = some rows) :
    rows.length = font.height ∧ ∀ row ∈ rows, row.length = font.rowSize := by
  unfold char at found
  dsimp only at found
  split at found
  · rename_i inside
    cases found
    refine chunksExact_length font.rowSize_pos ?_
    rw [length_take, length_drop, rowSize, ← font.sized]
    omega
  · cases found

theorem bits_returns {font : BitmapFont} {row : List UInt8} (length : row.length = font.rowSize) :
    Returns (font.bits row) fun bits => bits.length = font.width := by
  have bit : ∀ i ∈ List.range font.width,
      Returns (do return (← index row (i / 8)).toNat.testBit (i % 8)) fun _ => True := by
    intro i below
    rw [mem_range] at below
    have inside : i / 8 < row.length := by
      rw [length, rowSize]
      omega
    exact (index_meets inside).bind fun _ _ => trivial
  refine (meets_mapM bit).mono fun bits drawn => ?_
  rw [drawn.1, length_range]

end BitmapFont

namespace ConsoleState

variable {fb : FrameBuffer}

structure InBounds (state : ConsoleState fb) : Prop where
  x : state.xPos ≤ fb.width
  y : state.yPos + state.font.height ≤ fb.height

structure Sound (state : ConsoleState fb) : Prop extends InBounds state where
  narrow : state.font.width ≤ fb.width

namespace Sound

variable {state : ConsoleState fb}

theorem tall (sound : state.Sound) : 0 < fb.height :=
  lt_of_lt_of_le state.font.height_pos (le_trans (le_add_left _ _) sound.y)

theorem wide (sound : state.Sound) : 0 < fb.width := lt_of_lt_of_le state.font.width_pos sound.narrow

end Sound

def Still (state next : ConsoleState fb) : Prop :=
  next.xPos = state.xPos ∧ next.yPos = state.yPos ∧ next.font = state.font

theorem Still.refl (state : ConsoleState fb) : Still state state := ⟨rfl, rfl, rfl⟩

theorem Still.trans {first second third : ConsoleState fb} (one : Still first second)
    (two : Still second third) : Still first third :=
  ⟨two.1.trans one.1, two.2.1.trans one.2.1, two.2.2.trans one.2.2⟩

theorem Sound.of_eq {next : ConsoleState fb} {x y : Nat} {font : BitmapFont}
    (same : next.xPos = x ∧ next.yPos = y ∧ next.font = font) (right : x ≤ fb.width)
    (below : y + font.height ≤ fb.height)
    (narrow : font.width ≤ fb.width) : next.Sound := by
  obtain ⟨rfl, rfl, rfl⟩ := same
  exact ⟨⟨right, below⟩, narrow⟩

theorem Still.sound {state next : ConsoleState fb} (still : Still state next) (sound : state.Sound) : next.Sound :=
  .of_eq still sound.x sound.y sound.narrow

variable {data : List UInt8} {offset : Nat}

theorem copyFromSlice_ok {size : Nat} (bytes : Bytes size)
    (within : offset + data.length ≤ size) : ∃ copied, bytes.copyFromSlice offset data = .ok copied := by
  rw [Bytes.copyFromSlice, dif_pos within]
  exact ⟨_, rfl⟩

theorem output_returns (state : ConsoleState fb)
    (within : offset + data.length ≤ fb.bufferSize) : Returns (state.output offset data) (Still state) := by
  unfold output
  split
  · obtain ⟨memory, copied⟩ := copyFromSlice_ok state.device.memory within
    rw [writeBytesAt, copied]
    exact Still.refl state
  · exact Still.refl state

theorem drawBytes_returns (state : ConsoleState fb)
    (within : offset + data.length ≤ fb.bufferSize) : Returns (state.drawBytes offset data) (Still state) := by
  have addressable := fb.addressable
  have large : kernelSpace ≤ usizeMax := by decide
  obtain ⟨bytes, copied⟩ := copyFromSlice_ok state.bytes within
  rw [drawBytes, add_ok (by omega), bind_ok, copied, bind_ok]
  exact output_returns { state with bytes := bytes } within

theorem drawRows_returns {fgPixel bgPixel : List UInt8} (fg : fgPixel.length = fb.pixelFormat.nbytes)
    (bg : bgPixel.length = fb.pixelFormat.nbytes) (rows : List (List UInt8)) :
    ∀ (y : Nat) (state : ConsoleState fb), (∀ row ∈ rows, row.length = state.font.rowSize) →
      state.xPos + state.font.width ≤ fb.width → y + rows.length ≤ fb.height →
      Returns (drawRows fgPixel bgPixel rows (state.xPos * fb.pixelFormat.nbytes + y * fb.lineSize) state)
        (Still state) := by
  induction rows with
  | nil => exact fun _ state _ _ _ => Still.refl state
  | cons row rows ih =>
    intro y state lengths right below
    rw [forall_mem_cons] at lengths
    rw [length_cons] at below
    have within := row_within right (show y < fb.height by omega)
    refine (BitmapFont.bits_returns lengths.1).bind fun bits count => ?_
    have length : (bits.flatMap fun isFg => if isFg then fgPixel else bgPixel).length =
        state.font.width * fb.pixelFormat.nbytes := by
      rw [flatMap_def, length_flatten_eq, length_map, count]
      intro pixel member
      obtain ⟨isFg, _, rfl⟩ := mem_map.mp member
      split
      · exact fg
      · exact bg
    refine (drawBytes_returns state (by rw [length]; exact within)).bind fun drawn still => ?_
    have next : fb.yAdd (state.xPos * fb.pixelFormat.nbytes + y * fb.lineSize) =
        .ok (drawn.xPos * fb.pixelFormat.nbytes + (y + 1) * fb.lineSize) := by
      have addressable := fb.addressable
      have size := lineSize_le (show 0 < fb.height by omega)
      have large : kernelSpace + kernelSpace ≤ isizeMax := by decide
      rw [yAdd, add_ok (by omega), still.1, add_mul, one_mul, add_assoc]
    rw [next, bind_ok]
    refine (ih (y + 1) drawn ?_ ?_ (by omega)).mono fun last rest => still.trans rest
    · rw [still.2.2]
      exact lengths.2
    · rw [still.1, still.2.2]
      exact right

section

variable {state : ConsoleState fb}

theorem drawChar_returns (sound : state.Sound)
    (right : state.xPos + state.font.width ≤ fb.width) (ch : UInt8) :
    Returns (state.drawChar ch) (Still state) := by
  have y := sound.y
  unfold drawChar
  split
  · exact Still.refl state
  · rename_i rows found
    obtain ⟨count, lengths⟩ := BitmapFont.char_rows found
    rw [calcOffset_ok sound.x (by omega) sound.tall, bind_ok]
    exact drawRows_returns (Pixel.render_length _ _) (Pixel.render_length _ _) rows state.yPos state lengths right
      (by omega)

theorem shiftLinesUp_eq (fits : state.font.height ≤ fb.height) :
    ∃ bytes device, state.shiftLinesUp = do
      return { state with bytes := bytes, device := device, yPos := ← sub state.yPos state.font.height } := by
  have tall := lt_of_lt_of_le state.font.height_pos fits
  have within : state.font.height * fb.lineSize ≤ fb.bufferSize :=
    le_trans (mul_le_mul_right _ fits) fb.lines
  obtain ⟨shifted, down⟩ : ∃ shifted, state.bytes.shiftDown (state.font.height * fb.lineSize) = .ok shifted := by
    rw [Bytes.shiftDown, dif_pos within]
    exact ⟨_, rfl⟩
  rw [shiftLinesUp, calcOffset_ok (zero_le _) fits tall, zero_mul, zero_add, bind_ok, down, bind_ok]
  dsimp only
  unfold output
  split
  · obtain ⟨memory, copied⟩ := copyFromSlice_ok state.device.memory
      (show 0 + shifted.1.length ≤ fb.bufferSize by rw [shifted.2, zero_add])
    rw [writeBytesAt, copied]
    exact ⟨shifted, _, rfl⟩
  · exact ⟨shifted, _, rfl⟩

theorem shiftLinesUp_returns (fits : state.font.height ≤ fb.height)
    (room : state.font.height ≤ state.yPos) :
    Returns state.shiftLinesUp fun next => next.xPos = state.xPos ∧
      next.yPos = state.yPos - state.font.height ∧ next.font = state.font := by
  obtain ⟨bytes, device, shifted⟩ := shiftLinesUp_eq fits
  rw [shifted, sub_ok room]
  exact ⟨rfl, rfl, rfl⟩

theorem newline_returns (sound : state.Sound) : Returns state.newline fun next =>
    next.xPos = 0 ∧ next.font = state.font ∧ next.Sound := by
  have y := sound.y
  have size := height_le sound.wide
  have large : kernelSpace + kernelSpace ≤ usizeMax := by decide
  rw [newline, add_ok (by omega), bind_ok]
  dsimp only
  rw [sub_ok (by omega), bind_ok]
  split
  · refine (shiftLinesUp_returns (by dsimp only; omega) (by dsimp only; omega)).mono ?_
    rintro next ⟨xPos, yPos, font⟩
    refine ⟨xPos, font, .of_eq ⟨xPos, yPos, font⟩ (zero_le _) ?_ sound.narrow⟩
    dsimp only
    omega
  · refine ⟨rfl, rfl, ⟨zero_le _, ?_⟩, sound.narrow⟩
    dsimp only
    omega

theorem backspace_returns (sound : state.Sound) : Returns state.backspace Sound := by
  unfold backspace
  split
  · exact sound
  rename_i inside
  have x := sound.x
  rw [sub_ok (by omega), bind_ok]
  have moved : Sound { state with xPos := state.xPos - state.font.width } := by
    refine ⟨⟨?_, sound.y⟩, sound.narrow⟩
    dsimp only
    omega
  refine (drawChar_returns moved ?_ _).mono fun next still => still.sound moved
  dsimp only
  omega

theorem wrapLine_returns (sound : state.Sound) : Returns state.wrapLine fun next =>
    next.xPos + next.font.width ≤ fb.width ∧ next.Sound := by
  have narrow := sound.narrow
  rw [wrapLine, sub_ok narrow, bind_ok]
  split
  · refine (newline_returns sound).mono ?_
    rintro next ⟨xPos, font, sound⟩
    rw [xPos, zero_add]
    exact ⟨sound.narrow, sound⟩
  · exact ⟨by omega, sound⟩

theorem sendChar_returns (sound : state.Sound) (ch : UInt8) :
    Returns (state.sendChar ch) Sound := by
  unfold sendChar
  split
  · exact (newline_returns sound).mono fun next moved => moved.2.2
  split
  · exact ⟨⟨zero_le _, sound.y⟩, sound.narrow⟩
  split
  · exact backspace_returns sound
  refine (wrapLine_returns sound).bind ?_
  rintro wrapped ⟨right, sound⟩
  refine (drawChar_returns sound right ch).bind fun drawn still => ?_
  have size := width_le sound.tall
  have large : kernelSpace ≤ usizeMax := by decide
  have kept := still.sound sound
  rw [← still.1, ← still.2.2] at right
  rw [add_ok (by omega), bind_ok]
  exact ⟨⟨right, kept.y⟩, kept.narrow⟩

theorem setFont_returns (sound : state.Sound) (font : BitmapFont) :
    Returns (state.setFont font) fun result => result.2.Sound := by
  have y := sound.y
  unfold setFont
  split
  · exact sound
  rename_i accepted
  rw [not_or] at accepted
  obtain ⟨narrow, low⟩ := accepted
  dsimp only
  rw [sub_ok (by omega), bind_ok]
  split
  · refine (shiftLinesUp_returns (by dsimp only; omega) (by dsimp only; omega)).bind ?_
    rintro next ⟨xPos, yPos, same⟩
    refine .of_eq ⟨xPos, yPos, same⟩ sound.x ?_ ?_ <;> dsimp only <;> omega
  · refine .of_eq ⟨rfl, rfl, rfl⟩ sound.x ?_ ?_ <;> dsimp only <;> omega

theorem fillRectPixels_returns (tall : 0 < fb.height) {x0 y0 x1 y1 : Nat}
    (order : x0 ≤ x1) (right : x1 ≤ fb.width) (bottom : y1 ≤ fb.height) (color : Pixel) :
    Returns (state.fillRectPixels x0 y0 x1 y1 color) (Still state) := by
  simp only [fillRectPixels, right, bottom, decide_true, assert, if_true, sub_ok order, bind_ok]
  refine meets_foldlM (Still state) ?_ (Still.refl state)
  intro drawn y member still
  rw [mem_range'_1] at member
  rw [calcOffset_ok (by omega) (by omega) tall, bind_ok]
  refine (drawBytes_returns drawn ?_).mono fun next one => still.trans one
  rw [length_flatten_eq fun row member => by rw [eq_of_mem_replicate member, renderPixel,
    Pixel.render_length], length_replicate]
  exact row_within (by omega) (by omega)

theorem cursorCellRect_ok (sound : state.Sound) :
    state.cursorCellRect = .ok (state.xPos, state.yPos, min (state.xPos + state.font.width) fb.width,
      state.yPos + state.font.height) := by
  have x := sound.x
  have y := sound.y
  have narrow := sound.narrow
  have width := width_le sound.tall
  have height := height_le sound.wide
  have large : kernelSpace + kernelSpace ≤ usizeMax := by decide
  rw [cursorCellRect, add_ok (by omega), bind_ok, add_ok (by omega), bind_ok]
  simp only [y, decide_true, assert, if_true, bind_ok, pure_eq_ok]

theorem eraseInDisplay_returns (sound : state.Sound) (mode : EraseInDisplay) :
    Returns (state.eraseInDisplay mode) Sound := by
  have x := sound.x
  have y := sound.y
  have whole (color : Pixel) : Returns (state.fillRectPixels 0 0 fb.width fb.height color) Sound :=
    (fillRectPixels_returns sound.tall (zero_le _) (le_refl _) (le_refl _) color).mono
      fun next still => still.sound sound
  rw [eraseInDisplay, cursorCellRect_ok sound, bind_ok]
  cases mode with
  | cursorToEnd =>
    refine (fillRectPixels_returns sound.tall x (le_refl _) y _).bind fun filled one => ?_
    split
    · refine (fillRectPixels_returns sound.tall (zero_le _) (le_refl _) (le_refl _) _).mono ?_
      exact fun next two => (one.trans two).sound sound
    · exact one.sound sound
  | cursorToBeginning =>
    have line (filled : ConsoleState fb) (one : Still state filled) : Returns (filled.fillRectPixels 0
        state.yPos (min (state.xPos + state.font.width) fb.width) (state.yPos + state.font.height)
        state.bgColor) Sound := by
      refine (fillRectPixels_returns sound.tall (zero_le _) (min_le_right _ _) y _).mono ?_
      exact fun next two => (one.trans two).sound sound
    dsimp only
    split
    · refine (fillRectPixels_returns sound.tall (zero_le _) (le_refl _) (by omega) _).bind ?_
      exact fun filled one => line filled one
    · exact line state (Still.refl state)
  | entireScreen => exact whole _
  | entireScreenAndScrollback => exact whole _

end

theorem cell_within {side cell : Nat} (position : Nat) (positive : 0 < cell) (fits : cell ≤ side) :
    min position (side / cell - 1) * cell + cell ≤ side := by
  have some := div_pos fits positive
  have last : min position (side / cell - 1) + 1 ≤ side / cell := by omega
  have lastCell := mul_le_mul_right cell last
  have within := div_mul_le_self side cell
  rw [add_mul, one_mul] at lastCell
  omega

theorem setCursor_returns {state : ConsoleState fb} (sound : state.Sound) (x y : Nat) :
    Returns (state.setCursor x y) Sound := by
  have height : state.font.height ≤ fb.height := le_trans (le_add_left _ _) sound.y
  have right := cell_within x state.font.width_pos sound.narrow
  have bottom := cell_within y state.font.height_pos height
  have wide := width_le sound.tall
  have high := height_le sound.wide
  have large : kernelSpace ≤ usizeMax := by decide
  have columns : 1 ≤ fb.width / state.font.width := div_pos sound.narrow state.font.width_pos
  have lines : 1 ≤ fb.height / state.font.height := div_pos height state.font.height_pos
  rw [setCursor, sub_ok columns, bind_ok, sub_ok lines, bind_ok, mul_ok (by omega), bind_ok,
    mul_ok (by omega), bind_ok]
  refine ⟨⟨?_, bottom⟩, sound.narrow⟩
  dsimp only
  omega

theorem keeps_sound : Display.Keeps (fun _ => False) (@Sound fb) where
  setCursor := setCursor_returns
  setFgColor := fun sound _ => ⟨⟨sound.x, sound.y⟩, sound.narrow⟩
  setBgColor := fun sound _ => ⟨⟨sound.x, sound.y⟩, sound.narrow⟩
  eraseInDisplay := eraseInDisplay_returns
  sendChar := sendChar_returns

theorem imageRow_returns {pixels : List Pixel} {imgW imgH drawW row : Nat} (full : pixels.length = imgW * imgH)
    (clipped : drawW ≤ imgW) (inside : row < imgH) :
    Returns (imageRow fb pixels imgW drawW row) fun data => data.length = drawW * fb.pixelFormat.nbytes := by
  have pixel : ∀ col ∈ List.range drawW, Returns (do return fb.renderPixel (← index pixels (row * imgW + col)))
      fun rendered => rendered.length = fb.pixelFormat.nbytes := by
    intro col below
    rw [mem_range] at below
    have rows := mul_le_mul_right imgW inside
    rw [succ_mul, mul_comm imgH] at rows
    exact (index_meets (by omega)).bind fun _ _ => Pixel.render_length _ _
  refine (meets_mapM pixel).bind ?_
  rintro rendered ⟨count, lengths⟩
  change rendered.flatten.length = _
  rw [length_flatten_eq lengths, count, length_range]

def lineBehind (state : ConsoleState fb) (imgH : Nat) : Nat :=
  state.yPos + (imgH + state.font.height - 1) / state.font.height * state.font.height

/-- An image that reaches the lower edge can be scrolled by one line, and one that ends
above it leaves room for a line. -/
def ImageFits (state : ConsoleState fb) (imgH : Nat) : Prop :=
  if fb.height ≤ state.lineBehind imgH then state.font.height ≤ state.yPos
  else state.lineBehind imgH + state.font.height ≤ fb.height

instance (state : ConsoleState fb) (imgH : Nat) : Decidable (state.ImageFits imgH) :=
  inferInstanceAs (Decidable (if _ ≤ _ then _ ≤ _ else _ ≤ _))

variable {image : SixelImage}

variable {state : ConsoleState fb} (sound : state.Sound) (formed : image.WellFormed)
include sound formed

theorem blitPixels_eq :
    ∃ drawn, Still state drawn ∧ state.blitPixels image.pixels image.width image.height = do
      return { (← drawn.advanceTo (state.lineBehind image.height)) with xPos := 0 } := by
  have x := sound.x
  have y := sound.y
  have size := height_le sound.wide
  have positive := state.font.height_pos
  have nonempty : ¬(image.width = 0 ∨ image.height = 0) := not_or.mpr ⟨formed.width, formed.height⟩
  have rows : Returns ((List.range (min image.height (fb.height - min state.yPos fb.height))).foldlM
      (fun (drawn : ConsoleState fb) row => do
        let offset ← fb.calcOffset (min state.xPos fb.width) (min state.yPos fb.height + row)
        drawn.drawBytes offset
          (← imageRow fb image.pixels image.width (min image.width (fb.width - min state.xPos fb.width)) row))
      state) (Still state) := by
    refine meets_foldlM (Still state) ?_ (Still.refl state)
    intro drawn row member still
    rw [mem_range] at member
    rw [calcOffset_ok (min_le_right _ _) (by omega) sound.tall, bind_ok]
    refine (imageRow_returns formed.full (min_le_left _ _) (by omega)).bind fun data length => ?_
    refine (drawBytes_returns drawn ?_).mono fun next one => still.trans one
    rw [length]
    exact row_within (by omega) (by omega)
  obtain ⟨drawn, ran, still⟩ := rows.exists_ok
  refine ⟨drawn, still, ?_⟩
  have tall : image.height * 3 ≤ isizeMax := by
    refine le_trans (mul_le_mul_right 3 ?_) formed.allocated
    exact Nat.le_mul_of_pos_left _ (Nat.pos_of_ne_zero formed.width)
  have cells := div_mul_le_self (image.height + state.font.height - 1) state.font.height
  have large : isizeMax + kernelSpace + kernelSpace ≤ usizeMax := by decide
  have line : state.lineBehind image.height ≤ usizeMax := by
    unfold lineBehind
    omega
  unfold lineBehind at line
  rw [blitPixels, if_neg nonempty]
  dsimp only
  rw [ran, bind_ok, still.2.2, still.2.1, add_ok (by omega), bind_ok, sub_ok (by omega), bind_ok,
    mul_ok (by omega), bind_ok, add_ok line, bind_ok]
  rfl

theorem blitPixels_returns (fits : state.ImageFits image.height) :
    Returns (state.blitPixels image.pixels image.width image.height) Sound := by
  obtain ⟨drawn, still, ran⟩ := blitPixels_eq sound formed
  have kept := still.sound sound
  have y := kept.y
  rw [ran]
  unfold ImageFits at fits
  unfold advanceTo
  split
  · rename_i below
    rw [if_pos below, ← still.2.1, ← still.2.2] at fits
    refine (shiftLinesUp_returns (by omega) fits).bind ?_
    rintro next ⟨_, yPos, font⟩
    exact .of_eq ⟨rfl, yPos, font⟩ (zero_le _) (by omega) kept.narrow
  · rename_i above
    rw [if_neg above, ← still.2.2] at fits
    exact ⟨⟨zero_le _, fits⟩, kept.narrow⟩

theorem blitPixels_fails (misfit : ¬state.ImageFits image.height) :
    Ensures (state.blitPixels image.pixels image.width image.height) fun next => ¬next.InBounds := by
  obtain ⟨drawn, still, ran⟩ := blitPixels_eq sound formed
  rw [ran]
  unfold ImageFits at misfit
  unfold advanceTo
  split
  · rename_i below
    rw [if_pos below, ← still.2.1, ← still.2.2] at misfit
    obtain ⟨bytes, device, shifted⟩ := shiftLinesUp_eq
      (le_trans (le_add_left _ _) (still.sound sound).y)
    rw [shifted, sub, if_neg misfit]
    trivial
  · rename_i above
    rw [if_neg above, ← still.2.2] at misfit
    exact fun bounds => misfit bounds.y

end ConsoleState

namespace FramebufferConsole

open ConsoleState

variable {fb : FrameBuffer}

def steps : Request → List Request
  | .send bytes => bytes.map fun byte => .send [byte]
  | request => [request]

def Stops (console : FramebufferConsole fb) (request : Request) (panic : Panic) : Prop :=
  ∃ byte, request = .send [byte] ∧ console.1.Completes byte ∧ decode console.1.dcsBuf = .error panic ∧
    TooLarge panic

def Fits (console : FramebufferConsole fb) (request : Request) : Prop :=
  ∀ byte image, request = .send [byte] → console.1.Completes byte →
    decode console.1.dcsBuf = .ok (some image) → console.2.ImageFits image.height

def StaysInBounds : FramebufferConsole fb → List Request → Prop
  | console, [] => console.2.InBounds
  | console, request :: rest => console.2.InBounds ∧ match console.perform request with
      | .ok next => StaysInBounds next rest
      | .error panic => console.Stops request panic

def AllFit : FramebufferConsole fb → List Request → Prop
  | _, [] => True
  | console, request :: rest => console.Fits request ∧
      ∀ next, console.perform request = .ok next → AllFit next rest

instance (console : FramebufferConsole fb) : (request : Request) → Decidable (console.Fits request)
  | .send [byte] => decidable_of_iff (console.1.Completes byte →
      ∀ image ∈ (decode console.1.dcsBuf).toOption.join, console.2.ImageFits image.height) (by
    constructor
    · rintro fits _ image ⟨⟩ completes decoded
      exact fits completes image (by rw [decoded]; rfl)
    · intro fits completes image shown
      cases decoded : decode console.1.dcsBuf with
      | error panic => rw [decoded] at shown; cases shown
      | ok found =>
        rw [decoded] at shown
        exact fits byte image rfl completes (decoded.trans (congrArg Except.ok shown)))
  | .send [] | .send (_ :: _ :: _) | .setFont _ | .setMode _ | .activate | .deactivate | .flush =>
    isTrue fun _ _ other => nomatch other

instance decidableAllFit : (console : FramebufferConsole fb) → (requests : List Request) →
    Decidable (console.AllFit requests)
  | _, [] => isTrue trivial
  | console, request :: rest =>
    match ran : console.perform request with
    | .ok next =>
      have := decidableAllFit next rest
      decidable_of_iff (console.Fits request ∧ AllFit next rest) (by simp [AllFit, ran])
    | .error _ => decidable_of_iff (console.Fits request) (by simp [AllFit, ran])

theorem perform_byte (console : FramebufferConsole fb) (byte : UInt8) :
    console.perform (.send [byte]) = console.sendByte byte := by
  simp only [perform, Console.send, runAll, foldlM_cons, foldlM_nil, bind_pure]

theorem perform_steps (console : FramebufferConsole fb) (request : Request) :
    console.perform request = console.run (steps request) := by
  have single (request : Request) : console.perform request = console.run [request] := by
    simp only [run, runAll, foldlM_cons, foldlM_nil, bind_pure]
  cases request with
  | send bytes =>
    rw [steps, run, perform, Console.send, runAll, runAll, foldlM_map]
    exact congrArg (fun step => bytes.foldlM step console)
      (funext fun sent => funext fun byte => (perform_byte sent byte).symm)
  | setFont font => exact single _
  | setMode mode => exact single _
  | activate => exact single _
  | deactivate => exact single _
  | flush => exact single _

theorem run_steps (console : FramebufferConsole fb) (requests : List Request) :
    console.run requests = console.run (requests.flatMap steps) := by
  induction requests generalizing console with
  | nil => rfl
  | cons request rest ih =>
    have split : console.run (request :: rest) = console.perform request >>= fun next => next.run rest := by
      simp only [run, runAll, foldlM_cons]
    rw [split, perform_steps, flatMap_cons, funext ih]
    simp only [run, runAll, foldlM_append]

variable {console : FramebufferConsole fb}

theorem sendByte_fits (sound : console.2.Sound) {byte : UInt8}
    (fits : console.Fits (.send [byte])) :
    Meets (console.Stops (.send [byte])) (console.sendByte byte) fun next => next.2.Sound := by
  by_cases completes : console.1.Completes byte
  · have decoded := decode_meets console.1.dcsBuf
    rw [Console.sendByte_completes completes]
    cases result : decode console.1.dcsBuf with
    | error panic =>
      rw [result] at decoded
      exact ⟨byte, rfl, completes, result, decoded⟩
    | ok found =>
      cases found with
      | none => exact sound
      | some image =>
        have formed : image.WellFormed := decoded.of_ok result image rfl
        have fitting := fits byte image rfl completes result
        obtain ⟨next, shown, kept⟩ := (blitPixels_returns sound formed fitting).exists_ok
        rw [bind_ok, EscapeFsm.blit]
        change Meets _ (console.2.blitPixels _ _ _ >>= _) _
        rw [shown]
        exact kept
  · have returned := Console.sendByte_meets keeps_sound sound fun ends => absurd ends completes
    obtain ⟨next, ran, kept⟩ := returned.exists_ok
    rw [ran]
    exact kept

theorem sendByte_misfits (sound : console.2.Sound) {byte : UInt8}
    (misfit : ¬console.Fits (.send [byte])) :
    Meets (fun panic => ¬console.Stops (.send [byte]) panic) (console.sendByte byte)
      fun next => ¬next.2.InBounds := by
  simp only [Fits, not_forall] at misfit
  obtain ⟨_, image, same, completes, result, misfit⟩ := misfit
  cases same
  have formed : image.WellFormed := (decode_meets console.1.dcsBuf).of_ok result image rfl
  rw [Console.sendByte_completes completes, result, bind_ok, EscapeFsm.blit]
  change Meets _ (console.2.blitPixels _ _ _ >>= _) _
  have fails := blitPixels_fails sound formed misfit
  cases shown : console.2.blitPixels image.pixels image.width image.height with
  | error panic =>
    rintro ⟨_, _, _, stopped, _⟩
    rw [result] at stopped
    cases stopped
  | ok next => exact fails.of_ok shown

theorem flush_returns {console : FramebufferConsole fb} (sound : console.2.Sound) :
    Returns console.flush fun next => next.2.Sound := by
  have within : 0 + console.2.bytes.1.length ≤ fb.bufferSize := by rw [console.2.bytes.2, zero_add]
  exact (output_returns console.2 within).bind fun next still => still.sound sound

theorem activate_returns (sound : console.2.Sound) :
    Returns console.activate fun next => next.2.Sound := by
  have active : Sound { console.2 with isActive := true } := ⟨⟨sound.x, sound.y⟩, sound.narrow⟩
  unfold activate
  dsimp only
  split
  · exact active
  · exact @flush_returns fb (console.1, { console.2 with isActive := true }) active

theorem setMode_returns (sound : console.2.Sound) (mode : ConsoleMode) :
    Returns (console.setMode mode) fun next => next.2.Sound := by
  have changed : Sound { console.2 with mode := mode } := ⟨⟨sound.x, sound.y⟩, sound.narrow⟩
  unfold setMode
  dsimp only
  split
  · exact @flush_returns fb (console.1, { console.2 with mode := mode }) changed
  · exact changed

theorem perform_returns (sound : console.2.Sound) {request : Request}
    (silent : ∀ bytes, request ≠ .send bytes) : Returns (console.perform request) fun next => next.2.Sound := by
  cases request with
  | send bytes => exact absurd rfl (silent bytes)
  | setFont font =>
    have changed : Returns (console.setFont font) fun result => result.2.2.Sound :=
      (setFont_returns sound font).bind fun _ kept => kept
    exact changed.bind fun _ kept => kept
  | setMode mode => exact setMode_returns sound mode
  | activate => exact activate_returns sound
  | deactivate => exact ⟨⟨sound.x, sound.y⟩, sound.narrow⟩
  | flush => exact flush_returns sound

theorem staysInBounds_iff (sound : console.2.Sound) {requests : List Request}
    (single : ∀ request ∈ requests, ∀ bytes, request = .send bytes → ∃ byte, bytes = [byte]) :
    console.StaysInBounds requests ↔ console.AllFit requests := by
  induction requests generalizing console with
  | nil => exact ⟨fun _ => trivial, fun _ => sound.toInBounds⟩
  | cons request rest ih =>
    rw [forall_mem_cons] at single
    have later {next : FramebufferConsole fb} (kept : next.2.Sound) := ih kept single.2
    by_cases sends : ∃ byte, request = .send [byte]
    · obtain ⟨byte, rfl⟩ := sends
      by_cases fits : console.Fits (.send [byte])
      · have sent := sendByte_fits sound fits
        rw [StaysInBounds, AllFit, perform_byte]
        cases ran : console.sendByte byte with
        | error panic =>
          rw [ran] at sent
          exact ⟨fun _ => ⟨fits, by simp⟩, fun _ => ⟨sound.toInBounds, sent⟩⟩
        | ok next =>
          have kept : next.2.Sound := sent.of_ok ran
          simp only [sound.toInBounds, fits, true_and, Except.ok.injEq, forall_eq', later kept]
      · have sent := sendByte_misfits sound fits
        rw [StaysInBounds, AllFit, perform_byte]
        refine ⟨fun stays => ?_, fun all => absurd all.1 fits⟩
        cases ran : console.sendByte byte with
        | error panic =>
          rw [ran] at sent stays
          exact absurd stays.2 sent
        | ok next =>
          have outside : ¬next.2.InBounds := sent.of_ok ran
          rw [ran] at stays
          cases rest with
          | nil => exact absurd stays.2 outside
          | cons other rest => exact absurd stays.2.1 outside
    · have silent : ∀ bytes, request ≠ .send bytes := by
        rintro bytes rfl
        obtain ⟨byte, rfl⟩ := single.1 bytes rfl
        exact sends ⟨byte, rfl⟩
      have fits : console.Fits request := fun byte _ same => absurd same (silent [byte])
      obtain ⟨next, ran, kept⟩ := (perform_returns sound silent).exists_ok
      simp only [StaysInBounds, AllFit, ran, sound.toInBounds, fits, true_and, Except.ok.injEq, forall_eq',
        later kept]

theorem steps_single (requests : List Request) : ∀ request ∈ requests.flatMap steps,
    ∀ bytes, request = .send bytes → ∃ byte, bytes = [byte] := by
  rintro _ member bytes rfl
  obtain ⟨request, _, member⟩ := mem_flatMap.mp member
  cases request with
  | send sent =>
    obtain ⟨byte, _, same⟩ := mem_map.mp member
    cases same
    exact ⟨byte, rfl⟩
  | setFont font => simp [steps] at member
  | setMode mode => simp [steps] at member
  | activate => simp [steps] at member
  | deactivate => simp [steps] at member
  | flush => simp [steps] at member

/-- On a screen with room for a glyph, the console stays in bounds exactly in the runs whose
images all fit where they are shown. -/
theorem run_inBounds_iff (glyphs : BitmapFont.BasicFonts) (device : Device fb.bufferSize)
    (wide : 8 ≤ fb.width) (high : 8 ≤ fb.height) (requests : List Request) :
    run (new glyphs device) requests = run (new glyphs device) (requests.flatMap steps) ∧
      (StaysInBounds (new glyphs device) (requests.flatMap steps) ↔
        AllFit (new glyphs device) (requests.flatMap steps)) := by
  refine ⟨run_steps _ _, staysInBounds_iff ?_ (steps_single requests)⟩
  exact ⟨⟨zero_le _, high⟩, wide⟩

def column : List UInt8 := [0x1B, 0x50, 0x71, 0x7E, 0x1B, 0x5C]

/-- On a screen of two lines one column ends above the edge, and the next one scrolls. -/
theorem run_inBounds_images : 8 ≤ (stripe 16).width ∧ 8 ≤ (stripe 16).height ∧
    StaysInBounds (onStripe 16) ([.activate, .send column, .send column, .send [0x41]].flatMap steps) :=
  ⟨by decide, by decide, (run_inBounds_iff _ _ (by decide) (by decide) _).2.mpr (by decide +kernel)⟩

set_option maxRecDepth 10000 in
/-- The column as high as the screen makes the console scroll above its first line; on a
screen that is no multiple of the glyph's height it leaves the cursor on the cut off line,
where the next character does not fit into the buffer. -/
theorem run_inBounds_column : (onStripe 8).run [.send column] = .error .subOverflow ∧
      (∃ console, (onStripe 12).run [.send column] = .ok console ∧
        console.2.yPos = 8 ∧ console.2.font.height = 8 ∧ (stripe 12).height = 12) ∧
      (onStripe 12).run [.send column, .send [0x41]] = .error .sliceOutOfRange := by
  refine ⟨rfl, ⟨_, rfl, rfl, rfl, rfl⟩, rfl⟩

end FramebufferConsole

end Kei.Framebuffer
