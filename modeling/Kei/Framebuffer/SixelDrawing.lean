import Kei.Framebuffer.SixelColumns
import Mathlib.Algebra.Order.Ring.Nat

/-! A payload as a sequence of commands, and what the commands draw: strokes of columns, the
newest on top, each with the color commands that came before it. The decoder is a run of
its commands that draws them, and it panics exactly when a command asks for too much. -/

namespace Kei.Framebuffer

open Library Checked Nat

inductive Command
  | raster (params : List Nat)
  | color (params : List Nat)
  | repeated (count bits : Nat)
  | carriageReturn
  | nextBand
  | data (bits : Nat)
  | skipped
  deriving DecidableEq, Repr

def readCommand (c : UInt8) (rest : List UInt8) : Command × List UInt8 :=
  if c = 0x22 then (.raster (parseParams rest).1, rest.drop (parseParams rest).2)
  else if c = 0x23 then (.color (parseParams rest).1, rest.drop (parseParams rest).2)
  else if c = 0x21 then
    match rest.drop (parseParams rest).2 with
    | [] => (.skipped, [])
    | sixelChar :: left =>
      (if isDataChar sixelChar then .repeated ((parseParams rest).1.headD 1) (sixelChar.toNat - 0x3F)
        else .skipped, left)
  else if c = 0x24 then (.carriageReturn, rest)
  else if c = 0x2D then (.nextBand, rest)
  else if isDataChar c then (.data (c.toNat - 0x3F), rest)
  else (.skipped, rest)

def readCommands : Nat → List UInt8 → List Command
  | 0, _ => []
  | _ + 1, [] => []
  | turns + 1, c :: rest => (readCommand c rest).1 :: readCommands turns (readCommand c rest).2

def commands (data : List UInt8) : List Command := readCommands data.length data

def Canvas.exec (canvas : Canvas) : Command → Checked Canvas
  | .raster params => .ok (setRaster canvas params)
  | .color params => defineColor canvas params
  | .repeated count bits => putColumns count canvas bits
  | .carriageReturn => .ok { canvas with curX := 0 }
  | .nextBand => Framebuffer.nextBand canvas
  | .data bits => putColumn canvas bits
  | .skipped => .ok canvas

theorem decodeStep_eq (canvas : Canvas) (c : UInt8) (rest : List UInt8) :
    decodeStep canvas c rest = do
      return (← canvas.exec (readCommand c rest).1, (readCommand c rest).2) := by
  unfold decodeStep readCommand
  split_ifs <;> try rfl
  dsimp only
  generalize rest.drop (parseParams rest).2 = left
  cases left with
  | nil => rfl
  | cons sixelChar left =>
    simp only [repeatColumn]
    split <;> rfl

theorem decodeLoop_eq (turns : Nat) (canvas : Canvas) (data : List UInt8) :
    decodeLoop turns canvas data = (readCommands turns data).foldlM Canvas.exec canvas := by
  induction turns generalizing canvas data with
  | zero => rfl
  | succ turns ih =>
    cases data with
    | nil => rfl
    | cons c rest =>
      rw [decodeLoop, readCommands, List.foldlM_cons, decodeStep_eq]
      simp only [bind_assoc, pure_bind, ih]

structure Stroke where
  x : Nat
  count : Nat
  band : Nat
  bits : Nat
  history : List (List Nat)
  deriving DecidableEq, Repr

def Stroke.Covers (stroke : Stroke) (px py : Nat) : Prop :=
  (stroke.x ≤ px ∧ px < stroke.x + stroke.count) ∧ py / 6 = stroke.band ∧
    stroke.bits.testBit (py % 6)

instance (stroke : Stroke) (px py : Nat) : Decidable (stroke.Covers px py) :=
  inferInstanceAs (Decidable (_ ∧ _))

structure Drawing where
  x : Nat
  band : Nat
  history : List (List Nat)
  strokes : List Stroke
  /-- The width and height of the raster attributes that are honoured. -/
  raster : Option (Nat × Nat)
  deriving DecidableEq, Repr

namespace Drawing

def blank : Drawing := ⟨0, 0, [], [], none⟩

def stroke (drawing : Drawing) (count bits : Nat) : Drawing :=
  { drawing with
    x := drawing.x + count
    strokes := if count = 0 then drawing.strokes
      else ⟨drawing.x, count, drawing.band, bits, drawing.history⟩ :: drawing.strokes }

def setRaster (drawing : Drawing) : List Nat → Drawing
  | _ :: _ :: width :: height :: _ => { drawing with raster := some (width, height) }
  | _ => drawing

def step (drawing : Drawing) : Command → Drawing
  | .raster params => drawing.setRaster params
  | .color params => { drawing with history := params :: drawing.history }
  | .repeated count bits => drawing.stroke count bits
  | .carriageReturn => { drawing with x := 0 }
  | .nextBand => { drawing with x := 0, band := drawing.band + 1 }
  | .data bits => drawing.stroke 1 bits
  | .skipped => drawing

def draw (commands : List Command) : Drawing := commands.foldl step blank

def width (drawing : Drawing) : Nat :=
  drawing.strokes.foldr (fun stroke width => max width (stroke.x + stroke.count)) 0

def height (drawing : Drawing) : Nat :=
  drawing.strokes.foldr (fun stroke height => max height ((stroke.band + 1) * 6)) 0

def top (drawing : Drawing) (px py : Nat) : Option Stroke :=
  drawing.strokes.find? fun stroke => stroke.Covers px py

def picture {α : Type} (ink : List (List Nat) → α) (background : α) (drawing : Drawing) (px py : Nat) : α :=
  ((drawing.top px py).map fun stroke => ink stroke.history).getD background

section Stroke

variable {α : Type} (ink : List (List Nat) → α) (background : α) (drawing : Drawing) {count : Nat} (bits : Nat)

theorem picture_stroke (drawn : count ≠ 0) : (drawing.stroke count bits).picture ink background =
      painted (drawing.picture ink background) drawing.x count drawing.band bits (ink drawing.history) := by
  funext px py
  simp only [picture, top, stroke, if_neg drawn, List.find?_cons, painted, Stroke.Covers]
  by_cases hit : (drawing.x ≤ px ∧ px < drawing.x + count) ∧ py / 6 = drawing.band ∧
    bits.testBit (py % 6) = true
  · simp [hit]
  · simp only [hit, decide_false, if_false]

theorem width_stroke (drawn : count ≠ 0) :
    (drawing.stroke count bits).width = max drawing.width (drawing.x + count) := by
  simp only [width, stroke, if_neg drawn, List.foldr_cons]

theorem height_stroke (drawn : count ≠ 0) :
    (drawing.stroke count bits).height = max drawing.height ((drawing.band + 1) * 6) := by
  simp only [height, stroke, if_neg drawn, List.foldr_cons]

end Stroke

end Drawing

section Columns

def Canvas.advanced (canvas : Canvas) (count : Nat) (grid : List (List Pixel)) : Canvas :=
  { canvas with
    gridPixels := grid
    gridWidth := if count = 0 then canvas.gridWidth else max canvas.gridWidth (canvas.curX + count)
    gridHeight := if count = 0 then canvas.gridHeight
      else max canvas.gridHeight ((canvas.curSixelY + 1) * 6)
    curX := canvas.curX + count }

abbrev Canvas.Pictures (canvas : Canvas) (picture : Nat → Nat → Pixel) : Prop :=
  Shows pixelSize Pixel.black canvas.gridPixels canvas.gridWidth canvas.gridHeight picture

variable {picture : Nat → Nat → Pixel} {canvas : Canvas}

theorem ensureGridSize_settles (shows : canvas.Pictures picture)
    (needW band : Nat) :
    Settles (Room pixelSize needW band) (ensureGridSize canvas needW ((band + 1) * 6)) fun next =>
      next = { canvas with
        gridPixels := table (max canvas.gridWidth needW) (max canvas.gridHeight ((band + 1) * 6)) picture
        gridWidth := max canvas.gridWidth needW
        gridHeight := max canvas.gridHeight ((band + 1) * 6) } :=
  (growGrid_settles shows needW band).map fun grown _ same => by rw [same]

theorem Room.usize {size columns band : Nat} (positive : 0 < size) (room : Room size columns band) :
    columns ≤ usizeMax ∧ band + 1 ≤ usizeMax ∧ (band + 1) * 6 ≤ usizeMax := by
  obtain ⟨narrow, short⟩ := room
  have wide := Nat.le_mul_of_pos_right columns positive
  simp only [isizeMax, usizeMax, vecSize] at *
  omega

def Canvas.inkPixel (canvas : Canvas) : Pixel := canvas.palette.get (Fin.ofNat 16 canvas.currentColor)

theorem putColumn_settles (shows : canvas.Pictures picture)
    (bits : Nat) :
    Settles (Room pixelSize (canvas.curX + 1) canvas.curSixelY) (putColumn canvas bits) fun next =>
      ∃ grid, next = canvas.advanced 1 grid ∧
        (canvas.advanced 1 grid).Pictures (painted picture canvas.curX 1 canvas.curSixelY bits
          canvas.inkPixel) := by
  refine ((add_settles usizeMax canvas.curX 1).bind_eq ((add_settles usizeMax canvas.curSixelY 1).bind_eq
    ((mul_settles usizeMax (canvas.curSixelY + 1) 6).bind_eq
      ((ensureGridSize_settles shows (canvas.curX + 1) canvas.curSixelY).returning
        fun next room same => ?_)))).congr ?_
  · subst same
    dsimp only
    have inside : canvas.curX < max canvas.gridWidth (canvas.curX + 1) := by omega
    have tall : (canvas.curSixelY + 1) * 6 ≤ max canvas.gridHeight ((canvas.curSixelY + 1) * 6) :=
      le_max_right _ _
    rw [writeSixelColumn_table _ inside tall]
    exact ⟨_, rfl, _, rfl, (shows.grown room).paint _ inside tall⟩
  · constructor
    · exact fun all => all.2.2.2
    · intro room
      have fits := room.usize (by decide)
      exact ⟨fits.1, fits.2.1, fits.2.2, room⟩

theorem Room.mono {size columns more band : Nat} (room : Room size more band) (fewer : columns ≤ more) :
    Room size columns band :=
  ⟨le_trans (mul_le_mul_right size fewer) room.1, room.2⟩

theorem advanced_advanced (canvas : Canvas) (count : Nat) (grid last : List (List Pixel)) :
    (canvas.advanced 1 grid).advanced count last = canvas.advanced (count + 1) last := by
  by_cases none : count = 0
  · subst none
    rfl
  · simp only [Canvas.advanced, none, if_false, Nat.add_eq_zero_iff, Nat.one_ne_zero, and_false, Nat.max_assoc,
      max_self, Canvas.mk.injEq, true_and, and_true]
    omega

theorem room_succ {size x count band : Nat} :
    Room size (x + 1) band ∧ (count = 0 ∨ Room size (x + 1 + count) band) ↔
      count + 1 = 0 ∨ Room size (x + (count + 1)) band := by
  have step : x + 1 + count = x + (count + 1) := by omega
  rw [step]
  constructor
  · rintro ⟨room, rfl | rooms⟩
    · exact .inr room
    · exact .inr rooms
  · rintro (impossible | rooms)
    · cases impossible
    · exact ⟨rooms.mono (by omega), .inr rooms⟩

theorem putColumns_settles (count : Nat)
    (shows : canvas.Pictures picture) (bits : Nat) :
    Settles (count = 0 ∨ Room pixelSize (canvas.curX + count) canvas.curSixelY) (putColumns count canvas bits)
      fun next => ∃ grid, next = canvas.advanced count grid ∧
        (canvas.advanced count grid).Pictures (painted picture canvas.curX count canvas.curSixelY bits
          canvas.inkPixel) := by
  induction count generalizing canvas picture with
  | zero =>
    refine ⟨.inl rfl, canvas.gridPixels, rfl, ?_⟩
    rw [painted_zero]
    exact shows
  | succ count ih =>
    rw [putColumns]
    refine ((putColumn_settles shows bits).bind
      (count = 0 ∨ Room pixelSize (canvas.curX + 1 + count) canvas.curSixelY) fun next _ drawn => ?_).congr ?_
    · obtain ⟨grid, rfl, shown⟩ := drawn
      refine (ih shown).mono Iff.rfl ?_
      rintro _ _ ⟨last, rfl, shown⟩
      have joined : (canvas.advanced 1 grid).advanced count last = canvas.advanced (count + 1) last :=
        advanced_advanced canvas count grid last
      rw [joined] at shown ⊢
      refine ⟨last, rfl, ?_⟩
      rw [add_comm count 1, ← painted_painted]
      rw [add_comm count 1] at shown
      exact shown
    · exact room_succ

end Columns

/-! The color registers. A palette of sixteen entries stands for 256 registers, so a register
holds what was defined last for any register with the same remainder. -/

def definedBy (which : Nat → Bool) : List Nat → Option (Nat × Nat × Nat)
  | reg :: _ :: r :: g :: b :: _ => if reg < maxRegisters ∧ which reg then some (r, g, b) else none
  | _ => none

def lastDefined (which : Nat → Bool) (history : List (List Nat)) : Option (Nat × Nat × Nat) :=
  history.findSome? (definedBy which)

/-- The color of the last command that defines a register of these, or the one it starts with. -/
def lastColorOf {α : Type} (which : Nat → Bool) (scaled : Nat × Nat × Nat → α) (start : α)
    (history : List (List Nat)) : α :=
  ((lastDefined which history).map scaled).getD start

def percentPixel (components : Nat × Nat × Nat) : Pixel :=
  ⟨UInt8.ofNat (components.1 * 255 / 100), UInt8.ofNat (components.2.1 * 255 / 100),
    UInt8.ofNat (components.2.2 * 255 / 100)⟩

def selected : List (List Nat) → Nat
  | [] => 0
  | [] :: _ => 0
  | (reg :: _ :: _ :: _ :: _ :: _) :: older => if reg < maxRegisters then reg else selected older
  | (reg :: _) :: _ => reg

def paletteEntry (history : List (List Nat)) (entry : Nat) : Pixel :=
  lastColorOf (fun reg => reg % 16 == entry) percentPixel
    (defaultPalette.get ⟨entry % 16, register_lt entry⟩) history

def ink (history : List (List Nat)) : Pixel := paletteEntry history (selected history % 16)

def ColorFits : List Nat → Prop
  | _ :: _ :: r :: g :: b :: _ => r * 255 ≤ u32Max ∧ g * 255 ≤ u32Max ∧ b * 255 ≤ u32Max
  | _ => True

instance : DecidablePred ColorFits
  | [] => isTrue trivial
  | [_] => isTrue trivial
  | [_, _] => isTrue trivial
  | [_, _, _] => isTrue trivial
  | [_, _, _, _] => isTrue trivial
  | _ :: _ :: r :: g :: b :: _ =>
    inferInstanceAs (Decidable (r * 255 ≤ u32Max ∧ g * 255 ≤ u32Max ∧ b * 255 ≤ u32Max))

def Command.Fits (size : Nat) (drawing : Drawing) : Command → Prop
  | .color params => ColorFits params
  | .repeated count _ => count = 0 ∨ Room size (drawing.x + count) drawing.band
  | .nextBand => drawing.band + 1 ≤ usizeMax
  | .data _ => Room size (drawing.x + 1) drawing.band
  | _ => True

instance (size : Nat) (drawing : Drawing) : (command : Command) → Decidable (command.Fits size drawing)
  | .raster _ => isTrue trivial
  | .color params => inferInstanceAs (Decidable (ColorFits params))
  | .repeated _ _ => inferInstanceAs (Decidable (_ ∨ _))
  | .carriageReturn => isTrue trivial
  | .nextBand => inferInstanceAs (Decidable (_ ≤ _))
  | .data _ => inferInstanceAs (Decidable (Room _ _ _))
  | .skipped => isTrue trivial

structure Canvas.Draws (canvas : Canvas) (drawing : Drawing) : Prop where
  x : canvas.curX = drawing.x
  band : canvas.curSixelY = drawing.band
  current : canvas.currentColor = selected drawing.history
  colors : ∀ entry, (small : entry < 16) → canvas.palette[entry] = paletteEntry drawing.history entry
  width : canvas.gridWidth = drawing.width
  height : canvas.gridHeight = drawing.height
  rasterW : canvas.rasterW = drawing.raster.map Prod.fst
  rasterH : canvas.rasterH = drawing.raster.map Prod.snd
  shows : canvas.Pictures (drawing.picture ink Pixel.black)

theorem Canvas.new_draws : Canvas.new.Draws Drawing.blank where
  x := rfl
  band := rfl
  current := rfl
  colors entry small := by
    simp only [Canvas.new, paletteEntry, lastColorOf, Drawing.blank, lastDefined, List.findSome?_nil, Option.map_none,
      Option.getD_none, mod_eq_of_lt small]
    rfl
  width := rfl
  height := rfl
  rasterW := rfl
  rasterH := rfl
  shows := ⟨rfl, fun _ _ _ => rfl, fun _ _ _ => rfl, by decide, by decide⟩

theorem percentChannel_settles (value : Nat) :
    Settles (value * 255 ≤ u32Max) (percentChannel value) fun channel =>
      channel = UInt8.ofNat (value * 255 / 100) :=
  (mul_settles u32Max value 255).map fun _ _ same => by rw [same]

section Registers

variable {α : Type} {which : Nat → Bool} {scaled : Nat × Nat × Nat → α} {start : α} {history : List (List Nat)}

theorem lastColorOf_define {reg co r g b : Nat} {rest : List Nat} (known : reg < maxRegisters) :
    lastColorOf which scaled start ((reg :: co :: r :: g :: b :: rest) :: history) =
      if which reg then scaled (r, g, b) else lastColorOf which scaled start history := by
  simp only [lastColorOf, lastDefined, List.findSome?_cons, definedBy, known, true_and]
  by_cases hit : which reg
  · simp [hit]
  · simp [hit]

theorem definedBy_of_unknown {reg co r g b : Nat} {rest : List Nat} (unknown : ¬reg < maxRegisters)
    (which : Nat → Bool) : definedBy which (reg :: co :: r :: g :: b :: rest) = none :=
  if_neg fun both => unknown both.1

theorem lastColorOf_of_none {params : List Nat} (silent : ∀ which, definedBy which params = none) :
    lastColorOf which scaled start (params :: history) = lastColorOf which scaled start history := by
  simp only [lastColorOf, lastDefined, List.findSome?_cons, silent]

end Registers

variable {canvas : Canvas}

section

variable {drawing : Drawing} (draws : canvas.Draws drawing)
include draws

theorem Canvas.Draws.select {params : List Nat} (silent : ∀ which, definedBy which params = none) {current : Nat}
    (chosen : selected (params :: drawing.history) = current) :
    Canvas.Draws { canvas with currentColor := current } (drawing.step (.color params)) :=
  { draws with
    current := chosen.symm
    colors := fun entry small => (draws.colors entry small).trans (lastColorOf_of_none silent).symm }

theorem Canvas.Draws.define {reg co r g b : Nat} {rest : List Nat} (known : reg < maxRegisters) :
    Canvas.Draws { canvas with
        palette := canvas.palette.set (reg % 16) (percentPixel (r, g, b)) (register_lt reg), currentColor := reg }
      (drawing.step (.color (reg :: co :: r :: g :: b :: rest))) := by
  refine { draws with current := (if_pos known).symm, colors := fun entry small => ?_ }
  dsimp only [Drawing.step]
  rw [paletteEntry, lastColorOf_define known, Vector.getElem_set, draws.colors entry small]
  simp only [beq_iff_eq, paletteEntry]

theorem Canvas.Draws.defineColor (params : List Nat) :
    Settles (ColorFits params) (Framebuffer.defineColor canvas params) fun next =>
      next.Draws (drawing.step (.color params)) := by
  rcases params with _ | ⟨reg, _ | ⟨co, _ | ⟨r, _ | ⟨g, _ | ⟨b, rest⟩⟩⟩⟩⟩
  iterate 5 exact .ok (draws.select (fun _ => rfl) rfl)
  refine (percentChannel_settles r).bind_eq ((percentChannel_settles g).bind_eq
    ((percentChannel_settles b).returning fun blue _ same => ?_))
  subst same
  by_cases known : reg < maxRegisters
  · rw [if_pos known]
    exact ⟨_, rfl, draws.define known⟩
  · rw [if_neg known]
    refine ⟨canvas, rfl, ?_⟩
    have chosen : selected ((reg :: co :: r :: g :: b :: rest) :: drawing.history) = canvas.currentColor := by
      rw [draws.current]
      exact if_neg known
    exact draws.select (definedBy_of_unknown known) chosen

theorem Canvas.Draws.setRaster (params : List Nat) : (Framebuffer.setRaster canvas params).Draws
    (drawing.step (.raster params)) := by
  rcases params with _ | ⟨_, _ | ⟨_, _ | ⟨width, _ | ⟨height, rest⟩⟩⟩⟩
  · exact draws
  · exact draws
  · exact draws
  · exact draws
  · exact { draws with rasterW := rfl, rasterH := rfl }

theorem Canvas.Draws.stroke {count bits : Nat} {grid : List (List Pixel)}
    (shown : (canvas.advanced count grid).Pictures (painted (drawing.picture ink Pixel.black) canvas.curX count
      canvas.curSixelY bits canvas.inkPixel)) :
    (canvas.advanced count grid).Draws (drawing.stroke count bits) := by
  have color : canvas.inkPixel = ink drawing.history := by
    refine (draws.colors _ (register_lt canvas.currentColor)).trans ?_
    rw [draws.current]
    rfl
  rw [color, draws.x, draws.band] at shown
  have place : (canvas.advanced count grid).curX = drawing.x + count := congrArg (· + count) draws.x
  by_cases drawn : count = 0
  · subst drawn
    rw [painted_zero] at shown
    exact { draws with shows := shown }
  · have width : (canvas.advanced count grid).gridWidth = (drawing.stroke count bits).width := by
      rw [Drawing.width_stroke _ _ drawn, ← draws.width, ← draws.x]
      exact if_neg drawn
    have height : (canvas.advanced count grid).gridHeight = (drawing.stroke count bits).height := by
      rw [Drawing.height_stroke _ _ drawn, ← draws.height, ← draws.band]
      exact if_neg drawn
    rw [← Drawing.picture_stroke _ _ _ _ drawn] at shown
    exact { draws with x := place, width := width, height := height, shows := shown }

theorem Canvas.Draws.exec (command : Command) :
    Settles (command.Fits pixelSize drawing) (canvas.exec command) fun next =>
      next.Draws (drawing.step command) := by
  cases command with
  | raster params => exact .ok (draws.setRaster params)
  | color params => exact draws.defineColor params
  | repeated count bits =>
    refine (putColumns_settles count draws.shows bits).mono (by rw [draws.x, draws.band]; exact Iff.rfl) ?_
    rintro _ _ ⟨grid, rfl, shown⟩
    exact draws.stroke shown
  | carriageReturn => exact .ok { draws with x := rfl }
  | nextBand =>
    refine ((add_settles usizeMax canvas.curSixelY 1).map fun band _ same => ?_).congr
      (by rw [draws.band]; exact Iff.rfl)
    exact { draws with x := rfl, band := same.trans (by rw [draws.band]; rfl) }
  | data bits =>
    refine (putColumn_settles draws.shows bits).mono (by rw [draws.x, draws.band]; exact Iff.rfl) ?_
    rintro _ _ ⟨grid, rfl, shown⟩
    exact draws.stroke shown
  | skipped => exact .ok draws

end

def AllFit (size : Nat) : List Command → Drawing → Prop
  | [], _ => True
  | command :: rest, drawing => command.Fits size drawing ∧ AllFit size rest (drawing.step command)

instance decidableAllFit (size : Nat) :
    (commands : List Command) → (drawing : Drawing) → Decidable (AllFit size commands drawing)
  | [], _ => isTrue trivial
  | command :: rest, drawing =>
    have := decidableAllFit size rest (drawing.step command)
    inferInstanceAs (Decidable (command.Fits size drawing ∧ _))

theorem Canvas.Draws.run {drawing : Drawing} (draws : canvas.Draws drawing)
    (commands : List Command) :
    Settles (AllFit pixelSize commands drawing) (commands.foldlM Canvas.exec canvas) fun next =>
      next.Draws (commands.foldl Drawing.step drawing) := by
  induction commands generalizing canvas drawing with
  | nil => exact .ok draws
  | cons command rest ih =>
    rw [List.foldlM_cons]
    exact (draws.exec command).bind _ fun next _ drawn => ih drawn

def Drawing.size (drawing : Drawing) : Nat × Nat := drawing.raster.getD (drawing.width, drawing.height)

def Drawing.image (drawing : Drawing) : Option SixelImage :=
  if drawing.size.1 = 0 ∨ drawing.size.2 = 0 then none
  else some ⟨drawing.size.1, drawing.size.2,
    (table drawing.size.1 drawing.size.2 (drawing.picture ink Pixel.black)).flatten⟩

def ImageFits (bytes width height : Nat) : Prop :=
  width = 0 ∨ height = 0 ∨ width * height * bytes ≤ isizeMax

instance (bytes width height : Nat) : Decidable (ImageFits bytes width height) :=
  inferInstanceAs (Decidable (_ ∨ _ ∨ _))

variable {bytes width height : Nat}

theorem imageFits_of_empty (empty : width = 0 ∨ height = 0) : ImageFits bytes width height := by
  rcases empty with none | none
  · exact .inl none
  · exact .inr (.inl none)

theorem imageFits_iff (positive : 0 < bytes) (filled : ¬(width = 0 ∨ height = 0)) :
    width * height ≤ usizeMax ∧ width * height * bytes ≤ isizeMax ↔ ImageFits bytes width height := by
  rw [not_or] at filled
  have more := Nat.le_mul_of_pos_right (width * height) positive
  simp only [ImageFits, filled.1, filled.2, false_or, isizeMax, usizeMax]
  omega

theorem Canvas.Draws.size {drawing : Drawing} (draws : canvas.Draws drawing) :
    canvas.rasterW.getD canvas.gridWidth = drawing.size.1 ∧
      canvas.rasterH.getD canvas.gridHeight = drawing.size.2 := by
  rw [draws.rasterW, draws.rasterH, draws.width, draws.height, Drawing.size]
  cases drawing.raster with
  | none => exact ⟨rfl, rfl⟩
  | some raster => exact ⟨rfl, rfl⟩

theorem flatten_draws {drawing : Drawing} (draws : canvas.Draws drawing)
    (width height : Nat) :
    flatten canvas width height = .ok (table width height (drawing.picture ink Pixel.black)).flatten := by
  have pixel (y x : Nat) : flatPixel canvas y x = .ok (drawing.picture ink Pixel.black x y) := by
    unfold flatPixel
    have shows := draws.shows
    split
    · rename_i inside
      rw [shows.rows, index_getElem? (getElem?_table inside.1), bind_ok]
      exact index_getElem? (by simp [inside.2])
    · rename_i outside
      rcases not_and_or.mp outside with low | right
      · rw [shows.below x y (not_lt.mp low)]
      · rw [shows.right x y (not_lt.mp right)]
  have row (y : Nat) : ((List.range width).mapM fun x => flatPixel canvas y x) =
      .ok ((List.range width).map fun x => drawing.picture ink Pixel.black x y) :=
    mapM_ok fun x _ => pixel y x
  rw [flatten, mapM_ok fun y _ => row y]
  rfl

theorem decode_settles (data : List UInt8) : let drawing := Drawing.draw (commands data)
    Settles (AllFit pixelSize (commands data) Drawing.blank ∧
        ImageFits pixelSize drawing.size.1 drawing.size.2)
      (decode data) fun result => result = drawing.image := by
  intro drawing
  unfold decode
  rw [decodeLoop_eq]
  refine (Canvas.new_draws.run (commands data)).bind _ fun canvas _ draws => ?_
  have width : canvas.rasterW.getD canvas.gridWidth = drawing.size.1 := draws.size.1
  have height : canvas.rasterH.getD canvas.gridHeight = drawing.size.2 := draws.size.2
  simp only [width, height]
  by_cases empty : drawing.size.1 = 0 ∨ drawing.size.2 = 0
  · rw [if_pos empty]
    exact ⟨imageFits_of_empty empty, (if_pos empty).symm⟩
  · rw [if_neg empty]
    refine ((mul_settles usizeMax _ _).bind_eq ((withCapacity_settles pixelSize _).returning
      fun _ _ _ => ?_)).congr (imageFits_iff (by decide) empty)
    rw [flatten_draws draws]
    exact ⟨_, rfl, (if_neg empty).symm⟩

end Kei.Framebuffer
