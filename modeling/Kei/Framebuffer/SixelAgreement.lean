import Kei.Framebuffer.ConsoleSixel

/-! The console's decoder draws what its commands say as well, in its own colors. Where it and
the component's decoder differ is in the registers: sixteen palette entries for all of
them against one for each, and what happens to a register beyond the last. -/

namespace Kei.Framebuffer

open Library Checked List SixelState

def Pixel.word (pixel : Pixel) : UInt32 :=
  SixelState.word pixel.red.toNat pixel.green.toNat pixel.blue.toNat

namespace SixelState

def exec (state : SixelState) : Command → Checked SixelState
  | .raster _ => .ok state
  | .color params => state.defineColor params
  | .repeated count bits => do
    let color ← index state.palette (min state.currentColor 255)
    putColumns count state bits color
  | .carriageReturn => .ok { state with curX := 0 }
  | .nextBand => state.nextBand
  | .data bits => state.drawChar bits
  | .skipped => .ok state

theorem decodeStep_eq (state : SixelState) {c : UInt8} (plain : c ≠ 0x22) (rest : List UInt8) :
    state.decodeStep c rest = do
      return (← state.exec (readCommand c rest).1, (readCommand c rest).2) := by
  unfold decodeStep readCommand
  rw [if_neg plain]
  split_ifs <;> try rfl
  simp only [parseSixelParams]
  generalize rest.drop (parseParams rest).2 = left
  cases left with
  | nil => rfl
  | cons sixelChar left =>
    simp only [repeatColumn]
    split
    · simp only [exec, bind_assoc]
    · rfl

theorem readCommand_suffix (c : UInt8) (rest : List UInt8) : (readCommand c rest).2 <:+ rest := by
  unfold readCommand
  split_ifs <;> try first | exact drop_suffix _ _ | exact suffix_refl _
  split
  · exact nil_suffix
  · rename_i left found
    exact (suffix_cons _ _).trans (found ▸ drop_suffix _ _)

theorem decodeLoop_eq (turns : Nat) (state : SixelState) {data : List UInt8} (plain : 0x22 ∉ data) :
    decodeLoop turns state data = (readCommands turns data).foldlM exec state := by
  induction turns generalizing state data with
  | zero => rfl
  | succ turns ih =>
    cases data with
    | nil => rfl
    | cons c rest =>
      obtain ⟨other, later⟩ := not_or.mp (fun found => plain (mem_cons.mpr found))
      have left : 0x22 ∉ (readCommand c rest).2 := fun found =>
        later ((readCommand_suffix c rest).subset found)
      rw [decodeLoop, readCommands, foldlM_cons, decodeStep_eq state (Ne.symm other)]
      simp only [bind_assoc, pure_bind, ih _ left]

theorem readCommand_plain {c : UInt8} (plain : c ≠ 0x22) (rest : List UInt8) (params : List Nat) :
    (readCommand c rest).1 ≠ .raster params := by
  unfold readCommand
  rw [if_neg plain]
  split_ifs
  on_goal 2 =>
    split
    · exact nofun
    · dsimp only
      split <;> exact nofun
  all_goals exact nofun

theorem commands_plain {data : List UInt8} (plain : 0x22 ∉ data) (turns : Nat) (params : List Nat) :
    .raster params ∉ readCommands turns data := by
  induction turns generalizing data with
  | zero => exact not_mem_nil
  | succ turns ih =>
    cases data with
    | nil => exact not_mem_nil
    | cons c rest =>
      obtain ⟨other, later⟩ := not_or.mp (fun found => plain (mem_cons.mpr found))
      intro member
      rcases mem_cons.mp member with first | more
      · exact readCommand_plain (Ne.symm other) rest params first.symm
      · exact ih (fun found => later ((readCommand_suffix c rest).subset found)) more

section Columns

variable {state : SixelState} {picture : Nat → Nat → UInt32}

abbrev Pictures (state : SixelState) (picture : Nat → Nat → UInt32) : Prop :=
  Shows wordSize background state.grid state.gridW state.grid.length picture

def drawn (state : SixelState) (picture : Nat → Nat → UInt32) (count bits : Nat) (color : UInt32) :
    SixelState :=
  if count = 0 then state
  else
    { state with
      grid := table (max state.gridW (state.curX + count)) (max state.grid.length ((state.curSixelY + 1) * 6))
        (painted picture state.curX count state.curSixelY bits color)
      gridW := max state.gridW (state.curX + count)
      curX := state.curX + count }

theorem ensureGrid_settles (shows : state.Pictures picture) (needW band : Nat) :
    Settles (Room wordSize needW band) (ensureGrid state.grid state.gridW needW ((band + 1) * 6)) fun grown =>
      grown = (table (max state.gridW needW) (max state.grid.length ((band + 1) * 6)) picture,
        max state.gridW needW) :=
  (growGrid_settles shows needW band).map fun grown _ same => by rw [same]

theorem putColumn_settles (shows : state.Pictures picture) (bits : Nat) (color : UInt32) :
    Settles (Room wordSize (state.curX + 1) state.curSixelY) (state.putColumn bits color) fun next =>
      next = state.drawn picture 1 bits color := by
  have inside : state.curX < max state.gridW (state.curX + 1) := by omega
  have tall : (state.curSixelY + 1) * 6 ≤ max state.grid.length ((state.curSixelY + 1) * 6) :=
    Nat.le_max_right _ _
  refine ((add_settles usizeMax state.curX 1).bind_eq ((add_settles usizeMax state.curSixelY 1).bind_eq
    ((mul_settles usizeMax (state.curSixelY + 1) 6).bind_eq
      ((ensureGrid_settles shows (state.curX + 1) state.curSixelY).returning fun next room same => ?_)))).congr ?_
  · subst same
    dsimp only
    rw [writeSixelCol, writeSixelColumn_table _ inside tall]
    exact ⟨_, rfl, rfl⟩
  · constructor
    · exact fun all => all.2.2.2
    · intro room
      have fits := room.usize (by decide)
      exact ⟨fits.1, fits.2.1, fits.2.2, room⟩

theorem Pictures.drawn (shows : state.Pictures picture) {count : Nat} (bits : Nat) (color : UInt32)
    (room : count = 0 ∨ Room wordSize (state.curX + count) state.curSixelY) :
    (state.drawn picture count bits color).Pictures (painted picture state.curX count state.curSixelY bits color) := by
  unfold SixelState.drawn
  split
  · rename_i none
    subst none
    rw [painted_zero]
    exact shows
  · rename_i drawn
    have columns := room.resolve_left drawn
    rw [Pictures, length_table]
    exact (shows.grown columns).paint color (Nat.le_max_right _ _) (Nat.le_max_right _ _)

theorem drawn_drawn (count bits : Nat) (color : UInt32) :
    (state.drawn picture 1 bits color).drawn (painted picture state.curX 1 state.curSixelY bits color)
      count bits color =
      state.drawn picture (count + 1) bits color := by
  by_cases none : count = 0
  · subst none
    rfl
  · have wide : max (max state.gridW (state.curX + 1)) (state.curX + (count + 1)) =
        max state.gridW (state.curX + (count + 1)) := by omega
    have tall : max (max state.grid.length ((state.curSixelY + 1) * 6)) ((state.curSixelY + 1) * 6) =
        max state.grid.length ((state.curSixelY + 1) * 6) := by omega
    simp only [drawn, none, if_false, Nat.one_ne_zero, Nat.add_eq_zero_iff, and_false, length_table,
      painted_painted, wide, tall, Nat.add_comm 1 count, Nat.add_assoc]

theorem putColumns_settles (count : Nat) (shows : state.Pictures picture) (bits : Nat) (color : UInt32) :
    Settles (count = 0 ∨ Room wordSize (state.curX + count) state.curSixelY)
      (putColumns count state bits color) fun next => next = state.drawn picture count bits color := by
  induction count generalizing state picture with
  | zero => exact ⟨.inl rfl, rfl⟩
  | succ count ih =>
    rw [putColumns]
    refine ((putColumn_settles shows bits color).bind
      (count = 0 ∨ Room wordSize (state.curX + 1 + count) state.curSixelY) fun next room same => ?_).congr ?_
    · subst same
      exact (ih (shows.drawn bits color (.inr room))).mono Iff.rfl fun _ _ same =>
        same.trans (drawn_drawn count bits color)
    · exact room_succ

end Columns

/-! The registers of the console. -/

def selected : List (List Nat) → Nat
  | [] => 0
  | [] :: _ => 0
  | (reg :: _) :: _ => reg

def percentWord (components : Nat × Nat × Nat) : UInt32 :=
  word (components.1 * 255 / 100) (components.2.1 * 255 / 100) (components.2.2 * 255 / 100)

def paletteEntry (history : List (List Nat)) (entry : Nat) : UInt32 :=
  lastColorOf (fun reg => reg == entry) percentWord (vt330.getD entry background) history

def ink (history : List (List Nat)) : UInt32 := paletteEntry history (min (selected history) 255)

def Known (drawing : Drawing) : Command → Prop
  | .data _ => selected drawing.history < maxRegisters
  | _ => True

instance (drawing : Drawing) : (command : Command) → Decidable (Known drawing command)
  | .raster _ | .color _ | .repeated _ _ | .carriageReturn | .nextBand | .skipped => isTrue trivial
  | .data _ => inferInstanceAs (Decidable (_ < _))

def AllKnown : List Command → Drawing → Prop
  | [], _ => True
  | command :: rest, drawing => Known drawing command ∧ AllKnown rest (drawing.step command)

instance decidableAllKnown :
    (commands : List Command) → (drawing : Drawing) → Decidable (AllKnown commands drawing)
  | [], _ => isTrue trivial
  | command :: rest, drawing =>
    have := decidableAllKnown rest (drawing.step command)
    inferInstanceAs (Decidable (Known drawing command ∧ _))

structure Draws (state : SixelState) (drawing : Drawing) : Prop where
  x : state.curX = drawing.x
  band : state.curSixelY = drawing.band
  current : state.currentColor = selected drawing.history
  registers : state.palette.length = maxRegisters
  colors : ∀ entry < maxRegisters, state.palette[entry]? = some (paletteEntry drawing.history entry)
  width : state.gridW = drawing.width
  height : state.grid.length = drawing.height
  shows : state.Pictures (drawing.picture ink background)

theorem new_draws : new.Draws Drawing.blank where
  x := rfl
  band := rfl
  current := rfl
  registers := by rw [new, length_append, length_replicate]; rfl
  colors entry small := by
    change (vt330 ++ List.replicate 240 background)[entry]? = some (vt330.getD entry background)
    rw [getD_eq_getElem?_getD]
    by_cases early : entry < vt330.length
    · rw [List.getElem?_append_left early, List.getElem?_eq_getElem early]
      rfl
    · have late : entry - vt330.length < 240 := by
        simp only [vt330, maxRegisters, length_cons, length_nil] at *
        omega
      rw [List.getElem?_append_right (Nat.not_lt.mp early), List.getElem?_replicate, if_pos late,
        List.getElem?_eq_none (Nat.not_lt.mp early)]
      rfl
  width := rfl
  height := rfl
  shows := ⟨rfl, fun _ _ _ => rfl, fun _ _ _ => rfl, by decide, by decide⟩

theorem shade_settles (r g b : Nat) :
    Settles (r * 255 ≤ u32Max ∧ g * 255 ≤ u32Max ∧ b * 255 ≤ u32Max) (shade r g b) fun color =>
      color = percentWord (r, g, b) :=
  (mul_settles u32Max r 255).bind_eq ((mul_settles u32Max g 255).bind_eq
    ((mul_settles u32Max b 255).map fun blue _ same => by rw [same]; rfl))

namespace Draws

variable {state : SixelState} {drawing : Drawing}

variable (draws : state.Draws drawing)
include draws

theorem select {params : List Nat} (silent : ∀ which, definedBy which params = none) {current : Nat}
    (chosen : selected (params :: drawing.history) = current) :
    Draws { state with currentColor := current } (drawing.step (.color params)) :=
  { draws with
    current := chosen.symm
    colors := fun entry small => (draws.colors entry small).trans
      (congrArg Option.some (lastColorOf_of_none silent).symm) }

theorem define {reg co r g b : Nat} {rest : List Nat} (known : reg < maxRegisters) :
    Draws { state with palette := state.palette.set reg (percentWord (r, g, b)), currentColor := reg }
      (drawing.step (.color (reg :: co :: r :: g :: b :: rest))) := by
  refine { draws with
    current := rfl, registers := by rw [length_set, draws.registers], colors := fun entry small => ?_ }
  rw [Drawing.step, paletteEntry, lastColorOf_define known, List.getElem?_set, draws.registers,
    draws.colors entry small, if_pos known]
  simp only [beq_iff_eq]
  split <;> rfl

theorem defineColor (params : List Nat) :
    Settles (ColorFits params) (state.defineColor params) fun next =>
      next.Draws (drawing.step (.color params)) := by
  rcases params with _ | ⟨reg, _ | ⟨co, _ | ⟨r, _ | ⟨g, _ | ⟨b, rest⟩⟩⟩⟩⟩
  iterate 5 exact .ok (draws.select (fun _ => rfl) rfl)
  refine (shade_settles r g b).returning fun color _ same => ?_
  subst same
  by_cases known : reg < maxRegisters
  · rw [if_pos (by rwa [draws.registers]), store, if_pos (by rwa [draws.registers])]
    exact ⟨_, rfl, draws.define known⟩
  · rw [if_neg (by rwa [draws.registers])]
    exact ⟨_, rfl, draws.select (definedBy_of_unknown known) rfl⟩

theorem setRaster (params : List Nat) : state.Draws (drawing.step (.raster params)) := by
  change state.Draws (drawing.setRaster params)
  unfold Drawing.setRaster
  split
  · exact { draws with }
  · exact draws

theorem stroke {count : Nat} (bits : Nat) (room : count = 0 ∨ Room wordSize (drawing.x + count) drawing.band) :
    (state.drawn (drawing.picture ink background) count bits (ink drawing.history)).Draws
      (drawing.stroke count bits) := by
  rw [← draws.x, ← draws.band] at room
  have shown := draws.shows.drawn bits (ink drawing.history) room
  unfold drawn at shown ⊢
  by_cases none : count = 0
  · subst none
    exact draws
  · rw [if_neg none] at shown ⊢
    have width := Drawing.width_stroke drawing bits none
    have height := Drawing.height_stroke drawing bits none
    rw [draws.x, draws.band, ← Drawing.picture_stroke _ _ _ _ none, draws.width, draws.height, ← width, ← height]
      at shown ⊢
    exact { draws with x := rfl, band := rfl, width := rfl, height := length_table, shows := shown }

theorem exec (command : Command) :
    Settles (command.Fits wordSize drawing ∧ Known drawing command) (state.exec command) fun next =>
      next.Draws (drawing.step command) := by
  cases command with
  | raster params => exact ⟨⟨trivial, trivial⟩, draws.setRaster params⟩
  | color params => exact (draws.defineColor params).congr (and_iff_left trivial).symm
  | repeated count bits =>
    have color : state.palette[min state.currentColor 255]? = some (ink drawing.history) := by
      rw [draws.current]
      exact draws.colors _ (Nat.lt_succ_of_le (Nat.min_le_right _ _))
    rw [SixelState.exec, index_getElem? color, bind_ok]
    refine (putColumns_settles count draws.shows bits _).mono ?_ ?_
    · rw [draws.x, draws.band]
      exact (and_iff_left trivial).symm
    · rintro _ room rfl
      rw [draws.x, draws.band] at room
      exact draws.stroke bits room
  | carriageReturn => exact ⟨⟨trivial, trivial⟩, { draws with x := rfl }⟩
  | nextBand =>
    refine ((add_settles usizeMax state.curSixelY 1).map fun band _ same => ?_).congr ?_
    · exact { draws with x := rfl, band := same.trans (by rw [draws.band]; rfl) }
    · rw [draws.band]
      exact (and_iff_left trivial).symm
  | data bits =>
    refine ((index_settles state.palette state.currentColor).bind
      (Room wordSize (state.curX + 1) state.curSixelY) fun color known found => ?_).congr ?_
    · rw [draws.registers, draws.current] at known
      have chosen : color = ink drawing.history := by
        rw [draws.current, draws.colors _ known] at found
        rw [ink, Nat.min_eq_left (Nat.le_of_lt_succ known)]
        exact (Option.some.inj found).symm
      subst chosen
      refine (putColumn_settles draws.shows bits _).mono Iff.rfl ?_
      rintro _ room rfl
      rw [draws.x, draws.band] at room
      exact draws.stroke bits (.inr room)
    · rw [draws.registers, draws.current, draws.x, draws.band]
      exact and_comm
  | skipped => exact ⟨⟨trivial, trivial⟩, draws⟩

theorem run (commands : List Command) :
    Settles (AllFit wordSize commands drawing ∧ AllKnown commands drawing) (commands.foldlM SixelState.exec state)
      fun next => next.Draws (commands.foldl Drawing.step drawing) := by
  induction commands generalizing state drawing with
  | nil => exact ⟨⟨trivial, trivial⟩, draws⟩
  | cons command rest ih =>
    rw [foldlM_cons]
    exact ((draws.exec command).bind _ fun next _ drawn => ih drawn).congr and_and_and_comm

end Draws

theorem flatRow_self {width height : Nat} {picture : Nat → Nat → UInt32} {row : List UInt32}
    (member : row ∈ table width height picture) : flatRow width row = .ok row := by
  obtain ⟨y, _, rfl⟩ := mem_map.mp member
  refine mapM_ok fun x inside => ?_
  rw [mem_range] at inside
  rw [if_pos (by simpa using inside)]
  exact index_getElem? (by simp [inside])

def image (drawing : Drawing) : Option (Nat × Nat × List UInt32) :=
  if drawing.width = 0 ∨ drawing.height = 0 then none
  else some (drawing.width, drawing.height,
    (table drawing.width drawing.height (drawing.picture ink background)).flatten)

end SixelState

open SixelState in
theorem decodeSixel_settles {data : List UInt8} (plain : 0x22 ∉ data) :
    let drawing := Drawing.draw (commands data)
    Settles ((AllFit wordSize (commands data) Drawing.blank ∧ AllKnown (commands data) Drawing.blank) ∧
        ImageFits wordSize drawing.width drawing.height)
      (decodeSixel data) fun result => result = SixelState.image drawing := by
  intro drawing
  unfold decodeSixel
  rw [SixelState.decodeLoop_eq _ _ plain]
  refine (new_draws.run (commands data)).bind _ fun state _ draws => ?_
  have width : state.gridW = drawing.width := draws.width
  have height : state.grid.length = drawing.height := draws.height
  simp only [width, height]
  by_cases empty : drawing.width = 0 ∨ drawing.height = 0
  · rw [if_pos empty]
    exact ⟨imageFits_of_empty empty, (if_pos empty).symm⟩
  · rw [if_neg empty]
    refine ((mul_settles usizeMax _ _).bind_eq ((withCapacity_settles wordSize _).returning
      fun _ _ _ => ?_)).congr (imageFits_iff (by decide) empty)
    have rows : state.grid = table drawing.width drawing.height (drawing.picture SixelState.ink background) := by
      rw [← width, ← height]
      exact draws.shows.rows
    have flat : state.grid.mapM (flatRow drawing.width) = .ok (state.grid.map id) := by
      rw [rows]
      exact mapM_ok fun row member => flatRow_self member
    rw [flat, map_id, rows]
    exact ⟨_, rfl, (if_neg empty).symm⟩

/-! Comparing the two decoders. -/

theorem Room.of_word {columns band : Nat} (room : Room wordSize columns band) :
    Room pixelSize columns band :=
  ⟨Nat.le_trans (Nat.mul_le_mul_left _ (by decide)) room.1, room.2⟩

theorem Command.Fits.of_word {command : Command} {drawing : Drawing}
    (fits : command.Fits wordSize drawing) : command.Fits pixelSize drawing := by
  cases command with
  | raster params => exact fits
  | color params => exact fits
  | repeated count bits => exact fits.imp_right Room.of_word
  | carriageReturn => exact fits
  | nextBand => exact fits
  | data bits => exact Room.of_word fits
  | skipped => exact fits

theorem AllFit.of_word {commands : List Command} {drawing : Drawing}
    (fits : AllFit wordSize commands drawing) : AllFit pixelSize commands drawing := by
  induction commands generalizing drawing with
  | nil => exact fits
  | cons command rest ih => exact ⟨fits.1.of_word, ih fits.2⟩

theorem ImageFits.of_word {width height : Nat} (fits : ImageFits wordSize width height) :
    ImageFits pixelSize width height :=
  fits.imp_right (Or.imp_right fun fits => Nat.le_trans (Nat.mul_le_mul_left _ (by decide)) fits)

/-- What it means that the two decoders agree: both return, and either there is no image, or
there are two of the same size with the same color wherever something is drawn. -/
def DecodersAgree (data : List UInt8) : Prop :=
  ∃ first second, decode data = .ok first ∧ decodeSixel data = .ok second ∧
    (first = none ∧ second = none ∨
      ∃ image width height pixels, first = some image ∧ second = some (width, height, pixels) ∧
        image.width = width ∧ image.height = height ∧
        ∀ x y stroke, (Drawing.draw (commands data)).top x y = some stroke →
          image.pixels[y * width + x]?.map Pixel.word = pixels[y * width + x]?)

theorem Drawing.picture_of_top {α : Type} {drawing : Drawing} {x y : Nat} {stroke : Stroke}
    (found : drawing.top x y = some stroke) (ink : List (List Nat) → α) (background : α) :
    drawing.picture ink background x y = ink stroke.history := by
  rw [picture, found]
  rfl

theorem Drawing.pixels_of_top {drawing : Drawing} {x y : Nat} {stroke : Stroke}
    (found : drawing.top x y = some stroke) :
    (table drawing.width drawing.height (drawing.picture ink Pixel.black)).flatten[y * drawing.width + x]? =
        some (ink stroke.history) ∧
      (table drawing.width drawing.height (drawing.picture SixelState.ink SixelState.background)).flatten[
        y * drawing.width + x]? = some (SixelState.ink stroke.history) := by
  obtain ⟨right, low⟩ := top_inside found
  rw [getElem?_flatten_table right low, getElem?_flatten_table right low, picture_of_top found,
    picture_of_top found]
  exact ⟨rfl, rfl⟩

/-- Without raster attributes the decoders agree exactly when the drawing fits, no data
character is drawn with a register beyond the last, and for every stroke that is seen the
palette of sixteen and the one of 256 hold the same color. -/
theorem decoders_agree_iff {data : List UInt8} (plain : 0x22 ∉ data) : DecodersAgree data ↔
      AllFit wordSize (commands data) Drawing.blank ∧
        ImageFits wordSize (Drawing.draw (commands data)).width (Drawing.draw (commands data)).height ∧
        SixelState.AllKnown (commands data) Drawing.blank ∧
        ∀ x y stroke, (Drawing.draw (commands data)).top x y = some stroke →
          (ink stroke.history).word = SixelState.ink stroke.history := by
  set drawing := Drawing.draw (commands data)
  have raster : drawing.raster = none := draw_raster (commands_plain plain data.length)
  have component := decode_settles data
  have console := decodeSixel_settles plain
  constructor
  · rintro ⟨first, second, ran, ranConsole, same⟩
    obtain ⟨⟨⟨fits, known⟩, allocated⟩, rfl⟩ := console.of_ok ranConsole
    obtain ⟨_, rfl⟩ := component.of_ok ran
    refine ⟨fits, allocated, known, fun x y stroke found => ?_⟩
    obtain ⟨right, low⟩ := Drawing.top_inside found
    have filled : ¬(drawing.width = 0 ∨ drawing.height = 0) := by omega
    obtain ⟨pixel, word⟩ := Drawing.pixels_of_top found
    rw [Drawing.image_eq raster, if_neg filled, image, if_neg filled] at same
    rcases same with ⟨missing, _⟩ | ⟨image, width, height, pixels, first, second, _, _, colors⟩
    · cases missing
    · cases first
      cases second
      have here := colors x y stroke found
      rw [pixel, word] at here
      exact Option.some.inj here
  · rintro ⟨fits, allocated, known, same⟩
    have size : drawing.size = (drawing.width, drawing.height) := by
      rw [Drawing.size, raster]
      rfl
    obtain ⟨first, ran, rfl⟩ := component.exists_ok ⟨fits.of_word, by rw [size]; exact allocated.of_word⟩
    obtain ⟨second, ranConsole, rfl⟩ := console.exists_ok ⟨⟨fits, known⟩, allocated⟩
    refine ⟨_, _, ran, ranConsole, ?_⟩
    rw [Drawing.image_eq raster, image]
    by_cases empty : drawing.width = 0 ∨ drawing.height = 0
    · rw [if_pos empty, if_pos empty]
      exact .inl ⟨rfl, rfl⟩
    · rw [if_neg empty, if_neg empty]
      refine .inr ⟨_, _, _, _, rfl, rfl, rfl, rfl, fun x y stroke found => ?_⟩
      obtain ⟨pixel, word⟩ := Drawing.pixels_of_top found
      rw [pixel, word, Option.map_some, same x y stroke found]

/-- A register of the first sixteen, a column and another one twice: `#3;2;20;80;100~!2@`. -/
theorem decoders_agree_text :
    DecodersAgree [0x23, 0x33, 0x3B, 0x32, 0x3B, 0x32, 0x30, 0x3B, 0x38, 0x30, 0x3B, 0x31, 0x30, 0x30, 0x7E,
      0x21, 0x32, 0x40] := by
  refine (decoders_agree_iff (by decide)).mpr ⟨by decide +kernel, by decide +kernel, by decide +kernel, ?_⟩
  intro x y stroke found
  have strokes : ∀ stroke ∈ (Drawing.draw (commands [0x23, 0x33, 0x3B, 0x32, 0x3B, 0x32, 0x30, 0x3B, 0x38, 0x30,
      0x3B, 0x31, 0x30, 0x30, 0x7E, 0x21, 0x32, 0x40])).strokes,
      (ink stroke.history).word = SixelState.ink stroke.history := by decide +kernel
  exact strokes stroke (mem_of_find?_eq_some found)

/-- Register 300 stops the console's decoder and not the component's: `#300~`. -/
theorem decoders_differ : decode [0x23, 0x33, 0x30, 0x30, 0x7E] =
        .ok (some ⟨1, 6, List.replicate 6 defaultPalette[12]⟩) ∧
      decodeSixel [0x23, 0x33, 0x30, 0x30, 0x7E] = .error .indexOutOfBounds := by
  decide +kernel

end Kei.Framebuffer
