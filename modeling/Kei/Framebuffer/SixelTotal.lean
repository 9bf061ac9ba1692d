import Kei.Framebuffer.SixelGrid

/-! Which payloads the Sixel decoder gets through, and how large the image of one can be. -/

namespace Kei.Framebuffer

open Library Checked Nat

theorem pushDigit_le (current : Nat) (byte : UInt8) : pushDigit current byte ≤ u32Max :=
  min_le_right _ _

theorem parseParamsLoop_le (data : List UInt8) {params : List Nat} {current : Nat} {hasDigit : Bool}
    {consumed : Nat} (small : current ≤ u32Max) (known : ∀ value ∈ params, value ≤ u32Max) :
    ∀ value ∈ (parseParamsLoop data params current hasDigit consumed).1, value ≤ u32Max := by
  have pushed {params : List Nat} {last : Nat} (known : ∀ value ∈ params, value ≤ u32Max)
      (below : last ≤ u32Max) : ∀ value ∈ params ++ [last], value ≤ u32Max :=
    List.forall_mem_append.mpr ⟨known, List.forall_mem_singleton.mpr below⟩
  induction data generalizing params current hasDigit consumed with
  | nil =>
    simp only [parseParamsLoop]
    split
    · exact pushed known small
    · exact known
  | cons byte rest ih =>
    simp only [parseParamsLoop]
    split
    · exact ih (pushDigit_le current byte) known
    split
    · refine ih (zero_le _) (pushed known ?_)
      split
      · exact small
      · exact zero_le _
    split
    · exact pushed known small
    · exact known

theorem parseParams_headD_le (data : List UInt8) : (parseParams data).1.headD 1 ≤ u32Max := by
  have bounded : ∀ value ∈ (parseParams data).1, value ≤ u32Max :=
    parseParamsLoop_le data (zero_le _) (by simp)
  cases found : (parseParams data).1 with
  | nil => decide
  | cons first rest => exact bounded first (found ▸ List.mem_cons_self)

def Command.count : Command → Nat
  | .repeated count _ => count
  | _ => 1

theorem readCommand_count_le (c : UInt8) (rest : List UInt8) : (readCommand c rest).1.count ≤ u32Max := by
  have one : 1 ≤ u32Max := by decide
  unfold readCommand
  split_ifs <;> try exact one
  split
  · exact one
  · dsimp only
    split
    · exact parseParams_headD_le rest
    · exact one

theorem readCommands_within (turns : Nat) (data : List UInt8) :
    (readCommands turns data).length ≤ turns ∧
      ∀ command ∈ readCommands turns data, command.count ≤ u32Max := by
  induction turns generalizing data with
  | zero => exact ⟨le_refl 0, by simp [readCommands]⟩
  | succ turns ih =>
    cases data with
    | nil => exact ⟨zero_le _, by simp [readCommands]⟩
    | cons c rest =>
      obtain ⟨fewer, small⟩ := ih (readCommand c rest).2
      exact ⟨succ_le_succ fewer, List.forall_mem_cons.mpr ⟨readCommand_count_le c rest, small⟩⟩

structure Drawing.Within (turns : Nat) (drawing : Drawing) : Prop where
  x : drawing.x ≤ turns * u32Max
  band : drawing.band ≤ turns
  width : drawing.width ≤ turns * u32Max
  height : drawing.height ≤ turns * 6

namespace Drawing.Within

variable {turns more : Nat} {drawing : Drawing}

variable (within : drawing.Within turns)
include within

theorem mono (later : turns ≤ more) : drawing.Within more where
  x := le_trans within.x (mul_le_mul_right _ later)
  band := le_trans within.band later
  width := le_trans within.width (mul_le_mul_right _ later)
  height := le_trans within.height (mul_le_mul_right _ later)

theorem stroke {count : Nat} (small : count ≤ u32Max) (bits : Nat) :
    (drawing.stroke count bits).Within (turns + 1) := by
  by_cases drawn : count = 0
  · subst drawn
    exact within.mono (le_succ turns)
  · have farther : drawing.x + count ≤ (turns + 1) * u32Max := by
      rw [add_mul, one_mul]
      exact Nat.add_le_add within.x small
    have later := within.mono (le_succ turns)
    refine ⟨farther, later.band, ?_, ?_⟩
    · rw [width_stroke _ _ drawn]
      exact Nat.max_le.mpr ⟨later.width, farther⟩
    · rw [height_stroke _ _ drawn]
      exact Nat.max_le.mpr ⟨later.height, Nat.mul_le_mul_right 6 (Nat.succ_le_succ within.band)⟩

theorem step {command : Command} (small : command.count ≤ u32Max) : (drawing.step command).Within (turns + 1) := by
  have later := within.mono (le_succ turns)
  cases command with
  | raster params =>
    change (drawing.setRaster params).Within (turns + 1)
    unfold Drawing.setRaster
    split
    · exact { later with }
    · exact later
  | color params => exact { later with }
  | repeated count bits => exact within.stroke small bits
  | carriageReturn => exact { later with x := zero_le _ }
  | nextBand => exact ⟨zero_le _, succ_le_succ within.band, later.width, later.height⟩
  | data bits => exact within.stroke (by decide) bits
  | skipped => exact later

theorem run {commands : List Command} (small : ∀ command ∈ commands, command.count ≤ u32Max) :
    (commands.foldl Drawing.step drawing).Within (turns + commands.length) := by
  induction commands generalizing drawing turns with
  | nil => exact within
  | cons command rest ih =>
    rw [List.forall_mem_cons] at small
    rw [List.foldl_cons, List.length_cons, add_comm rest.length, ← add_assoc]
    exact ih (within.step small.1) small.2

end Drawing.Within

theorem draw_within (data : List UInt8) : (Drawing.draw (commands data)).Within data.length := by
  obtain ⟨fewer, small⟩ := readCommands_within data.length data
  have blank : Drawing.blank.Within 0 := ⟨le_refl _, le_refl _, le_refl _, le_refl _⟩
  have drawn := blank.run small
  rw [zero_add] at drawn
  exact drawn.mono fewer

/-- Whether the decoder gets through the payload: its color components can be scaled, what it
draws and the image fit in memory. -/
def PayloadFits (data : List UInt8) : Prop :=
  AllFit pixelSize (commands data) Drawing.blank ∧
    ImageFits pixelSize (Drawing.draw (commands data)).size.1 (Drawing.draw (commands data)).size.2

/-- The decoder returns, with a grid that is a rectangle after every turn and an image that
is bounded by the data and the raster attributes, exactly when the payload fits. -/
theorem decode_total_iff (data : List UInt8) : (∃ result, decode data = .ok result ∧
      (∀ turns canvas, decodeLoop turns Canvas.new data = .ok canvas → canvas.Rectangular) ∧
      ∀ image, result = some image → image.pixels.length = image.width * image.height ∧
        image.width ≤
          ((Drawing.draw (commands data)).raster.map Prod.fst).getD (data.length * u32Max) ∧
        image.height ≤ ((Drawing.draw (commands data)).raster.map Prod.snd).getD (data.length * 6)) ↔
      PayloadFits data := by
  have settles := decode_settles data
  constructor
  · rintro ⟨result, ran, _⟩
    exact (settles.of_ok ran).1
  · intro fits
    obtain ⟨result, ran, same⟩ := settles.exists_ok fits
    refine ⟨result, ran, ?_, ?_⟩
    · intro turns canvas looped
      obtain ⟨drawing, draws⟩ := (decodeLoop_meets turns data).of_ok looped
      exact draws.rectangular
    · intro image found
      have within := draw_within data
      rw [same, Drawing.image] at found
      split at found
      · cases found
      · cases found
        refine ⟨length_flatten_table, ?_⟩
        rw [Drawing.size]
        cases (Drawing.draw (commands data)).raster with
        | none => exact ⟨within.width, within.height⟩
        | some raster => exact ⟨le_refl _, le_refl _⟩

/-- A color component of which 255 times is no `u32` any more: `#0;2;16843010;0;0`. -/
theorem decode_overflows :
    decode [0x23, 0x30, 0x3B, 0x32, 0x3B, 0x31, 0x36, 0x38, 0x34, 0x33, 0x30, 0x31, 0x30, 0x3B, 0x30,
      0x3B, 0x30] = .error .mulOverflow := by
  decide +kernel

end Kei.Framebuffer
