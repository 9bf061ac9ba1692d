import Kei.Framebuffer.SixelDrawing
import Mathlib.Algebra.Group.Action.Defs

/-! The pixel grid of the Sixel decoder stays a rectangle, so the decoder never reads or
writes outside it. What can stop the decoder is a color component or an image that is too
large to compute with. -/

namespace Kei.Framebuffer

open Library Checked List

def Canvas.Rectangular (canvas : Canvas) : Prop :=
  canvas.gridPixels.length = canvas.gridHeight ∧ ∀ row ∈ canvas.gridPixels, row.length = canvas.gridWidth

def TooLarge (panic : Panic) : Prop :=
  panic = .addOverflow ∨ panic = .mulOverflow ∨ panic = .capacityOverflow

theorem add_meets (largest left right : Nat) :
    Meets TooLarge (add largest left right) fun total => total = left + right := by
  unfold add
  split
  · rfl
  · exact .inl rfl

theorem mul_meets (largest left right : Nat) :
    Meets TooLarge (mul largest left right) fun product => product = left * right := by
  unfold mul
  split
  · rfl
  · exact .inr (.inl rfl)

theorem withCapacity_meets (size count : Nat) : Meets TooLarge (withCapacity size count) fun _ => True := by
  unfold withCapacity
  split
  · trivial
  · exact .inr (.inr rfl)

theorem growGrid_meets {α : Type} (size : Nat) (blank : α) (grid : List (List α)) (width height needW needH : Nat) :
    Meets TooLarge (growGrid size blank grid width height needW needH) fun _ => True := by
  have wide : Meets TooLarge (growWidth size blank grid width needW) fun _ => True := by
    refine meets_ite (fun _ => ?_) fun _ => trivial
    have resized : ∀ row ∈ grid, Meets TooLarge (resize size needW blank row) fun _ => True :=
      fun row _ => (withCapacity_meets size needW).bind fun _ _ => trivial
    exact (meets_mapM resized).bind fun _ _ => trivial
  refine wide.bind fun ⟨grown, width⟩ _ => ?_
  have tall : Meets TooLarge (growHeight size blank grown width height needH) fun _ => True := by
    refine meets_ite (fun _ => ?_) fun _ => trivial
    exact (withCapacity_meets size width).bind fun _ _ => (withCapacity_meets vecSize needH).bind fun _ _ => trivial
  exact tall.bind fun _ _ => trivial

theorem index_meets {α : Type} {tolerated : Panic → Prop} {values : List α} {position : Nat}
    (bound : position < values.length) : Meets tolerated (index values position) fun value => value ∈ values := by
  rw [index_getElem? (List.getElem?_eq_getElem bound)]
  exact getElem_mem bound

variable {canvas : Canvas}

section

variable {picture : Nat → Nat → Pixel}

theorem putColumn_meets (shows : canvas.Pictures picture) (bits : Nat) :
    Meets TooLarge (putColumn canvas bits) fun _ => True := by
  refine (add_meets usizeMax canvas.curX 1).bind ?_
  rintro _ rfl
  refine (add_meets usizeMax canvas.curSixelY 1).bind ?_
  rintro _ rfl
  refine (mul_meets usizeMax (canvas.curSixelY + 1) 6).bind ?_
  rintro _ rfl
  have grows := (ensureGridSize_settles shows (canvas.curX + 1) canvas.curSixelY).meets
    ((growGrid_meets _ _ _ _ _ _ _).bind fun _ _ => trivial)
  refine grows.bind ?_
  rintro _ ⟨_, rfl⟩
  dsimp only
  rw [writeSixelColumn_table _ (by omega) (Nat.le_max_right _ _)]
  trivial

theorem putColumns_meets (count : Nat) (shows : canvas.Pictures picture) (bits : Nat) :
    Meets TooLarge (putColumns count canvas bits) fun _ => True := by
  induction count generalizing canvas picture with
  | zero => trivial
  | succ count ih =>
    refine ((putColumn_settles shows bits).meets (putColumn_meets shows bits)).bind ?_
    rintro _ ⟨_, grid, rfl, shown⟩
    exact ih shown

end

theorem percentChannel_meets (value : Nat) : Meets TooLarge (percentChannel value) fun _ => True :=
  (mul_meets _ _ _).bind fun _ _ => trivial

theorem defineColor_meets (canvas : Canvas) (params : List Nat) :
    Meets TooLarge (defineColor canvas params) fun _ => True := by
  unfold defineColor
  split
  · trivial
  · refine (percentChannel_meets _).bind fun r _ => (percentChannel_meets _).bind fun g _ => ?_
    refine (percentChannel_meets _).bind fun b _ => ?_
    split
    · trivial
    · trivial
  · trivial

namespace Canvas.Draws

variable {drawing : Drawing} (draws : canvas.Draws drawing)
include draws

theorem exec_meets (command : Command) :
    Meets TooLarge (canvas.exec command) fun next => next.Draws (drawing.step command) := by
  have confined : Meets TooLarge (canvas.exec command) fun _ => True := by
    cases command with
    | raster params => trivial
    | color params => exact defineColor_meets canvas params
    | repeated count bits => exact putColumns_meets count draws.shows bits
    | carriageReturn => trivial
    | nextBand => exact (add_meets _ _ _).bind fun _ _ => trivial
    | data bits => exact putColumn_meets draws.shows bits
    | skipped => trivial
  exact ((draws.exec command).meets confined).mono fun _ both => both.2

theorem rectangular : canvas.Rectangular := by
  rw [Rectangular, draws.shows.rows, length_table]
  refine ⟨rfl, fun row member => ?_⟩
  obtain ⟨y, _, rfl⟩ := mem_map.mp member
  simp

end Canvas.Draws

theorem decodeLoop_meets (turns : Nat) (data : List UInt8) :
    Meets TooLarge (decodeLoop turns Canvas.new data) fun canvas => ∃ drawing, canvas.Draws drawing := by
  rw [decodeLoop_eq]
  refine meets_foldlM (fun canvas : Canvas => ∃ drawing, canvas.Draws drawing) ?_ ⟨_, Canvas.new_draws⟩
  rintro canvas command - ⟨drawing, draws⟩
  exact (draws.exec_meets command).mono fun _ drawn => ⟨_, drawn⟩

theorem length_flatten_eq {α : Type} {width : Nat} {rows : List (List α)}
    (lengths : ∀ row ∈ rows, row.length = width) : rows.flatten.length = rows.length * width := by
  rw [length_flatten, sum_eq_card_nsmul _ width (by simpa using lengths), length_map, smul_eq_mul]

/-- What a decoded image is: a full rectangle of pixels that fits in memory. -/
structure SixelImage.WellFormed (image : SixelImage) : Prop where
  width : image.width ≠ 0
  height : image.height ≠ 0
  full : image.pixels.length = image.width * image.height
  allocated : image.width * image.height * 3 ≤ isizeMax

theorem decode_meets (data : List UInt8) :
    Meets TooLarge (decode data) fun result => ∀ image, result = some image → image.WellFormed := by
  have confined : Meets TooLarge (decode data) fun _ => True := by
    refine (decodeLoop_meets data.length data).bind ?_
    rintro canvas ⟨drawing, draws⟩
    dsimp only
    split
    · trivial
    refine (mul_meets _ _ _).bind fun count _ => (withCapacity_meets _ _).bind fun _ _ => ?_
    rw [flatten_draws draws]
    trivial
  refine ((decode_settles data).meets confined).mono ?_
  rintro result ⟨⟨_, fits⟩, rfl⟩ image found
  rw [Drawing.image] at found
  split at found
  · cases found
  · rename_i filled
    cases found
    rw [← imageFits_iff (by decide) filled] at fits
    rw [not_or] at filled
    exact ⟨filled.1, filled.2, length_flatten_table, fits.2⟩

end Kei.Framebuffer
