import Kei.Framebuffer.ConsoleState
import Kei.Framebuffer.EscapeRules

/-! While the console is active and in text mode, the framebuffer holds what the console's
buffer holds; otherwise the console leaves the framebuffer alone. -/

namespace Kei.Framebuffer

open Library Checked

theorem Bytes.copyFromSlice_all {size : Nat} (bytes source : Bytes size) :
    bytes.copyFromSlice 0 source.1 = .ok source := by
  have length := source.2
  have bound : 0 + source.1.length ≤ size := by omega
  rw [Bytes.copyFromSlice, dif_pos bound]
  refine congrArg Except.ok (Subtype.ext ?_)
  simp only [List.take_zero, List.nil_append, Nat.zero_add]
  rw [List.drop_eq_nil_of_le (by rw [bytes.2, length]), List.append_nil]

namespace ConsoleState

variable {fb : FrameBuffer}

def Mirrored (state : ConsoleState fb) : Prop :=
  state.isOutputEnabled = true → state.device.memory = state.bytes

structure Follows (state next : ConsoleState fb) : Prop where
  active : next.isActive = state.isActive
  mode : next.mode = state.mode
  silent : state.isOutputEnabled = false → next.device = state.device
  mirrored : state.Mirrored → next.Mirrored

variable {state next : ConsoleState fb}

theorem Follows.enabled (follows : Follows state next) :
    next.isOutputEnabled = state.isOutputEnabled := by
  rw [isOutputEnabled, isOutputEnabled, follows.active, follows.mode]

theorem Follows.trans {first second third : ConsoleState fb} (one : Follows first second)
    (two : Follows second third) : Follows first third where
  active := two.active.trans one.active
  mode := two.mode.trans one.mode
  silent disabled := (two.silent (one.enabled.trans disabled)).trans (one.silent disabled)
  mirrored holds := two.mirrored (one.mirrored holds)

theorem follows_of_screen (active : next.isActive = state.isActive)
    (mode : next.mode = state.mode) (bytes : next.bytes = state.bytes)
    (device : next.device = state.device) : Follows state next where
  active := active
  mode := mode
  silent _ := device
  mirrored holds enabled := by
    rw [device, bytes]
    refine holds ?_
    rwa [isOutputEnabled, ← active, ← mode]

theorem Follows.refl (state : ConsoleState fb) : Follows state state := follows_of_screen rfl rfl rfl rfl

variable {data : List UInt8} {offset : Nat}

theorem output_frame
    (ran : state.output offset data = .ok next) :
    (∃ device, next = { state with device := device }) ∧ (state.isOutputEnabled = false → next = state) := by
  unfold output at ran
  split at ran
  · rename_i enabled
    obtain ⟨device, _, same⟩ := bind_eq_ok.mp ran
    cases same
    refine ⟨⟨device, rfl⟩, ?_⟩
    intro disabled
    rw [enabled] at disabled
    cases disabled
  · cases ran
    exact ⟨⟨state.device, rfl⟩, fun _ => rfl⟩

theorem output_mirrored
    (ran : state.output offset data = .ok next)
    (copied : state.isOutputEnabled = true → state.device.memory.copyFromSlice offset data = .ok state.bytes) :
    next.Mirrored := by
  intro enabled
  unfold output at ran
  split at ran
  · rename_i before
    rw [FrameBuffer.writeBytesAt, copied before] at ran
    cases ran
    rfl
  · rename_i before
    cases ran
    exact absurd enabled before

theorem output_follows {bytes : Bytes fb.bufferSize} (ran : { state with bytes := bytes }.output offset data = .ok next)
    (copied : state.isOutputEnabled = true → state.Mirrored →
      state.device.memory.copyFromSlice offset data = .ok bytes) : Follows state next := by
  obtain ⟨⟨device, shape⟩, silent⟩ := output_frame ran
  refine ⟨?_, ?_, ?_, ?_⟩
  · rw [shape]
  · rw [shape]
  · intro disabled
    rw [silent disabled]
  · intro mirrored
    exact output_mirrored ran fun enabled => copied enabled mirrored

variable (state)

theorem flushFullscreen_ok : ∃ device,
    state.flushFullscreen = .ok { state with device := device } ∧
      (state.isOutputEnabled = false → device = state.device) ∧
      ConsoleState.Mirrored { state with device := device } := by
  unfold flushFullscreen output
  split
  · rename_i enabled
    rw [FrameBuffer.writeBytesAt, Bytes.copyFromSlice_all]
    refine ⟨_, rfl, ?_, fun _ => rfl⟩
    intro disabled
    rw [enabled] at disabled
    cases disabled
  · rename_i disabled
    exact ⟨state.device, rfl, fun _ => rfl, fun enabled => absurd enabled disabled⟩

theorem drawBytes_follows (offset : Nat) (data : List UInt8) :
    Ensures (state.drawBytes offset data) (Follows state) := by
  refine (ensures_true _).bind fun _ _ => ensures_iff.mpr fun next ran => ?_
  obtain ⟨bytes, copied, ran⟩ := bind_eq_ok.mp ran
  refine output_follows ran fun enabled mirrored => ?_
  rw [mirrored enabled, copied]

theorem drawRows_follows (fgPixel bgPixel : List UInt8) (rows : List (List UInt8)) :
    ∀ (offset : Nat) (state : ConsoleState fb),
      Ensures (drawRows fgPixel bgPixel rows offset state) (Follows state) := by
  induction rows with
  | nil => exact fun _ state => Follows.refl state
  | cons row rows ih =>
    intro offset state
    refine (ensures_true _).bind fun bits _ => (drawBytes_follows state offset _).bind fun drawn one => ?_
    refine (ensures_true _).bind fun below _ => (ih below drawn).mono fun next two => ?_
    exact one.trans two

theorem drawChar_follows (ch : UInt8) : Ensures (state.drawChar ch) (Follows state) := by
  unfold drawChar
  split
  · exact Follows.refl state
  · exact (ensures_true _).bind fun offset _ => drawRows_follows _ _ _ offset state

theorem shiftLinesUp_follows : Ensures state.shiftLinesUp (Follows state) := by
  refine (ensures_true _).bind fun offset _ => (ensures_true _).bind fun bytes _ => ?_
  refine ensures_iff.mpr fun next ran => ?_
  obtain ⟨shifted, written, ran⟩ := bind_eq_ok.mp ran
  obtain ⟨yPos, _, same⟩ := bind_eq_ok.mp ran
  cases same
  refine (output_follows written fun _ _ => Bytes.copyFromSlice_all _ _).trans ?_
  exact follows_of_screen rfl rfl rfl rfl

theorem newline_follows : Ensures state.newline (Follows state) := by
  refine (ensures_true _).bind fun yPos _ => (ensures_true _).bind fun lowest _ => ?_
  have moved : Follows state { state with yPos := yPos, xPos := 0 } := follows_of_screen rfl rfl rfl rfl
  split
  · exact (shiftLinesUp_follows _).mono fun next shifted => moved.trans shifted
  · exact moved

theorem backspace_follows : Ensures state.backspace (Follows state) := by
  unfold backspace
  split
  · exact Follows.refl state
  · refine (ensures_true _).bind fun xPos _ => (drawChar_follows _ _).mono fun next drawn => ?_
    have moved : Follows state { state with xPos := xPos } := follows_of_screen rfl rfl rfl rfl
    exact moved.trans drawn

theorem wrapLine_follows : Ensures state.wrapLine (Follows state) := by
  refine (ensures_true _).bind fun last _ => ?_
  split
  · exact newline_follows state
  · exact Follows.refl state

theorem sendChar_follows (ch : UInt8) : Ensures (state.sendChar ch) (Follows state) := by
  unfold sendChar
  split
  · exact newline_follows state
  split
  · exact follows_of_screen rfl rfl rfl rfl
  split
  · exact backspace_follows state
  refine (wrapLine_follows state).bind fun wrapped one => (drawChar_follows wrapped ch).bind fun drawn two => ?_
  refine (ensures_true _).bind fun xPos _ => ?_
  exact (one.trans two).trans (follows_of_screen rfl rfl rfl rfl)

theorem setFont_follows (font : BitmapFont) : Ensures (state.setFont font) fun result => Follows state result.2 := by
  unfold setFont
  split
  · exact Follows.refl state
  have changed : Follows state { state with font := font } := follows_of_screen rfl rfl rfl rfl
  refine (ensures_true _).bind fun lowest _ => ?_
  split
  · exact (shiftLinesUp_follows _).bind fun next shifted => changed.trans shifted
  · exact changed

theorem fillRectPixels_follows (x0 y0 x1 y1 : Nat) (color : Pixel) :
    Ensures (state.fillRectPixels x0 y0 x1 y1 color) (Follows state) := by
  refine (ensures_true _).bind fun _ _ => (ensures_true _).bind fun _ _ => ?_
  refine (ensures_true _).bind fun count _ => meets_foldlM (Follows state) ?_ (Follows.refl state)
  intro drawn y _ follows
  refine (ensures_true _).bind fun offset _ => (drawBytes_follows drawn offset _).mono fun next one => ?_
  exact follows.trans one

theorem advanceTo_follows (newY : Nat) : Ensures (state.advanceTo newY) (Follows state) := by
  unfold advanceTo
  split
  · exact shiftLinesUp_follows state
  · exact follows_of_screen rfl rfl rfl rfl

theorem blitPixels_follows (pixels : List Pixel) (imgW imgH : Nat) :
    Ensures (state.blitPixels pixels imgW imgH) (Follows state) := by
  unfold blitPixels
  split
  · exact Follows.refl state
  have drawn : Ensures ((List.range (min imgH (fb.height - min state.yPos fb.height))).foldlM
      (fun (drawn : ConsoleState fb) row => do
        let offset ← fb.calcOffset (min state.xPos fb.width) (min state.yPos fb.height + row)
        drawn.drawBytes offset (← imageRow fb pixels imgW (min imgW (fb.width - min state.xPos fb.width)) row))
      state) (Follows state) := by
    refine meets_foldlM (Follows state) ?_ (Follows.refl state)
    intro drawn row _ follows
    refine (ensures_true _).bind fun offset _ => (ensures_true _).bind fun data _ => ?_
    exact (drawBytes_follows drawn offset data).mono fun next one => follows.trans one
  refine drawn.bind fun drawn one => ?_
  refine (ensures_true _).bind fun _ _ => (ensures_true _).bind fun _ _ => (ensures_true _).bind fun _ _ => ?_
  refine (ensures_true _).bind fun newY _ => (advanceTo_follows drawn newY).bind fun next two => ?_
  exact (one.trans two).trans (follows_of_screen rfl rfl rfl rfl)

theorem eraseInDisplay_follows (mode : EraseInDisplay) : Ensures (state.eraseInDisplay mode) (Follows state) := by
  refine (ensures_true _).bind fun ⟨cx0, cy0, cx1, cy1⟩ _ => ?_
  cases mode with
  | cursorToEnd =>
    refine (fillRectPixels_follows state ..).bind fun filled one => ?_
    split
    · exact (fillRectPixels_follows filled ..).mono fun next two => one.trans two
    · exact one
  | cursorToBeginning =>
    simp only
    split
    · refine (fillRectPixels_follows state ..).bind fun filled one => ?_
      exact (fillRectPixels_follows filled ..).mono fun next two => one.trans two
    · exact fillRectPixels_follows state ..
  | entireScreen => exact fillRectPixels_follows state ..
  | entireScreenAndScrollback => exact fillRectPixels_follows state ..

theorem keeps_follows (start : ConsoleState fb) : Display.Keeps (fun _ => True) (Follows start) where
  setCursor := by
    intro state follows x y
    refine (ensures_true _).bind fun _ _ => (ensures_true _).bind fun _ _ => (ensures_true _).bind fun _ _ => ?_
    refine (ensures_true _).bind fun _ _ => ?_
    exact follows.trans (follows_of_screen rfl rfl rfl rfl)
  setFgColor := fun follows color => follows.trans (follows_of_screen rfl rfl rfl rfl)
  setBgColor := fun follows color => follows.trans (follows_of_screen rfl rfl rfl rfl)
  eraseInDisplay := fun follows mode => (eraseInDisplay_follows _ mode).mono fun _ one => follows.trans one
  sendChar := fun follows ch => (sendChar_follows _ ch).mono fun _ one => follows.trans one

end ConsoleState

namespace FramebufferConsole

open ConsoleState

variable {fb : FrameBuffer}

theorem sendByte_follows (console : FramebufferConsole fb) (byte : UInt8) :
    Ensures (console.sendByte byte) fun next => Follows console.2 next.2 := by
  refine Console.sendByte_meets (keeps_follows console.2) (Follows.refl _) fun _ => ?_
  refine (ensures_true _).bind fun image _ => ?_
  cases image with
  | none => exact Follows.refl _
  | some image => exact blitPixels_follows console.2 image.pixels image.width image.height

theorem send_follows (console : FramebufferConsole fb) (bytes : List UInt8) :
    Ensures (console.send bytes) fun next => Follows console.2 next.2 := by
  refine meets_foldlM (fun next : FramebufferConsole fb => Follows console.2 next.2) ?_ (Follows.refl _)
  intro sent byte _ follows
  exact (sendByte_follows sent byte).mono fun next one => follows.trans one

def Updates (console next : FramebufferConsole fb) : Prop :=
  (console.2.Mirrored → next.2.Mirrored) ∧
    (next.2.isOutputEnabled = false → next.2.device = console.2.device)

theorem updates_of_follows {console next : FramebufferConsole fb} (follows : Follows console.2 next.2) :
    console.Updates next :=
  ⟨follows.mirrored, fun disabled => follows.silent (follows.enabled.symm.trans disabled)⟩

theorem activate_ok (console : FramebufferConsole fb) (inactive : console.2.isActive = false) :
    ∃ next, console.activate = .ok next ∧ console.Updates next ∧ next.2.isActive = true ∧
      next.2.mode = console.2.mode ∧ next.2.Mirrored := by
  obtain ⟨device, flushed, silent, mirrored⟩ := flushFullscreen_ok { console.2 with isActive := true }
  refine ⟨(console.1, { console.2 with isActive := true, device := device }), ?_, ⟨fun _ => mirrored, silent⟩,
    rfl, rfl, mirrored⟩
  simp only [activate, inactive, Bool.false_eq_true, if_false, flushed, bind_ok, pure_eq_ok]

theorem setMode_ok (console : FramebufferConsole fb) (mode : ConsoleMode)
    (graphics : console.2.mode = .graphics) :
    ∃ next, console.setMode mode = .ok next ∧ console.Updates next ∧ next.2.mode = mode ∧
      next.2.isActive = console.2.isActive ∧ next.2.Mirrored := by
  obtain ⟨device, flushed, silent, mirrored⟩ := flushFullscreen_ok { console.2 with mode := mode }
  refine ⟨(console.1, { console.2 with mode := mode, device := device }), ?_, ⟨fun _ => mirrored, silent⟩,
    rfl, rfl, mirrored⟩
  simp only [setMode, graphics, if_true, flushed, bind_ok, pure_eq_ok]

theorem perform_updates (console : FramebufferConsole fb) (request : Request) :
    Ensures (console.perform request) (Updates console) := by
  cases request with
  | send bytes => exact (send_follows console bytes).mono fun next follows => updates_of_follows follows
  | setFont font =>
    have changed : Ensures (console.setFont font) fun result => console.Updates result.2 :=
      (setFont_follows console.2 font).bind fun _ follows => updates_of_follows follows
    exact changed.bind fun _ updates => updates
  | setMode mode =>
    by_cases graphics : console.2.mode = .graphics
    · obtain ⟨next, ran, updates, _⟩ := setMode_ok console mode graphics
      rw [perform, ran]
      exact updates
    · have text : console.2.mode = .text := by
        cases mode : console.2.mode with
        | text => rfl
        | graphics => exact absurd mode graphics
      simp only [perform, setMode, graphics, if_false]
      refine ⟨fun mirrored enabled => mirrored ?_, fun _ => rfl⟩
      simp only [isOutputEnabled, Bool.and_eq_true] at enabled
      simp [isOutputEnabled, text, enabled.1]
  | activate =>
    by_cases active : console.2.isActive = true
    · simp only [perform, activate, active, if_true]
      refine ⟨fun mirrored enabled => mirrored ?_, fun _ => rfl⟩
      simpa only [isOutputEnabled, active] using enabled
    · obtain ⟨next, ran, updates, _⟩ := activate_ok console (by simpa using active)
      rw [perform, ran]
      exact updates
  | deactivate =>
    refine ⟨fun _ enabled => ?_, fun _ => rfl⟩
    simp [isOutputEnabled, deactivate] at enabled
  | flush =>
    obtain ⟨device, flushed, silent, mirrored⟩ := flushFullscreen_ok console.2
    simp only [perform, flush, flushed, bind_ok, pure_eq_ok]
    exact ⟨fun _ => mirrored, silent⟩

theorem run_mirrored (glyphs : BitmapFont.BasicFonts) (device : Device fb.bufferSize) (requests : List Request) :
    Ensures (run (new glyphs device) requests) fun console => console.2.Mirrored := by
  refine meets_foldlM (fun console : FramebufferConsole fb => console.2.Mirrored) ?_ ?_
  · intro console request _ mirrored
    exact (perform_updates console request).mono fun next updates => updates.1 mirrored
  · intro enabled
    cases enabled

/-- Whatever the framebuffer held before: in every run, it holds the console's buffer while
output is enabled, is not written while it is disabled, and is brought up to date when output
is enabled again. -/
theorem mirrors (glyphs : BitmapFont.BasicFonts) (device : Device fb.bufferSize) (requests : List Request)
    (console : FramebufferConsole fb) (ran : run (new glyphs device) requests = .ok console) :
    (console.2.isOutputEnabled = true → console.2.device.memory = console.2.bytes) ∧
      (∀ request next, console.perform request = .ok next → next.2.isOutputEnabled = false →
        next.2.device = console.2.device) ∧
      (∀ stale : FramebufferConsole fb, stale.2.isActive = false → ∃ next, stale.activate = .ok next ∧
        next.2.isActive = true ∧ next.2.mode = stale.2.mode ∧
        (stale.2.mode = .text → next.2.device.memory = next.2.bytes)) ∧
      (∀ stale : FramebufferConsole fb, stale.2.mode = .graphics → ∃ next, stale.setMode .text = .ok next ∧
        next.2.mode = .text ∧ next.2.isActive = stale.2.isActive ∧
        (stale.2.isActive = true → next.2.device.memory = next.2.bytes)) := by
  refine ⟨(run_mirrored glyphs device requests).of_ok ran, ?_, ?_, ?_⟩
  · intro request next performed disabled
    exact ((perform_updates console request).of_ok performed).2 disabled
  · intro stale inactive
    obtain ⟨next, activated, _, active, mode, mirrored⟩ := activate_ok stale inactive
    refine ⟨next, activated, active, mode, fun text => mirrored ?_⟩
    simp [isOutputEnabled, active, mode, text]
  · intro stale graphics
    obtain ⟨next, changed, _, mode, active, mirrored⟩ := setMode_ok stale .text graphics
    refine ⟨next, changed, mode, active, fun running => mirrored ?_⟩
    simp [isOutputEnabled, active, mode, running]

theorem mirrors_text :
    ∃ console, (onStripe 16).run [.send [0x41], .activate, .send [0x42, 0x0A, 0x43]] = .ok console ∧
    console.2.isOutputEnabled = true ∧ console.2.device.writes = 18 ∧
    console.2.device.memory = console.2.bytes := by
  have ran : ((onStripe 16).run [.send [0x41], .activate, .send [0x42, 0x0A, 0x43]]).map (fun console =>
      (console.2.isOutputEnabled, console.2.device.writes)) = .ok (true, 18) := by
    decide +kernel
  cases result : (onStripe 16).run [.send [0x41], .activate, .send [0x42, 0x0A, 0x43]] with
  | error panic =>
    rw [result] at ran
    cases ran
  | ok console =>
    rw [result] at ran
    simp only [Except.map, Except.ok.injEq, Prod.mk.injEq] at ran
    exact ⟨console, rfl, ran.1, ran.2, (mirrors _ _ _ console result).1 ran.1⟩

end FramebufferConsole

end Kei.Framebuffer
