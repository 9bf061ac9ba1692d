import Kei.Framebuffer.Settings

/-! A rule for the console over any display: what every operation of the display keeps, a
byte keeps. Images are left to the caller, as the only operation whose arguments come
from the decoder. -/

namespace Kei.Framebuffer

open Library Checked

variable {σ : Type}

structure Display.Keeps [Display σ] (tolerated : Panic → Prop) (holds : σ → Prop) : Prop where
  setCursor : ∀ {op}, holds op → ∀ x y, Meets tolerated (EscapeOp.setCursor op x y) holds
  setFgColor : ∀ {op}, holds op → ∀ color, Meets tolerated (EscapeOp.setFgColor op color) holds
  setBgColor : ∀ {op}, holds op → ∀ color, Meets tolerated (EscapeOp.setBgColor op color) holds
  eraseInDisplay : ∀ {op}, holds op → ∀ mode, Meets tolerated (EscapeOp.eraseInDisplay op mode) holds
  sendChar : ∀ {op}, holds op → ∀ ch, Meets tolerated (Display.sendChar op ch) holds

section

variable [Display σ] {tolerated : Panic → Prop} {holds : σ → Prop}

namespace EscapeFsm

variable {op : σ}

section

variable (keeps : Display.Keeps tolerated holds) (fsm : EscapeFsm)
include keeps fsm

theorem handleSgr_meets (numParams : Nat) (kept : holds op) :
    Meets tolerated (fsm.handleSgr numParams op) holds := by
  obtain ⟨made, same⟩ := handleSgr_eq fsm numParams op
  rw [same]
  refine meets_foldlM holds (fun op setting _ kept => ?_) kept
  cases setting with
  | fg color => exact keeps.setFgColor kept color
  | bg color => exact keeps.setBgColor kept color

theorem handleCsi_meets (finalByte : UInt8) (numParams : Nat) (isPrivate : Bool) (kept : holds op) :
    Meets tolerated (fsm.handleCsi finalByte numParams isPrivate op) holds := by
  unfold handleCsi
  split
  · exact kept
  split
  · exact keeps.setCursor kept _ _
  split
  · split
    · exact keeps.eraseInDisplay kept _
    · exact keeps.eraseInDisplay kept _
    · exact keeps.eraseInDisplay kept _
    · exact keeps.eraseInDisplay kept _
    · exact kept
  split
  · exact handleSgr_meets keeps fsm numParams kept
  · exact kept

theorem parseCsi_meets (byte : UInt8) (idx : Nat) (isPrivate inIntermediate : Bool) (kept : holds op) :
    Meets tolerated (fsm.parseCsi byte idx isPrivate inIntermediate op) fun result => holds result.2 := by
  unfold parseCsi
  split
  · exact kept
  split
  · split_ifs <;> exact kept
  split
  · exact (handleCsi_meets keeps _ _ _ _ kept).bind fun _ kept => kept
  · exact kept

end

def Completes (fsm : EscapeFsm) (byte : UInt8) : Prop := fsm.state = .dcs true true ∧ byte = 0x5C

instance (fsm : EscapeFsm) (byte : UInt8) : Decidable (fsm.Completes byte) :=
  inferInstanceAs (Decidable (_ ∧ _))

theorem eat_meets (keeps : Display.Keeps tolerated holds) {fsm : EscapeFsm} {byte : UInt8}
    (kept : holds op)
    (image : fsm.Completes byte → Meets tolerated (do blit op (← decode fsm.dcsBuf)) holds) :
    Meets tolerated (fsm.eat byte op) fun result => holds result.2.2 := by
  unfold eat
  split
  · split_ifs <;> exact kept
  · split_ifs <;> exact kept
  · exact (parseCsi_meets keeps fsm byte _ _ _ kept).bind fun _ kept => kept
  · split_ifs <;> exact kept
  · rename_i isLastEsc sawCommandQ state
    have collected : Meets tolerated (fsm.eatDcs isLastEsc sawCommandQ byte op) fun result => holds result.2 := by
      unfold eatDcs
      split
      · rename_i ended
        cases sawCommandQ with
        | false => exact kept
        | true =>
          have shown := image ⟨by rw [state, ended.1], ended.2⟩
          rw [if_pos rfl, ← bind_assoc]
          exact shown.bind fun _ kept => kept
      · exact kept
    exact collected.bind fun _ kept => kept

end EscapeFsm

variable {console : Console σ}

theorem Console.sendByte_meets (keeps : Display.Keeps tolerated holds) {byte : UInt8}
    (kept : holds console.2)
    (image : console.1.Completes byte →
      Meets tolerated (do EscapeFsm.blit console.2 (← decode console.1.dcsBuf)) holds) :
    Meets tolerated (console.sendByte byte) fun next => holds next.2 := by
  refine (EscapeFsm.eat_meets keeps kept image).bind ?_
  rintro ⟨eaten, fsm, op⟩ kept
  cases eaten with
  | true => exact kept
  | false =>
    by_cases zero : byte = 0
    · simp only [zero, if_true, if_false, Bool.false_eq_true]
      exact kept
    · simp only [zero, if_false, Bool.false_eq_true]
      exact (keeps.sendChar kept byte).bind fun _ kept => kept

theorem Console.sendByte_completes {byte : UInt8} (completes : console.1.Completes byte) :
    console.sendByte byte = do
      let image ← decode console.1.dcsBuf
      return ({ console.1 with dcsBuf := [], state := .escape }, ← EscapeFsm.blit console.2 image) := by
  obtain ⟨state, rfl⟩ := completes
  simp only [sendByte, EscapeFsm.eat, EscapeFsm.eatDcs, state, and_self, if_true, bind_assoc, pure_bind]

end

end Kei.Framebuffer
