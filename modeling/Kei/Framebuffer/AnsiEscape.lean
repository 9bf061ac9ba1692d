import Kei.Framebuffer.Sixel
import Kei.Library.Stream

/-! The escape sequence machine (`ansi_escape.rs`) and the loop of the console around it
(`console.rs`), over any display that implements the operations. -/

namespace Kei.Framebuffer

open Library Checked

inductive EraseInDisplay
  | cursorToEnd
  | cursorToBeginning
  | entireScreen
  | entireScreenAndScrollback
  deriving DecidableEq, Repr

class EscapeOp (σ : Type) where
  setCursor : σ → Nat → Nat → Checked σ
  setFgColor : σ → Pixel → Checked σ
  setBgColor : σ → Pixel → Checked σ
  eraseInDisplay : σ → EraseInDisplay → Checked σ
  renderImage : σ → List Pixel → Nat → Nat → Checked σ

class Display (σ : Type) extends EscapeOp σ where
  sendChar : σ → UInt8 → Checked σ

def maxParams : Nat := 8

def maxOscLen : Nat := 128

def defaultFg : Pixel := ⟨0xDC, 0xDF, 0xE4⟩

def defaultBg : Pixel := ⟨0x28, 0x2C, 0x34⟩

def colors : Vector Pixel 16 :=
  #v[⟨0x28, 0x2C, 0x34⟩, ⟨0xE0, 0x6C, 0x75⟩, ⟨0x98, 0xC3, 0x79⟩, ⟨0xE5, 0xC0, 0x7B⟩,
    ⟨0x61, 0xAF, 0xEF⟩, ⟨0xC6, 0x78, 0xDD⟩, ⟨0x56, 0xB6, 0xC2⟩, ⟨0xDC, 0xDF, 0xE4⟩,
    ⟨0x5A, 0x63, 0x74⟩, ⟨0xE0, 0x6C, 0x75⟩, ⟨0x98, 0xC3, 0x79⟩, ⟨0xE5, 0xC0, 0x7B⟩,
    ⟨0x61, 0xAF, 0xEF⟩, ⟨0xC6, 0x78, 0xDD⟩, ⟨0x56, 0xB6, 0xC2⟩, ⟨0xDC, 0xDF, 0xE4⟩]

inductive WaitFor
  | escape
  | bracket
  | csi (idx : Nat) (isPrivate inIntermediate : Bool)
  | osc (len : Nat) (isLastEsc : Bool)
  | dcs (isLastEsc sawCommandQ : Bool)
  deriving DecidableEq, Repr

structure EscapeFsm where
  state : WaitFor
  params : Vector (Option Nat) 8
  dcsBuf : List UInt8
  deriving DecidableEq

namespace EscapeFsm

variable {σ : Type}

def new : EscapeFsm := ⟨.escape, Vector.replicate 8 none, []⟩

def paramOr (fsm : EscapeFsm) (i default : Nat) : Nat := (fsm.params[i]?.bind id).getD default

def get256Color (i : Nat) : Pixel :=
  let channel (mask high low : Nat) : UInt8 := if i &&& mask ≠ 0 then UInt8.ofNat high else UInt8.ofNat low
  if i ≤ 7 then ⟨channel 1 0xAA 0, channel 2 0xAA 0, channel 4 0xAA 0⟩
  else if i ≤ 15 then ⟨channel 1 0xFF 0x55, channel 2 0xFF 0x55, channel 4 0xFF 0x55⟩
  else if i ≤ 231 then
    let b := (i - 16) % 6 * 255 / 6
    let g := (i - 16) / 6 % 6 * 255 / 6
    let r := (i - 16) / 6 / 6 * 255 / 6
    ⟨UInt8.ofNat r, UInt8.ofNat g, UInt8.ofNat b⟩
  else
    let g := UInt8.ofNat (i * 10 - 2312)
    ⟨g, g, g⟩

def extendedColor (fsm : EscapeFsm) (numParams cursor : Nat) : Option (Pixel × Nat) :=
  if numParams - cursor ≥ 2 ∧ fsm.paramOr cursor 0 = 5 then
    some (get256Color (fsm.paramOr (cursor + 1) 0 % 256), 2)
  else if numParams - cursor ≥ 4 ∧ fsm.paramOr cursor 0 = 2 then
    some (⟨UInt8.ofNat (fsm.paramOr (cursor + 1) 0), UInt8.ofNat (fsm.paramOr (cursor + 2) 0),
      UInt8.ofNat (fsm.paramOr (cursor + 3) 0)⟩, 4)
  else none

variable [EscapeOp σ]

def handleSgrLoop (fsm : EscapeFsm) (numParams : Nat) : Nat → Nat → σ → Checked σ
  | 0, _, op => .ok op
  | turns + 1, cursor, op =>
    if cursor ≥ numParams then .ok op
    else
      let opCode := fsm.paramOr cursor 0 % 256
      let cursor := cursor + 1
      if opCode = 0 then do
        let op ← EscapeOp.setFgColor op defaultFg
        handleSgrLoop fsm numParams turns cursor (← EscapeOp.setBgColor op defaultBg)
      else if 30 ≤ opCode ∧ opCode ≤ 37 then do
        handleSgrLoop fsm numParams turns cursor
          (← EscapeOp.setFgColor op (← index colors.toList (opCode - 30)))
      else if opCode = 38 then
        match fsm.extendedColor numParams cursor with
        | some (color, count) => do
          handleSgrLoop fsm numParams turns (cursor + count) (← EscapeOp.setFgColor op color)
        | none => .ok op
      else if opCode = 39 then do
        handleSgrLoop fsm numParams turns cursor (← EscapeOp.setFgColor op defaultFg)
      else if 90 ≤ opCode ∧ opCode ≤ 97 then do
        handleSgrLoop fsm numParams turns cursor
          (← EscapeOp.setFgColor op (← index colors.toList (opCode - 90 + 8)))
      else if 40 ≤ opCode ∧ opCode ≤ 47 then do
        handleSgrLoop fsm numParams turns cursor
          (← EscapeOp.setBgColor op (← index colors.toList (opCode - 40)))
      else if opCode = 48 then
        match fsm.extendedColor numParams cursor with
        | some (color, count) => do
          handleSgrLoop fsm numParams turns (cursor + count) (← EscapeOp.setBgColor op color)
        | none => .ok op
      else if opCode = 49 then do
        handleSgrLoop fsm numParams turns cursor (← EscapeOp.setBgColor op defaultBg)
      else if 100 ≤ opCode ∧ opCode ≤ 107 then do
        handleSgrLoop fsm numParams turns cursor
          (← EscapeOp.setBgColor op (← index colors.toList (opCode - 100 + 8)))
      else .ok op

def handleSgr (fsm : EscapeFsm) (numParams : Nat) (op : σ) : Checked σ :=
  handleSgrLoop fsm numParams numParams 0 op

def handleCsi (fsm : EscapeFsm) (finalByte : UInt8) (numParams : Nat) (isPrivate : Bool) (op : σ) :
    Checked σ :=
  if isPrivate then .ok op
  else if finalByte = 0x48 then
    EscapeOp.setCursor op (fsm.paramOr 1 1 - 1) (fsm.paramOr 0 1 - 1)
  else if finalByte = 0x4A then
    match fsm.paramOr 0 0 with
    | 0 => EscapeOp.eraseInDisplay op .cursorToEnd
    | 1 => EscapeOp.eraseInDisplay op .cursorToBeginning
    | 2 => EscapeOp.eraseInDisplay op .entireScreen
    | 3 => EscapeOp.eraseInDisplay op .entireScreenAndScrollback
    | _ => .ok op
  else if finalByte = 0x6D then fsm.handleSgr numParams op
  else .ok op

def parseCsi (fsm : EscapeFsm) (byte : UInt8) (idx : Nat) (isPrivate inIntermediate : Bool) (op : σ) :
    Checked (EscapeFsm × σ) :=
  if 0x20 ≤ byte ∧ byte ≤ 0x2F then .ok ({ fsm with state := .csi idx isPrivate true }, op)
  else if 0x30 ≤ byte ∧ byte ≤ 0x3F then
    if inIntermediate then .ok ({ fsm with state := .escape }, op)
    else if isDigit byte then
      let fsm :=
        if idx < maxParams then
          { fsm with params :=
              fsm.params.setIfInBounds idx (some (pushDigit (fsm.paramOr idx 0) byte)) }
        else fsm
      .ok ({ fsm with state := .csi idx isPrivate false }, op)
    else if byte = 0x3B then
      if idx + 1 < maxParams then .ok ({ fsm with state := .csi (idx + 1) isPrivate false }, op)
      else .ok ({ fsm with state := .escape }, op)
    else if byte = 0x3A then .ok ({ fsm with state := .escape }, op)
    else .ok ({ fsm with state := .csi idx true false }, op)
  else if 0x40 ≤ byte ∧ byte ≤ 0x7E then do
    let fsm := { fsm with state := .escape }
    return (fsm, ← fsm.handleCsi byte (idx + 1) isPrivate op)
  else .ok ({ fsm with state := .escape }, op)

def blit (op : σ) : Option SixelImage → Checked σ
  | some image => EscapeOp.renderImage op image.pixels image.width image.height
  | none => .ok op

def eatDcs (fsm : EscapeFsm) (isLastEsc sawCommandQ : Bool) (byte : UInt8) (op : σ) :
    Checked (EscapeFsm × σ) :=
  if isLastEsc ∧ byte = 0x5C then do
    let op ← if sawCommandQ then do blit op (← decode fsm.dcsBuf) else .ok op
    return ({ fsm with dcsBuf := [], state := .escape }, op)
  else
    let newSawQ := sawCommandQ || (byte = 0x71 && !isLastEsc)
    let dcsBuf := if newSawQ && byte ≠ 0x71 && !isLastEsc then fsm.dcsBuf ++ [byte] else fsm.dcsBuf
    .ok ({ fsm with dcsBuf := dcsBuf, state := .dcs (byte = esc) newSawQ }, op)

def eat (fsm : EscapeFsm) (byte : UInt8) (op : σ) : Checked (Bool × EscapeFsm × σ) :=
  match fsm.state with
  | .escape =>
    if byte = esc then .ok (true, { fsm with state := .bracket }, op) else .ok (false, fsm, op)
  | .bracket =>
    if byte = 0x5B then
      .ok (true, { fsm with params := Vector.replicate 8 none, state := .csi 0 false false }, op)
    else if byte = 0x5D then .ok (true, { fsm with state := .osc 0 false }, op)
    else if byte = 0x50 then .ok (true, { fsm with dcsBuf := [], state := .dcs false false }, op)
    else .ok (true, { fsm with state := .escape }, op)
  | .csi idx isPrivate inIntermediate => do
    return (true, ← fsm.parseCsi byte idx isPrivate inIntermediate op)
  | .osc len isLastEsc =>
    if byte = 0x07 then .ok (true, { fsm with state := .escape }, op)
    else if byte = 0x5C ∧ isLastEsc then .ok (true, { fsm with state := .escape }, op)
    else if len > maxOscLen then .ok (false, { fsm with state := .escape }, op)
    else .ok (true, { fsm with state := .osc (len + 1) (byte = esc) }, op)
  | .dcs isLastEsc sawCommandQ => do
    return (true, ← fsm.eatDcs isLastEsc sawCommandQ byte op)

end EscapeFsm

abbrev Console (σ : Type) := EscapeFsm × σ

namespace Console

variable {σ : Type} [Display σ]

def sendByte (console : Console σ) (byte : UInt8) : Checked (Console σ) := do
  let (eaten, fsm, op) ← console.1.eat byte console.2
  if eaten then
    return (fsm, op)
  if byte = 0 then
    return (fsm, op)
  return (fsm, ← Display.sendChar op byte)

def send : Console σ → List UInt8 → Checked (Console σ) := runAll sendByte

end Console

end Kei.Framebuffer
