import Kei.Framebuffer.AnsiEscape

/-! Device control strings. Between introducer and terminator the machine only collects,
so the whole string is one step of the console: decode what was collected, show it if
it is an image, and go on as before. -/

namespace Kei.Framebuffer

open Library Checked EscapeFsm
open List hiding Vector

/-- The bytes of a control string that do not follow an escape. -/
def heard (before : UInt8) (bytes : List UInt8) : List UInt8 :=
  ((before :: bytes).zip bytes).filterMap fun pair => if pair.1 = esc then none else some pair.2

/-- Those that are collected: all but `q`, from the first `q` on. -/
def taken (sawCommandQ : Bool) (bytes : List UInt8) : List UInt8 :=
  (if sawCommandQ then bytes else bytes.dropWhile (· ≠ 0x71)).filter (· ≠ 0x71)

theorem heard_cons (before byte : UInt8) (rest : List UInt8) : heard before (byte :: rest) =
    if before = esc then heard byte rest else byte :: heard byte rest := by
  by_cases escaped : before = esc
  · simp [heard, escaped]
  · simp [heard, escaped]

theorem taken_cons (sawCommandQ : Bool) (byte : UInt8) (rest : List UInt8) : taken sawCommandQ (byte :: rest) =
    (if (sawCommandQ || byte = 0x71) && byte ≠ 0x71 then [byte] else []) ++
      taken (sawCommandQ || byte = 0x71) rest := by
  cases sawCommandQ with
  | true => by_cases command : byte = 0x71 <;> simp [taken, command]
  | false => by_cases command : byte = 0x71 <;> simp [taken, command]

theorem heard_clean {before last : UInt8} {content : List UInt8} (plain : before ≠ esc) (clean : esc ∉ content) :
    heard before (content ++ [last]) = content ++ [last] := by
  induction content generalizing before with
  | nil => simp [heard, plain]
  | cons byte rest ih =>
    rw [mem_cons, not_or] at clean
    rw [cons_append, heard_cons, if_neg plain, ih (Ne.symm clean.1) clean.2]

def isParam (byte : UInt8) : Bool := isDigit byte || byte = 0x3B

theorem taken_sixel {params : List UInt8} (data : List UInt8) (numeric : ∀ byte ∈ params, isParam byte = true) :
    taken false (params ++ 0x71 :: data ++ [esc]) = data.filter (· ≠ 0x71) ++ [esc] := by
  have other : ∀ byte ∈ params, (fun byte : UInt8 => decide (byte ≠ 0x71)) byte = true := by
    intro byte member
    refine decide_eq_true ?_
    rintro rfl
    exact absurd (numeric _ member) (by decide)
  rw [taken, if_neg Bool.false_ne_true, append_assoc, dropWhile_append_of_pos other]
  simp [esc]

namespace Console

variable {σ : Type} [Display σ]

theorem sendByte_dcs (isLastEsc sawCommandQ : Bool) (params : Vector (Option Nat) 8)
    (buf : List UInt8) (op : σ) (byte : UInt8) (inside : ¬(isLastEsc = true ∧ byte = 0x5C)) :
    sendByte (⟨.dcs isLastEsc sawCommandQ, params, buf⟩, op) byte =
      .ok (⟨.dcs (byte = esc) (sawCommandQ || (byte = 0x71 && !isLastEsc)), params,
        buf ++ if (sawCommandQ || (byte = 0x71 && !isLastEsc)) && byte ≠ 0x71 && !isLastEsc then [byte]
          else []⟩, op) := by
  simp only [sendByte, eat, eatDcs, inside, if_false, bind_ok, pure_eq_ok, if_true]
  split <;> simp

theorem send_heard (before : UInt8) (sawCommandQ : Bool) (params : Vector (Option Nat) 8)
    (buf content : List UInt8) (op : σ) (unterminated : ¬[esc, 0x5C] <:+: before :: content) :
    send (⟨.dcs (before = esc) sawCommandQ, params, buf⟩, op) content =
      .ok (⟨.dcs (content.getLast?.getD before = esc) (sawCommandQ || 0x71 ∈ heard before content),
        params, buf ++ taken sawCommandQ (heard before content)⟩, op) := by
  induction content generalizing before sawCommandQ buf with
  | nil =>
    simp [send, heard, taken, runAll_nil]
    rfl
  | cons byte rest ih =>
    have stepped := sendByte_dcs (before = esc) sawCommandQ params buf op byte (by
      rintro ⟨last, rfl⟩
      obtain rfl := of_decide_eq_true last
      exact unterminated (prefix_append [esc, 0x5C] rest).isInfix)
    have later : ¬[esc, 0x5C] <:+: byte :: rest := fun found =>
      unterminated (found.trans (suffix_cons before _).isInfix)
    rw [send, runAll_cons stepped]
    refine (ih byte _ _ later).trans ?_
    rw [heard_cons, getLast?_cons, Option.getD_some]
    by_cases escaped : before = esc
    · simp [escaped]
    · rw [if_neg escaped, taken_cons]
      simp [escaped, Bool.or_assoc, @eq_comm _ byte]

def controlString (content : List UInt8) : List UInt8 := [esc, 0x50] ++ content ++ [esc, 0x5C]

def payload? (content : List UInt8) : Option (List UInt8) :=
  if 0x71 ∈ heard 0x50 (content ++ [esc]) then some (taken false (heard 0x50 (content ++ [esc]))) else none

def present (op : σ) : Option (List UInt8) → Checked σ
  | none => .ok op
  | some payload => do blit op (← decode payload)

theorem unterminated_append_esc {content : List UInt8} (unterminated : ¬[esc, 0x5C] <:+: content) :
    ¬[esc, 0x5C] <:+: content ++ [esc] := by
  rintro ⟨left, right, found⟩
  rcases eq_nil_or_concat right with rfl | ⟨right, last, rfl⟩
  · have same := congrArg getLast? found
    simp [esc] at same
  · rw [concat_eq_append, ← append_assoc] at found
    have cut := (append_inj' found rfl).1
    exact unterminated ⟨left, right, cut⟩

theorem send_collected (params : Vector (Option Nat) 8) (content : List UInt8) (op : σ)
    (unterminated : ¬[esc, 0x5C] <:+: content) :
    send (⟨.escape, params, []⟩, op) ([esc, 0x50] ++ content ++ [esc]) =
      .ok (⟨.dcs true (0x71 ∈ heard 0x50 (content ++ [esc])), params,
        taken false (heard 0x50 (content ++ [esc]))⟩, op) := by
  have opened : send (⟨.escape, params, []⟩, op) [esc, 0x50] =
      .ok (⟨.dcs (decide ((0x50 : UInt8) = esc)) false, params, []⟩, op) := rfl
  have inside : ¬[esc, 0x5C] <:+: 0x50 :: (content ++ [esc]) := by
    rw [infix_cons_iff, not_or]
    exact ⟨fun found => absurd (prefix_cons_iff.mp found) (by simp [esc]), unterminated_append_esc unterminated⟩
  rw [append_assoc, send, runAll_append opened]
  refine (send_heard 0x50 false params [] (content ++ [esc]) op inside).trans ?_
  simp

theorem send_controlString (params : Vector (Option Nat) 8) (content post : List UInt8) (op : σ)
    (unterminated : ¬[esc, 0x5C] <:+: content) :
    send (⟨.escape, params, []⟩, op) (controlString content ++ post) =
      present op (payload? content) >>= fun shown => send (⟨.escape, params, []⟩, shown) post := by
  have split : controlString content ++ post = ([esc, 0x50] ++ content ++ [esc]) ++ 0x5C :: post := by
    simp [controlString]
  have closed : sendByte (⟨.dcs true (0x71 ∈ heard 0x50 (content ++ [esc])), params,
      taken false (heard 0x50 (content ++ [esc]))⟩, op) 0x5C =
      present op (payload? content) >>= fun shown => .ok (⟨.escape, params, []⟩, shown) := by
    rw [payload?]
    by_cases command : 0x71 ∈ heard 0x50 (content ++ [esc])
    · simp only [command, sendByte, eat, eatDcs, present, decide_true, if_true, and_self, bind_assoc]
      rfl
    · simp only [command, decide_false, if_false]
      rfl
  rw [split, send, runAll_append (send_collected params content op unterminated)]
  simp only [runAll, foldlM_cons, closed, bind_assoc, bind_ok]

end Console

namespace EscapeFsm

variable {σ : Type} [EscapeOp σ]

def Idle (fsm : EscapeFsm) : Prop :=
  fsm.dcsBuf = [] ∨ ∃ isLastEsc sawCommandQ, fsm.state = .dcs isLastEsc sawCommandQ

variable {fsm next : EscapeFsm} {op shown : σ} {byte : UInt8}

theorem parseCsi_dcsBuf {idx : Nat} {isPrivate inIntermediate : Bool}
    (parsed : fsm.parseCsi byte idx isPrivate inIntermediate op = .ok (next, shown)) :
    next.dcsBuf = fsm.dcsBuf := by
  unfold parseCsi at parsed
  repeat' split at parsed
  all_goals try (cases parsed; rfl)
  obtain ⟨_, _, parsed⟩ := bind_eq_ok.mp parsed
  cases parsed
  rfl

theorem eatDcs_state {isLastEsc sawCommandQ : Bool}
    (ate : fsm.eatDcs isLastEsc sawCommandQ byte op = .ok (next, shown)) :
    (isLastEsc ∧ byte = 0x5C ∧ next.state = .escape ∧ next.dcsBuf = []) ∨
      (¬(isLastEsc ∧ byte = 0x5C) ∧ ∃ sawQ, next.state = .dcs (byte = esc) sawQ) := by
  unfold eatDcs at ate
  split at ate
  case isTrue terminated =>
    refine .inl ⟨terminated.1, terminated.2, ?_⟩
    cases sawCommandQ with
    | false =>
      cases ate
      exact ⟨rfl, rfl⟩
    | true =>
      obtain ⟨_, _, ate⟩ := bind_eq_ok.mp ate
      obtain ⟨_, _, ate⟩ := bind_eq_ok.mp ate
      cases ate
      exact ⟨rfl, rfl⟩
  case isFalse inside =>
    cases ate
    exact .inr ⟨inside, _, rfl⟩

variable {eaten : Bool}

theorem eat_idle (idle : fsm.Idle)
    (ate : fsm.eat byte op = .ok (eaten, next, shown)) : next.Idle := by
  unfold eat at ate
  split at ate
  case h_5 =>
    obtain ⟨⟨collected, _⟩, dcs, ate⟩ := bind_eq_ok.mp ate
    cases ate
    rcases eatDcs_state dcs with ⟨_, _, _, empty⟩ | ⟨_, sawQ, state⟩
    · exact .inl empty
    · exact .inr ⟨_, _, state⟩
  all_goals
    rename_i outside
    have empty : fsm.dcsBuf = [] := by
      rcases idle with empty | ⟨_, _, inside⟩
      · exact empty
      · rw [outside] at inside
        cases inside
    left
  case h_3 =>
    obtain ⟨⟨parsed, _⟩, csi, ate⟩ := bind_eq_ok.mp ate
    cases ate
    exact (parseCsi_dcsBuf csi).trans empty
  all_goals
    repeat' split at ate
    all_goals
      cases ate
      first | exact empty | rfl

def Closing (fsm : EscapeFsm) : Prop :=
  fsm.state = .escape ∨ fsm.state = .bracket ∨ (∃ len, fsm.state = .osc len true) ∨
    ∃ sawCommandQ, fsm.state = .dcs true sawCommandQ

theorem eat_esc_closing
    (ate : fsm.eat esc op = .ok (eaten, next, shown)) : next.Closing := by
  unfold eat at ate
  split at ate
  case h_1 =>
    cases ate
    exact .inr (.inl rfl)
  case h_2 =>
    cases ate
    exact .inl rfl
  case h_3 =>
    cases ate
    exact .inl rfl
  case h_4 =>
    simp only [show esc ≠ 0x07 by decide, show esc ≠ 0x5C by decide, if_false, false_and] at ate
    split at ate
    · cases ate
      exact .inl rfl
    · cases ate
      exact .inr (.inr (.inl ⟨_, rfl⟩))
  case h_5 =>
    obtain ⟨⟨collected, _⟩, dcs, ate⟩ := bind_eq_ok.mp ate
    cases ate
    rcases eatDcs_state dcs with ⟨_, other, _⟩ | ⟨_, sawQ, state⟩
    · exact absurd other (by decide)
    · exact .inr (.inr (.inr ⟨sawQ, state⟩))

theorem eat_backslash_ground (closing : fsm.Closing)
    (ate : fsm.eat 0x5C op = .ok (eaten, next, shown)) : next.state = .escape := by
  unfold eat at ate
  rcases closing with state | state | ⟨len, state⟩ | ⟨sawCommandQ, state⟩ <;> simp only [state] at ate
  · cases ate
    exact state
  · cases ate
    rfl
  · cases ate
    rfl
  · obtain ⟨⟨collected, _⟩, dcs, ate⟩ := bind_eq_ok.mp ate
    cases ate
    rcases eatDcs_state dcs with ⟨_, _, ground, _⟩ | ⟨inside, _⟩
    · exact ground
    · exact absurd ⟨rfl, rfl⟩ inside

end EscapeFsm

namespace Console

variable {σ : Type} [Display σ]

theorem sendByte_eat {console next : Console σ} {byte : UInt8} (sent : sendByte console byte = .ok next) :
    ∃ eaten shown, console.1.eat byte console.2 = .ok (eaten, next.1, shown) := by
  obtain ⟨⟨eaten, fsm, op⟩, ate, sent⟩ := bind_eq_ok.mp sent
  refine ⟨eaten, op, ?_⟩
  simp only at sent
  split at sent
  · cases sent
    exact ate
  · split at sent
    · cases sent
      exact ate
    · obtain ⟨_, _, sent⟩ := bind_eq_ok.mp sent
      cases sent
      exact ate

theorem send_idle {start last : Console σ} {bytes : List UInt8} (idle : start.1.Idle)
    (sent : send start bytes = .ok last) : last.1.Idle := by
  refine runAll_preserves (fun console => console.1.Idle) ?_ idle sent
  intro console byte next idle stepped
  obtain ⟨_, _, ate⟩ := sendByte_eat stepped
  exact eat_idle idle ate

theorem send_terminator {console next : Console σ} (sent : send console [esc, 0x5C] = .ok next) :
    next.1.state = .escape := by
  obtain ⟨middle, first, sent⟩ := bind_eq_ok.mp sent
  obtain ⟨last, second, sent⟩ := bind_eq_ok.mp sent
  cases sent
  obtain ⟨_, _, ateEsc⟩ := sendByte_eat first
  obtain ⟨_, _, ateBackslash⟩ := sendByte_eat second
  exact eat_backslash_ground (eat_esc_closing ateEsc) ateBackslash

/-- The string `ESC P params q data ESC \` shows the decoded image of exactly that data, and
what follows is handled as if the string were not there. -/
structure PassesThrough (fsm : EscapeFsm) (params data : List UInt8) : Prop where
  /-- At the terminator the buffer holds the data, and the escape that announces it. -/
  handed : ∀ {τ : Type} [Display τ] (op : τ),
    send (fsm, op) ([esc, 0x50] ++ (params ++ 0x71 :: data) ++ [esc]) =
      .ok (⟨.dcs true true, fsm.params, data ++ [esc]⟩, op)
  shown : ∀ {τ : Type} [Display τ] (op : τ) (post : List UInt8),
    send (fsm, op) (controlString (params ++ 0x71 :: data) ++ post) =
      present op (some data) >>= fun shown => send (fsm, shown) post

def Ignored (fsm : EscapeFsm) (content : List UInt8) : Prop :=
  ∀ {τ : Type} [Display τ] (op : τ) (post : List UInt8),
    send (fsm, op) (controlString content ++ post) = send (fsm, op) post

structure Album where
  images : List SixelImage
  deriving DecidableEq

instance : Display Album where
  setCursor op _ _ := .ok op
  setFgColor op _ := .ok op
  setBgColor op _ := .ok op
  eraseInDisplay op _ := .ok op
  renderImage op pixels width height := .ok ⟨op.images ++ [⟨width, height, pixels⟩]⟩
  sendChar op _ := .ok op

variable {params data : List UInt8}

theorem sixel_plain (numeric : ∀ byte ∈ params, isParam byte = true) (clean : esc ∉ data) :
    esc ∉ params ++ 0x71 :: data := by
  rw [mem_append, mem_cons]
  rintro (param | command | datum)
  · exact absurd (numeric esc param) (by decide)
  · exact absurd command (by decide)
  · exact clean datum

theorem passesThrough_iff (machine : Vector (Option Nat) 8)
    (numeric : ∀ byte ∈ params, isParam byte = true) (clean : esc ∉ data) :
    PassesThrough ⟨.escape, machine, []⟩ params data ↔ 0x71 ∉ data := by
  have plain := sixel_plain numeric clean
  have unterminated : ¬[esc, 0x5C] <:+: params ++ 0x71 :: data := fun found => plain (found.subset (by simp))
  have all : heard 0x50 (params ++ 0x71 :: data ++ [esc]) = params ++ 0x71 :: data ++ [esc] :=
    heard_clean (by decide) plain
  have command : 0x71 ∈ params ++ 0x71 :: data ++ [esc] := by simp
  have collected := taken_sixel data numeric
  constructor
  · intro passes
    have handed := passes.handed (Album.mk [])
    rw [send_collected machine _ _ unterminated, all, collected] at handed
    simp only [Except.ok.injEq, Prod.mk.injEq, mk.injEq, append_cancel_right_eq, true_and,
      and_true, filter_eq_self] at handed
    intro member
    exact absurd (handed.2 _ member) (by decide)
  · intro bare
    have kept : data.filter (· ≠ 0x71) = data := by
      rw [filter_eq_self]
      intro byte member
      have other : byte ≠ 0x71 := fun same => bare (same ▸ member)
      simpa using other
    rw [kept] at collected
    constructor
    · intro τ _ op
      rw [send_collected machine _ op unterminated, all, collected, decide_eq_true command]
    · intro τ _ op post
      rw [send_controlString machine _ post op unterminated, payload?, all, collected, if_pos command]
      simp only [present, decode_append_esc]

theorem ignored_iff (machine : Vector (Option Nat) 8) {content : List UInt8}
    (unterminated : ¬[esc, 0x5C] <:+: content) :
    Ignored ⟨.escape, machine, []⟩ content ↔
      ∀ payload, payload? content = some payload → decode payload = .ok none := by
  constructor
  · intro ignored payload taken
    have same := ignored (Album.mk []) []
    rw [send_controlString machine _ _ _ unterminated, taken, present] at same
    cases decoded : decode payload with
    | error panic =>
      rw [decoded] at same
      cases same
    | ok image =>
      cases image with
      | none => rfl
      | some image =>
        rw [decoded] at same
        cases same
  · intro empty τ _ op post
    rw [send_controlString machine _ post op unterminated]
    cases taken : payload? content with
    | none => rfl
    | some payload =>
      rw [present, empty payload taken]
      rfl

/-- In whatever ground state a stream leaves the console, a Sixel string passes through exactly
when its data has no `q`, and any string is ignored exactly when the machine takes no
payload from it or the payload is no image. Met in another state, the string does not
leave the machine in that state. -/
theorem controlString_effect {start op : σ} {before : List UInt8} {fsm : EscapeFsm}
    (reached : send (new, start) before = .ok (fsm, op)) :
    (fsm.state = .escape → (∀ params data, (∀ byte ∈ params, isParam byte = true) → esc ∉ data →
        (PassesThrough fsm params data ↔ 0x71 ∉ data)) ∧
      (∀ content, ¬[esc, 0x5C] <:+: content →
        (Ignored fsm content ↔ ∀ payload, payload? content = some payload → decode payload = .ok none))) ∧
    (fsm.state ≠ .escape → ∀ content after, send (fsm, op) (controlString content) = .ok after →
      after.1.state ≠ fsm.state) := by
  constructor
  · intro ground
    have idle := send_idle (.inl rfl) reached
    have same : fsm = ⟨.escape, fsm.params, []⟩ := by
      rcases idle with empty | ⟨_, _, inside⟩
      · rw [← ground, ← empty]
      · rw [ground] at inside
        cases inside
    rw [same]
    exact ⟨fun params data numeric clean => passesThrough_iff fsm.params numeric clean,
      fun content unterminated => ignored_iff fsm.params unterminated⟩
  · intro busy content after sent same
    have split : controlString content = ([esc, 0x50] ++ content) ++ [esc, 0x5C] := by simp [controlString]
    rw [split, send, runAll, foldlM_append] at sent
    obtain ⟨middle, _, closed⟩ := bind_eq_ok.mp sent
    exact busy (same ▸ send_terminator closed)

theorem controlString_effect_text :
    send (new, Album.mk []) [0x41, esc, 0x5B, 0x6D] = .ok (new, Album.mk []) ∧
      PassesThrough new [0x30] [0x7E] ∧ Ignored new [0x78, 0x7E] := by
  have reached : send (new, Album.mk []) [0x41, esc, 0x5B, 0x6D] = .ok (new, Album.mk []) := rfl
  obtain ⟨passes, ignored⟩ := (controlString_effect reached).1 rfl
  refine ⟨reached, (passes [0x30] [0x7E] (by simp [isParam, isDigit]) (by decide)).mpr (by decide), ?_⟩
  refine (ignored [0x78, 0x7E] (by decide)).mpr ?_
  intro payload taken
  cases taken

/-- `ESC P q q ESC \` shows nothing, although its data is one column of an image;
`ESC P x q ~ ESC \` is no Sixel string, and shows an image. -/
theorem controlString_misread : (∃ image, decode [0x71] = .ok (some image)) ∧
      send (new, Album.mk []) (controlString [0x71, 0x71]) = .ok (new, ⟨[]⟩) ∧
      ∃ image, send (new, Album.mk []) (controlString [0x78, 0x71, 0x7E]) = .ok (new, ⟨[image]⟩) :=
  ⟨⟨_, rfl⟩, rfl, ⟨_, rfl⟩⟩

end Console

end Kei.Framebuffer
