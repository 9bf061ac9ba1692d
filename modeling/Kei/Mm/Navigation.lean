import Kei.Mm.Cursor
import Kei.Mm.Tree

/-! How a cursor moves. A sound cursor holds, from its level up to its guard level, the nodes on
the walk to its address; every move keeps that, and none of them can fail. -/

namespace Kei.Mm

open Library Checked PteTrait Function Nat

namespace Cursor

structure Sound (owned : Nat → Prop) (place : Nat → Option (Nat × Nat)) (cursor : Cursor) : Prop where
  low : 0 < cursor.level
  order : cursor.level ≤ cursor.guardLevel
  high : cursor.guardLevel ≤ maxNrLevels
  /-- An address behind the barrier is only left by giving the cursor up. -/
  held : ∀ {level}, cursor.level ≤ level → level ≤ cursor.guardLevel →
    ∃ paddr number, cursor.path (level - 1) = some paddr ∧ place paddr = some (level, number) ∧
      (cursor.va < cursor.barrierEnd → number = cursor.va / 4096 / 512 ^ level) ∧
      (level = cursor.guardLevel → number = cursor.barrierStart / 4096 / 512 ^ level)
  released : ∀ {level}, 0 < level → level < cursor.level → cursor.path (level - 1) = none
  aligned : cursor.va % 4096 = 0
  after : cursor.barrierStart ≤ cursor.va
  startAligned : cursor.barrierStart % 4096 = 0
  endAligned : cursor.barrierEnd % 4096 = 0
  shared : ∀ {va}, cursor.barrierStart ≤ va → va < cursor.barrierEnd →
    owned (va / 4096) ∧ va / 4096 / 512 ^ cursor.guardLevel = cursor.barrierStart / 4096 / 512 ^ cursor.guardLevel

variable {E Item : Type} {C : PageTableConfig Item} {owned addressable : Nat → Prop} {root : Nat}
  {place : Nat → Option (Nat × Nat)} {cursor : Cursor}

theorem guardAt_eq (cursor : Cursor) {level : Nat} (low : 0 < level) (high : level ≤ maxNrLevels) :
    cursor.guardAt level = .ok (cursor.path (level - 1)) := by
  have bound : level - 1 < maxNrLevels := by omega
  simp [guardAt, sub_ok (show 1 ≤ level from low), bind_ok, bound]

namespace Sound

theorem mono (sound : cursor.Sound owned place) {wider : Nat → Option (Nat × Nat)}
    (grows : Radix.Grows place wider) : cursor.Sound owned wider where
  __ := sound
  held := by
    intro level lower upper
    obtain ⟨paddr, number, kept, placed, rest⟩ := sound.held lower upper
    exact ⟨paddr, number, kept, grows _ _ placed, rest⟩

theorem within (sound : cursor.Sound owned place) (inside : cursor.va < cursor.barrierEnd) :
    owned (cursor.va / 4096) := (sound.shared sound.after inside).1

theorem current (sound : cursor.Sound owned place) (inside : cursor.va < cursor.barrierEnd) :
    ∃ paddr level, cursor.level = level + 1 ∧ cursor.path level = some paddr ∧
      place paddr = some (level + 1, cursor.va / 4096 / 512 ^ (level + 1)) := by
  obtain ⟨paddr, number, kept, placed, covers, _⟩ := sound.held (Nat.le_refl _) sound.order
  obtain ⟨level, same⟩ : ∃ level, cursor.level = level + 1 := ⟨cursor.level - 1, by have := sound.low; omega⟩
  rw [same] at kept placed covers
  rw [covers inside] at placed
  exact ⟨paddr, level, same, kept, placed⟩

variable {memory : Memory E} {node : PageTableNode E}

section

variable (sound : cursor.Sound owned place)
include sound

theorem curEntry_eq {paddr level : Nat} (same : cursor.level = level + 1) (kept : cursor.path level = some paddr)
    (found : memory.nodes paddr = some node) :
    cursor.curEntry memory = .ok ⟨node.ptes (cursor.va / 4096 / 512 ^ level % 512),
      cursor.va / 4096 / 512 ^ level % 512, paddr⟩ := by
  have bounds : level + 1 ≤ maxNrLevels := by
    have order := sound.order
    have high := sound.high
    omega
  have index : cursor.va / 4096 / 512 ^ level % 512 < nrSubpagePerHuge := mod_lt _ (by decide)
  rw [curEntry, same, guardAt_eq cursor (succ_pos level) bounds, bind_ok, succ_sub_one, kept]
  simp [unwrap, bind_ok, pteIndex_succ, Memory.entry_eq found index]

theorem pushLevel_sound [PteTrait E] (soundMemory : memory.Sound C owned addressable root place)
    {child level : Nat} (same : cursor.level = level + 1)
    (placed : place child = some (level, cursor.va / 4096 / 512 ^ level)) :
    cursor.pushLevel memory child =
      .ok { cursor with path := update cursor.path (level - 1) (some child), level := level } ∧
    Sound owned place
      { cursor with path := update cursor.path (level - 1) (some child), level := level } := by
  obtain ⟨node, found, levelChild⟩ := soundMemory.node placed
  have low := (soundMemory.tree.below placed).1
  have order := sound.order
  have high := sound.high
  have absent : cursor.path (level - 1) = none := sound.released low (by omega)
  constructor
  · rw [pushLevel, same, sub_ok (by omega), bind_ok, Memory.node_eq_ok.mpr found, bind_ok,
      Nat.add_sub_cancel, levelChild, guardAt_eq cursor low (by omega), absent]
    simp [assert, bind_ok, pure_eq_ok]
  · refine { sound with low := low, order := by simp only; omega, held := ?_, released := ?_ }
    · intro upper lower bound
      simp only at lower bound
      by_cases here : upper = level
      · subst here
        refine ⟨child, _, update_self _ _ _, placed, fun _ => rfl, ?_⟩
        intro guard
        simp only at guard
        omega
      · obtain ⟨paddr, number, kept, rest⟩ := sound.held (show cursor.level ≤ upper by omega) bound
        refine ⟨paddr, number, ?_, rest⟩
        exact (update_of_ne (by omega) _ _).trans kept
    · intro lower positive below
      simp only at below
      exact (update_of_ne (by omega) _ _).trans (sound.released positive (by omega))

theorem popLevel_sound (inner : cursor.level < cursor.guardLevel) :
    cursor.popLevel = .ok { cursor with
      path := update cursor.path (cursor.level - 1) none, level := cursor.level + 1 } ∧
    Sound owned place { cursor with
      path := update cursor.path (cursor.level - 1) none, level := cursor.level + 1 } := by
  have low := sound.low
  have high := sound.high
  obtain ⟨paddr, _, kept, _⟩ := sound.held (Nat.le_refl _) sound.order
  constructor
  · rw [popLevel, guardAt_eq cursor low (by omega), bind_ok, kept]
    simp [unwrap, assert, inner, bind_ok, pure_eq_ok]
  · refine { sound with low := succ_pos _, order := inner, held := ?_, released := ?_ }
    · intro upper lower bound
      simp only at lower bound
      obtain ⟨paddr, number, kept, rest⟩ := sound.held (show cursor.level ≤ upper by omega) bound
      refine ⟨paddr, number, ?_, rest⟩
      exact (update_of_ne (by omega) _ _).trans kept
    · intro lower positive below
      simp only at below
      by_cases here : lower = cursor.level
      · subst here
        exact update_self _ _ _
      · exact (update_of_ne (by omega) _ _).trans (sound.released positive (by omega))

theorem settle {va : Nat} (aligned : va % 4096 = 0) (after : cursor.barrierStart ≤ va)
    (serves : cursor.level = cursor.guardLevel ∨ (cursor.va < cursor.barrierEnd ∧
      va / 4096 / 512 ^ cursor.level = cursor.va / 4096 / 512 ^ cursor.level)) :
    Sound owned place { cursor with va := va } where
  __ := sound
  held := by
    intro level lower upper
    obtain ⟨paddr, number, kept, placed, covers, guard⟩ := sound.held lower upper
    refine ⟨paddr, number, kept, placed, ?_, guard⟩
    intro inside
    rcases serves with top | ⟨before, same⟩
    · have atGuard : level = cursor.guardLevel := by
        simp only at lower upper
        omega
      rw [guard atGuard, atGuard]
      exact (sound.shared after inside).2.symm
    · rw [covers before]
      exact (Radix.div_pow_mono lower same).symm
  aligned := aligned
  after := after

end

structure Moves (cursor moved : Cursor) : Prop where
  guardLevel : moved.guardLevel = cursor.guardLevel
  barrierStart : moved.barrierStart = cursor.barrierStart
  barrierEnd : moved.barrierEnd = cursor.barrierEnd

theorem Moves.trans {first second third : Cursor} (one : Moves first second) (two : Moves second third) :
    Moves first third :=
  ⟨two.guardLevel.trans one.guardLevel, two.barrierStart.trans one.barrierStart,
    two.barrierEnd.trans one.barrierEnd⟩

theorem popBoundary_sound (sound : cursor.Sound owned place) (inside : cursor.va < cursor.barrierEnd)
    {nextVa : Nat} (aligned : nextVa % 4096 = 0) (beyond : cursor.va < nextVa)
    (steps : nextVa / 4096 / 512 ^ (cursor.level - 1) = cursor.va / 4096 / 512 ^ (cursor.level - 1) + 1) :
    ∃ moved, cursor.popBoundary nextVa (cursor.guardLevel - cursor.level) = .ok moved ∧
      Sound owned place { moved with va := nextVa } ∧ Moves cursor moved := by
  have after : cursor.barrierStart ≤ nextVa := Nat.le_trans sound.after (Nat.le_of_lt beyond)
  generalize turns : cursor.guardLevel - cursor.level = count
  induction count generalizing cursor with
  | zero =>
    have order := sound.order
    exact ⟨cursor, rfl, sound.settle aligned after (.inl (by omega)), ⟨rfl, rfl, rfl⟩⟩
  | succ count ih =>
    obtain ⟨level, same⟩ : ∃ level, cursor.level = level + 1 :=
      ⟨cursor.level - 1, by have := sound.low; omega⟩
    rw [same, Nat.add_sub_cancel] at steps
    have digit : pteIndex nextVa cursor.level = (cursor.va / 4096 / 512 ^ level + 1) % 512 := by
      rw [same, pteIndex_succ, steps]
    rw [popBoundary, digit]
    by_cases boundary : (cursor.va / 4096 / 512 ^ level + 1) % 512 = 0
    · obtain ⟨popped, soundPopped⟩ := sound.popLevel_sound (by omega)
      rw [if_pos ⟨by omega, boundary⟩, popped, bind_ok]
      have carried : nextVa / 4096 / 512 ^ (level + 1) = cursor.va / 4096 / 512 ^ (level + 1) + 1 := by
        rw [Radix.div_pow_succ, Radix.div_pow_succ, steps, Radix.succ_div_carries boundary]
      obtain ⟨moved, ran, soundMoved, moves⟩ := ih soundPopped inside beyond
        (by simpa [same] using carried) after (by simp only; omega)
      exact ⟨moved, ran, soundMoved, { moves with }⟩
    · rw [if_neg (by tauto)]
      refine ⟨cursor, rfl, sound.settle aligned after (.inr ⟨inside, ?_⟩), ⟨rfl, rfl, rfl⟩⟩
      rw [same, Radix.div_pow_succ, Radix.div_pow_succ, steps, Radix.succ_div_stays boundary]

def entryEnd (cursor : Cursor) : Nat :=
  4096 * 512 ^ (cursor.level - 1) * (cursor.va / 4096 / 512 ^ (cursor.level - 1) + 1)

theorem va_lt_entryEnd (cursor : Cursor) : cursor.va < entryEnd cursor := by
  have size : 0 < 4096 * 512 ^ (cursor.level - 1) := Nat.mul_pos (by decide) (Nat.pow_pos (by decide))
  rw [entryEnd, Nat.div_div_eq_div_mul]
  exact lt_mul_div_succ cursor.va size

theorem entryEnd_aligned (cursor : Cursor) : entryEnd cursor % 4096 = 0 := by
  rw [entryEnd, mul_assoc, mul_mod_right]

theorem entryEnd_steps (cursor : Cursor) : entryEnd cursor / 4096 / 512 ^ (cursor.level - 1) =
    cursor.va / 4096 / 512 ^ (cursor.level - 1) + 1 := by
  rw [Nat.div_div_eq_div_mul, entryEnd, Nat.mul_div_cancel_left _ (Nat.mul_pos (by decide) (Nat.pow_pos (by decide)))]

section

variable (bounded : ∀ {page}, owned page → page < 512 ^ maxNrLevels)

include bounded

variable (sound : cursor.Sound owned place) (inside : cursor.va < cursor.barrierEnd)
include sound inside

theorem entryEnd_le : entryEnd cursor ≤ usizeMax := by
  have low := sound.low
  have order := sound.order
  have high := sound.high
  obtain ⟨depth, split⟩ := Nat.exists_eq_add_of_le (show cursor.level - 1 ≤ maxNrLevels by omega)
  have page := bounded (sound.within inside)
  rw [split, pow_add] at page
  have slot := Nat.div_lt_of_lt_mul page
  calc entryEnd cursor ≤ 4096 * 512 ^ (cursor.level - 1) * 512 ^ depth := mul_le_mul_left _ slot
    _ = 4096 * 512 ^ maxNrLevels := by rw [mul_assoc, ← pow_add, ← split]
    _ ≤ usizeMax := by decide

theorem curVaRange_eq : cursor.curVaRange = .ok (alignDown cursor.va (pageSize cursor.level), entryEnd cursor) := by
  obtain ⟨level, same⟩ : ∃ level, cursor.level = level + 1 := ⟨cursor.level - 1, by have := sound.low; omega⟩
  have total : alignDown cursor.va (pageSize cursor.level) + pageSize cursor.level = entryEnd cursor := by
    rw [entryEnd, same, alignDown_pageSize, pageSize_succ, Nat.add_sub_cancel, Nat.mul_add_one]
  have bound := entryEnd_le bounded sound inside
  rw [curVaRange, add_ok (by rw [total]; exact bound), bind_ok, total]
  rfl

theorem moveForward_sound :
    ∃ moved, cursor.moveForward = .ok moved ∧ moved.Sound owned place ∧ Moves cursor moved ∧
      moved.va = entryEnd cursor := by
  obtain ⟨moved, ran, soundMoved, moves⟩ := sound.popBoundary_sound inside (entryEnd_aligned cursor)
    (va_lt_entryEnd cursor) (entryEnd_steps cursor)
  refine ⟨{ moved with va := entryEnd cursor }, ?_, soundMoved, { moves with }, rfl⟩
  rw [moveForward, curVaRange_eq bounded sound inside, bind_ok]
  simp only [ran, bind_ok, pure_eq_ok]

end

theorem popToGuard_sound (sound : cursor.Sound owned place) :
    ∃ moved, cursor.popToGuard (cursor.guardLevel - cursor.level) = .ok moved ∧ moved.Sound owned place ∧
      Moves cursor moved ∧ moved.level = moved.guardLevel := by
  generalize turns : cursor.guardLevel - cursor.level = count
  induction count generalizing cursor with
  | zero =>
    have order := sound.order
    exact ⟨cursor, rfl, sound, ⟨rfl, rfl, rfl⟩, by omega⟩
  | succ count ih =>
    obtain ⟨popped, soundPopped⟩ := sound.popLevel_sound (by omega)
    obtain ⟨moved, ran, soundMoved, moves, top⟩ := ih soundPopped (by simp only; omega)
    refine ⟨moved, ?_, soundMoved, { moves with }, top⟩
    rw [popToGuard, if_pos (by omega), popped, bind_ok, ran]

theorem sameNode_iff (current va level : Nat) : (alignDown current (pageSize (level + 1)) ≤ va ∧
      va - alignDown current (pageSize (level + 1)) < pageSize (level + 1)) ↔
    va / 4096 / 512 ^ level = current / 4096 / 512 ^ level := by
  have size : 0 < 4096 * 512 ^ level := Nat.mul_pos (by decide) (Nat.pow_pos (by decide))
  rw [alignDown_pageSize, pageSize_succ, Nat.div_div_eq_div_mul, Nat.div_div_eq_div_mul]
  constructor
  · rintro ⟨lower, upper⟩
    apply Nat.div_eq_of_lt_le
    · rw [Nat.mul_comm]
      exact lower
    · rw [add_one_mul, mul_comm]
      omega
  · intro same
    have split := div_add_mod va (4096 * 512 ^ level)
    have rest := mod_lt va size
    rw [same] at split
    omega

theorem jumpLoop_sound (sound : cursor.Sound owned place) (inside : cursor.va < cursor.barrierEnd) {va : Nat}
    (aligned : va % 4096 = 0) (lower : cursor.barrierStart ≤ va) (upper : va < cursor.barrierEnd) {turns : Nat}
    (enough : cursor.guardLevel - cursor.level < turns) :
    ∃ moved, cursor.jumpLoop va turns = .ok moved ∧ moved.Sound owned place ∧ Moves cursor moved ∧
      moved.va = va := by
  induction turns generalizing cursor with
  | zero => omega
  | succ turns ih =>
    have order := sound.order
    rw [jumpLoop]
    by_cases same : va / 4096 / 512 ^ cursor.level = cursor.va / 4096 / 512 ^ cursor.level
    · rw [if_pos ((sameNode_iff cursor.va va cursor.level).mpr same)]
      exact ⟨_, rfl, sound.settle aligned lower (.inr ⟨inside, same⟩), ⟨rfl, rfl, rfl⟩, rfl⟩
    · have inner : cursor.level < cursor.guardLevel := by
        by_contra top
        have atGuard : cursor.level = cursor.guardLevel := by omega
        apply same
        rw [atGuard, (sound.shared lower upper).2, (sound.shared sound.after inside).2]
      obtain ⟨popped, soundPopped⟩ := sound.popLevel_sound inner
      obtain ⟨moved, ran, soundMoved, moves, there⟩ := ih soundPopped inside lower upper
        (by simp only; omega)
      rw [if_neg (fun hit => same ((sameNode_iff cursor.va va cursor.level).mp hit)), popped, bind_ok]
      exact ⟨moved, ran, soundMoved, { moves with }, there⟩

theorem jump_sound (sound : cursor.Sound owned place) (va : Nat) :
    Yields (cursor.jump va) fun (_, moved) => moved.Sound owned place := by
  refine (assert_yields _).bind ?_
  intro _ checked
  have aligned : va % 4096 = 0 := of_decide_eq_true checked
  split
  · exact sound
  rename_i contained
  rw [not_not] at contained
  split
  · obtain ⟨top, ran, soundTop, moves, atGuard⟩ := sound.popToGuard_sound
    rw [ran, bind_ok]
    exact soundTop.settle aligned (by rw [moves.barrierStart]; exact contained.1) (.inl atGuard)
  · refine (assert_yields _).bind ?_
    intro _ checked
    rw [Bool.and_eq_true, decide_eq_true_eq, decide_eq_true_eq] at checked
    obtain ⟨landed, ran, soundLanded, _⟩ := sound.jumpLoop_sound checked.2 aligned contained.1 contained.2
      (show cursor.guardLevel - cursor.level < maxNrLevels + 1 by have := sound.high; omega)
    rw [ran, bind_ok]
    exact soundLanded

section

variable [PteTrait E] (bounded : ∀ {page}, owned page → page < 512 ^ maxNrLevels)
  (soundMemory : memory.Sound C owned addressable root place)

include bounded soundMemory

theorem queryLoop_sound (sound : cursor.Sound owned place) (inside : cursor.va < cursor.barrierEnd)
    {turns : Nat} (enough : cursor.level < turns) :
    ∃ range moved, moved.Sound owned place ∧ cursor.queryLoop C memory turns =
      memory.shown C root (cursor.va / 4096) >>= fun item => .ok (range, item, moved) := by
  induction turns generalizing cursor with
  | zero => omega
  | succ turns ih =>
    obtain ⟨paddr, level, same, kept, placed⟩ := sound.current inside
    obtain ⟨node, found, _⟩ := soundMemory.node placed
    have range := curVaRange_eq bounded sound inside
    rw [queryLoop, sound.curEntry_eq same kept found, bind_ok,
      Entry.toRef_eq soundMemory (sound.within inside) placed found rfl]
    cases slot : memory.slots paddr (cursor.va / 4096 / 512 ^ level % 512) with
    | empty =>
      rw [Memory.shown, Memory.lookup, soundMemory.tree.lookup_empty placed slot]
      simp only [bind_ok, range, pure_eq_ok]
      exact ⟨_, cursor, sound, rfl⟩
    | leaf value =>
      obtain ⟨frame, prop⟩ := value
      rw [Memory.shown, Memory.lookup, soundMemory.tree.lookup_leaf placed slot]
      simp only [bind_assoc, pure_eq_ok, bind_ok, range]
      exact ⟨_, cursor, sound, rfl⟩
    | table child =>
      have below := soundMemory.tree.child (sound.within inside) placed slot
      obtain ⟨pushed, soundPushed⟩ := sound.pushLevel_sound soundMemory same below
      simp only [bind_ok, pushed]
      exact ih soundPushed inside (by simp only; omega)

def Finds (C : PageTableConfig Item) (owned : Nat → Prop) (root : Nat) (place : Nat → Option (Nat × Nat))
    (memory : Memory E) (stop : Nat) (cursor : Cursor) : Option Nat × Memory E × Cursor → Prop
  | (found, changed, moved) => changed = memory ∧ moved.Sound owned place ∧ Moves cursor moved ∧
      ∀ va, found = some va → moved.va < stop ∧ moved.level = 1 ∧
        ∃ frame prop, memory.lookup C root (moved.va / 4096) = some (1, frame, prop)

omit bounded soundMemory in
theorem Finds.after {stop : Nat} {forward : Cursor} {result : Option Nat × Memory E × Cursor}
    (finds : Finds C owned root place memory stop forward result) (moves : Moves cursor forward) :
    Finds C owned root place memory stop cursor result := by
  obtain ⟨same, soundMoved, onward, stops⟩ := finds
  exact ⟨same, soundMoved, moves.trans onward, stops⟩

/-- Without huge pages each turn goes down a level or on to a later page, of which there are at
most the given number. -/
theorem findNextLoop_sound (single : C.highestTranslationLevel = 1)
    (decodes : ∀ frame prop, C.itemFromRaw frame 1 prop ≠ .error .hang)
    (sound : cursor.Sound owned place) {stop : Nat} (aligned : stop % 4096 = 0)
    (limit : stop ≤ cursor.barrierEnd) (splitHuge : Bool) {turns : Nat}
    (enough : (stop - cursor.va) / 4096 * (maxNrLevels + 1) + cursor.level < turns) :
    Yields (cursor.findNextLoop C stop false splitHuge turns memory)
      (Finds C owned root place memory stop cursor) := by
  induction turns generalizing cursor with
  | zero => omega
  | succ turns ih =>
    rw [findNextLoop]
    by_cases more : cursor.va < stop
    · have inside : cursor.va < cursor.barrierEnd := by omega
      obtain ⟨paddr, level, same, kept, placed⟩ := sound.current inside
      obtain ⟨node, found, _⟩ := soundMemory.node placed
      obtain ⟨forward, ranForward, soundForward, movesForward, atEnd⟩ := moveForward_sound bounded sound inside
      have later : (stop - forward.va) / 4096 * (maxNrLevels + 1) + forward.level < turns := by
        have before := sound.aligned
        have behind := soundForward.aligned
        have beyond := va_lt_entryEnd cursor
        have low := sound.low
        have order := soundForward.order
        have high := soundForward.high
        rw [← atEnd] at beyond
        simp only [maxNrLevels] at *
        omega
      have onward := (ih soundForward (by rw [movesForward.barrierEnd]; exact limit) later).mono
        fun _ finds => finds.after movesForward
      rw [if_pos more, curVaRange_eq bounded sound inside, bind_ok]
      simp only [sound.curEntry_eq same kept found, bind_ok]
      rw [Entry.toRef_eq soundMemory (sound.within inside) placed found rfl]
      cases slot : memory.slots paddr (cursor.va / 4096 / 512 ^ level % 512) with
      | empty =>
        simp only [bind_ok, ranForward]
        exact onward
      | leaf value =>
        obtain ⟨frame, prop⟩ := value
        have last : level = 0 := by
          by_contra upper
          exact soundMemory.plain placed (by omega) slot
        subst last
        have fits : (decide (cursor.va = alignDown cursor.va (pageSize cursor.level)) &&
            decide (entryEnd cursor ≤ stop)) = true := by
          have before := sound.aligned
          have start := alignDown_pageSize cursor.va 0
          rw [Bool.and_eq_true, decide_eq_true_eq, decide_eq_true_eq, entryEnd, same, start]
          simp only [Nat.zero_add, Nat.sub_self, Nat.pow_zero, Nat.mul_one, Nat.div_one]
          omega
        simp only [bind_assoc, pure_eq_ok, bind_ok, fits, true_or, if_true]
        refine (yields_of_ends (decodes frame prop)).bind ?_
        rintro item -
        exact ⟨rfl, sound, ⟨rfl, rfl, rfl⟩, fun _ _ =>
          ⟨more, same, frame, prop, soundMemory.tree.lookup_leaf placed slot⟩⟩
      | table child =>
        have below := soundMemory.tree.child (sound.within inside) placed slot
        obtain ⟨childNode, foundChild, _⟩ := soundMemory.node below
        obtain ⟨pushed, soundPushed⟩ := sound.pushLevel_sound soundMemory same below
        simp only [bind_ok, Memory.node_eq_ok.mpr foundChild, Bool.false_eq_true, false_and, if_false]
        split
        · rw [pushed, bind_ok]
          exact (ih soundPushed limit (by simp only; omega)).mono fun _ finds => finds.after ⟨rfl, rfl, rfl⟩
        · rw [ranForward, bind_ok]
          exact onward
    · rw [if_neg more]
      exact ⟨rfl, sound, ⟨rfl, rfl, rfl⟩, by simp⟩

end

end Sound

end Cursor

end Kei.Mm
