import Kei.Mm.Navigation

/-! What the operations of a cursor do to the tables, for tables without huge pages: creating a
cursor allocates tables but shows the same pages, `map` adds a page and `protect_next`
changes one. -/

namespace Kei.Mm

open Library Checked PteTrait Memory.Sound Nat

namespace Cursor

variable {E Item : Type} [PteTrait E] {C : PageTableConfig Item} {owned addressable : Nat → Prop} {root : Nat}
  {place : Nat → Option (Nat × Nat)} {memory changed : Memory E} {cursor moved : Cursor}
  {readPaddr : Nat → Nat} {readProp : PageProperty → PageProperty}

section

variable (laws : PteLaws E C.highestTranslationLevel addressable readPaddr readProp)
  (single : C.highestTranslationLevel = 1)

include laws single

theorem adjustLevel_sound {turns : Nat} (soundMemory : memory.Sound C owned addressable root place)
    (sound : cursor.Sound owned place) (inside : cursor.va < cursor.barrierEnd) (enough : cursor.level ≤ turns) :
    Yields (cursor.adjustLevel C 1 turns memory) fun (changed, moved) =>
      ∃ wider, Extends C owned addressable root place memory wider changed ∧ moved.Sound owned wider ∧
        Sound.Moves cursor moved ∧ moved.va = cursor.va ∧ moved.level = 1 := by
  induction turns generalizing cursor memory place with
  | zero =>
    have low := sound.low
    omega
  | succ turns ih =>
    rw [adjustLevel]
    split
    · rename_i last
      exact ⟨place, .refl soundMemory, sound, ⟨rfl, rfl, rfl⟩, rfl, last⟩
    · rename_i upper
      have low := sound.low
      rw [if_neg (by omega)]
      obtain ⟨paddr, level, same, kept, placed⟩ := sound.current inside
      obtain ⟨node, found, levelNode⟩ := soundMemory.node placed
      rw [sound.curEntry_eq same kept found, bind_ok,
        Entry.toRef_eq soundMemory (sound.within inside) placed found rfl]
      cases slot : memory.slots paddr (cursor.va / 4096 / 512 ^ level % 512) with
      | leaf value => exact absurd slot (soundMemory.plain placed (by omega))
      | table child =>
        have below := soundMemory.tree.child (sound.within inside) placed slot
        obtain ⟨pushed, soundPushed⟩ := sound.pushLevel_sound soundMemory same below
        simp only [bind_ok, pushed]
        refine (ih soundMemory soundPushed inside (by simp only; omega)).mono ?_
        rintro ⟨_, _⟩ ⟨wider, extended, soundMoved, moves, there, last⟩
        exact ⟨wider, extended, soundMoved, { moves with }, there, last⟩
      | empty =>
        simp only [bind_ok]
        refine (Entry.allocIfNone_sound laws soundMemory (sound.within inside) placed found (by omega) rfl
          slot).bind ?_
        rintro ⟨_, larger⟩ ⟨child, wide, rfl, enlarged, hung⟩
        obtain ⟨pushed, soundPushed⟩ := (sound.mono enlarged.grows).pushLevel_sound enlarged.sound same hung
        simp only [unwrap, bind_ok, pushed]
        refine (ih enlarged.sound soundPushed inside (by simp only; omega)).mono ?_
        rintro ⟨_, _⟩ ⟨wider, extended, soundMoved, moves, there, last⟩
        exact ⟨wider, enlarged.trans extended, soundMoved, { moves with }, there, last⟩

variable (bounded : ∀ {page}, owned page → page < 512 ^ maxNrLevels)
  (decodes : ∀ frame prop, C.itemFromRaw frame 1 prop ≠ .error .hang)

include bounded decodes

theorem map_sound {item : Item} (base : (C.itemRawInfo item).2.1 = 1)
    (soundMemory : memory.Sound C owned addressable root place) (sound : cursor.Sound owned place) :
    Yields (cursor.map C memory item) fun (changed, moved) =>
      ∃ wider, Radix.Grows place wider ∧ changed.Sound C owned addressable root wider ∧
        moved.Sound owned wider ∧ moved.va = cursor.va + 4096 ∧ owned (cursor.va / 4096) ∧
        ∀ page, owned page → changed.lookup C root page = if page = cursor.va / 4096 then
            some (1, readPaddr (C.itemRawInfo item).1, readProp (C.itemRawInfo item).2.2)
          else memory.lookup C root page := by
  refine (assert_yields _).bind fun _ checked => ?_
  have inside : cursor.va < cursor.barrierEnd := of_decide_eq_true checked
  have enough : cursor.level ≤ maxNrLevels + 1 := by
    have order := sound.order
    have high := sound.high
    omega
  refine (assert_yields _).bind fun _ _ => ?_
  refine (assert_yields _).bind fun _ _ => ?_
  refine (add_yields _ _ _).bind fun stop _ => ?_
  refine (assert_yields _).bind fun _ _ => ?_
  rw [base]
  refine (adjustLevel_sound laws single soundMemory sound inside enough).bind ?_
  rintro ⟨extended, lowered⟩ ⟨wider, extension, soundLowered, moves, there, last⟩
  have insideLowered : lowered.va < lowered.barrierEnd := by
    rw [there, moves.barrierEnd]
    exact inside
  obtain ⟨paddr, level, same, kept, placed⟩ := soundLowered.current insideLowered
  obtain rfl : level = 0 := by omega
  obtain ⟨node, found, levelNode⟩ := extension.sound.node placed
  have current := soundLowered.curEntry_eq same kept found
  have within := soundLowered.within insideLowered
  simp only [replaceCurEntry, current, bind_ok, Entry.toRef_eq extension.sound within placed found rfl]
  cases slot : extended.slots paddr (lowered.va / 4096 / 512 ^ 0 % 512) with
  | table child =>
    have positive := (extension.sound.tree.below (extension.sound.tree.child within placed slot)).1
    omega
  | leaf value =>
    simp only [bind_assoc, pure_eq_ok, bind_ok]
    exact (yields_of_ends (decodes value.1 value.2)).bind fun _ _ => Panic.noConfusion
  | empty =>
    simp only [PteState.isAbsent, assert, if_true, bind_ok, bind_assoc]
    refine (Entry.replace_mapped_yields laws found (by omega) (by omega) slot).bind ?_
    rintro ⟨_, rewritten⟩ ⟨rfl, rewrites⟩
    obtain ⟨soundWritten, shows⟩ := extension.sound.rewrite_page (by omega) within placed rewrites
    obtain ⟨next, ranNext, soundNext, _, atNext⟩ := soundLowered.moveForward_sound bounded insideLowered
    simp only [pure_eq_ok, bind_ok, ranNext]
    refine ⟨wider, extension.grows, soundWritten, soundNext, ?_, sound.within inside, ?_⟩
    · have aligned := soundLowered.aligned
      rw [atNext, Sound.entryEnd, last, there]
      rw [there] at aligned
      simp only [Nat.sub_self, Nat.pow_zero, Nat.div_one]
      omega
    · intro page withinPage
      rw [shows page withinPage, there, extension.same withinPage]

omit laws in
theorem findNextImpl_sound (len : Nat) (splitHuge : Bool)
    (soundMemory : memory.Sound C owned addressable root place) (sound : cursor.Sound owned place) :
    Yields (cursor.findNextImpl C memory len false splitHuge) fun (found, changed, moved) =>
      changed = memory ∧ moved.Sound owned place ∧
      ∀ va, found = some va → moved.va < moved.barrierEnd ∧ moved.level = 1 ∧
        ∃ frame prop, memory.lookup C root (moved.va / 4096) = some (1, frame, prop) := by
  refine (assert_yields _).bind fun _ _ => ?_
  refine (add_yields _ _ _).bind fun stop ends => ?_
  refine (assert_yields _).bind fun _ limit => ?_
  refine (assert_yields _).bind fun _ aligned => ?_
  have limit : stop ≤ cursor.barrierEnd := of_decide_eq_true limit
  have pages : (stop - cursor.va) / 4096 = len / basePageSize := by
    rw [ends.2, Nat.add_sub_cancel_left, basePageSize]
  refine (Sound.findNextLoop_sound bounded soundMemory single decodes sound (of_decide_eq_true aligned) limit
    splitHuge (by rw [pages]; omega)).mono ?_
  rintro ⟨found, changed, moved⟩ ⟨same, soundMoved, moves, stops⟩
  refine ⟨same, soundMoved, fun va hit => ?_⟩
  obtain ⟨before, last, mapped⟩ := stops va hit
  have inside : moved.va < moved.barrierEnd := by
    rw [moves.barrierEnd]
    omega
  exact ⟨inside, last, mapped⟩

theorem protectNext_sound (len : Nat) (op : PageProperty → PageProperty)
    (soundMemory : memory.Sound C owned addressable root place) (sound : cursor.Sound owned place) :
    Yields (cursor.protectNext C memory len op) fun (result, changed, moved) =>
      changed.Sound C owned addressable root place ∧ moved.Sound owned place ∧ match result with
        | none => changed = memory
        | some (start, _) => start % 4096 = 0 ∧ owned (start / 4096) ∧
            ∃ frame prop shown, memory.lookup C root (start / 4096) = some (1, frame, prop) ∧
              ((op prop = prop ∧ shown = (frame, prop)) ∨ shown = (readPaddr frame, readProp (op prop))) ∧
              ∀ page, owned page → changed.lookup C root page =
                if page = start / 4096 then some (1, shown) else memory.lookup C root page := by
  refine (findNextImpl_sound single bounded decodes len true soundMemory sound).bind ?_
  rintro ⟨hit, same, stopped⟩ ⟨rfl, soundStopped, stops⟩
  cases hit with
  | none => exact ⟨soundMemory, soundStopped, rfl⟩
  | some va =>
    obtain ⟨inside, last, frame, prop, mapped⟩ := stops va rfl
    obtain ⟨paddr, level, sameLevel, kept, placed⟩ := soundStopped.current inside
    obtain rfl : level = 0 := by omega
    obtain ⟨node, found, levelNode⟩ := soundMemory.node placed
    have within := soundStopped.within inside
    have slot : same.slots paddr (stopped.va / 4096 / 512 ^ 0 % 512) = .leaf (frame, prop) := by
      rw [Memory.lookup, soundMemory.tree.lookup_place placed, Radix.lookup] at mapped
      split at mapped
      · cases mapped
      · cases mapped
        assumption
      · cases mapped
    have start : alignDown stopped.va (pageSize stopped.level) = stopped.va := by
      have aligned := soundStopped.aligned
      rw [sameLevel, alignDown_pageSize, Nat.pow_zero, Nat.div_one]
      omega
    obtain ⟨next, ranNext, soundNext, _, _⟩ := soundStopped.moveForward_sound bounded inside
    simp only [soundStopped.curEntry_eq sameLevel kept found, bind_ok,
      Sound.curVaRange_eq bounded soundStopped inside, ranNext, start]
    refine (Entry.protect_yields laws op found (by omega) (by omega) slot).bind ?_
    rintro written (⟨unchanged, rfl⟩ | rewrites)
    · refine ⟨soundMemory, soundNext, soundStopped.aligned, within, frame, prop, (frame, prop), mapped,
        .inl ⟨unchanged, rfl⟩, ?_⟩
      intro page _
      split
      · rename_i here
        rw [here, mapped]
      · rfl
    · obtain ⟨soundWritten, shows⟩ := soundMemory.rewrite_page (by omega) within placed rewrites
      exact ⟨soundWritten, soundNext, soundStopped.aligned, within, frame, prop, _, mapped, .inr rfl, shows⟩

end

section

variable (laws : PteLaws E C.highestTranslationLevel addressable readPaddr readProp)
  {start stop : Nat}

theorem subtreeRoot_eq (soundMemory : memory.Sound C owned addressable root place) {paddr : Nat} {spot : Nat × Nat}
    (placed : place paddr = some spot) : subtreeRoot memory paddr = .ok (some paddr, memory) := by
  obtain ⟨node, found, _⟩ := soundMemory.node placed
  simp [subtreeRoot, Memory.node_eq_ok.mpr found, bind_ok, soundMemory.live placed found, pure_eq_ok]

def Serves (start stop : Nat) (place : Nat → Option (Nat × Nat)) (paddr : Nat) (level : Nat) : Prop :=
  place paddr = some (level, start / 4096 / 512 ^ level) ∧
    (stop - 1) / 4096 / 512 ^ level = start / 4096 / 512 ^ level

include laws

theorem tryTraverse_sound {level paddr : Nat} (soundMemory : memory.Sound C owned addressable root place)
    (within : owned (start / 4096)) (serves : Serves start stop place paddr level) :
    Yields (tryTraverse C start stop level memory paddr) fun (subtree, changed) =>
      ∃ wider top upper, Extends C owned addressable root place memory wider changed ∧
        subtree = some top ∧ Serves start stop wider top upper := by
  induction level generalizing memory place paddr with
  | zero => exact absurd (soundMemory.tree.below serves.1).1 (by omega)
  | succ level ih =>
    have here : Yields (subtreeRoot memory paddr) fun (subtree, changed) =>
        ∃ wider top upper, Extends C owned addressable root place memory wider changed ∧
          subtree = some top ∧ Serves start stop wider top upper := by
      rw [subtreeRoot_eq soundMemory serves.1]
      exact ⟨place, paddr, _, .refl soundMemory, rfl, serves⟩
    obtain ⟨placed, covers⟩ := serves
    rw [tryTraverse]
    split
    · rename_i inner
      obtain ⟨node, found, levelNode⟩ := soundMemory.node placed
      rw [pteIndex_succ, pteIndex_succ] at inner
      have coversBelow : (stop - 1) / 4096 / 512 ^ level = start / 4096 / 512 ^ level := by
        rw [← Radix.div_pow_split, ← Radix.div_pow_split (start / 4096), covers, inner.2]
      have reads := Memory.slots_of_node found (start / 4096 / 512 ^ level % 512)
      have index : start / 4096 / 512 ^ level % 512 < nrSubpagePerHuge := mod_lt _ (by decide)
      simp only [pteIndex_succ, Memory.node_eq_ok.mpr found, bind_ok]
      cases scalar : toRepr (node.ptes (start / 4096 / 512 ^ level % 512)) (level + 1) with
      | mapped frame prop => exact here
      | pageTable child flags =>
        rw [levelNode, scalar] at reads
        exact ih soundMemory ⟨soundMemory.tree.child within placed reads, coversBelow⟩
      | absent =>
        rw [levelNode, scalar] at reads
        simp only [soundMemory.live placed found, Bool.false_eq_true, if_false,
          Memory.entry_eq found index, bind_ok, Entry.toRef_eq soundMemory within placed found rfl, reads,
          PteScalar.slot]
        refine (Entry.allocIfNone_sound laws soundMemory within placed found (by omega) rfl reads).bind ?_
        rintro ⟨_, larger⟩ ⟨child, wide, rfl, enlarged, hung⟩
        simp only [unwrap, bind_ok]
        refine (ih enlarged.sound ⟨hung, coversBelow⟩).mono ?_
        rintro ⟨_, _⟩ ⟨wider, top, upper, extended, isTop, serves⟩
        exact ⟨wider, top, upper, enlarged.trans extended, isTop, serves⟩
    · exact here

theorem new_sound (height : C.nrLevels ≤ maxNrLevels) (start stop : Nat)
    (checks : Yields (isValidRange C start stop) fun valid => valid = true → start < stop →
      ∀ va, start ≤ va → va < stop → owned (va / 4096))
    (soundMemory : memory.Sound C owned addressable root place) :
    Yields (new C memory root start stop) fun (result, changed) =>
      ∃ wider, Extends C owned addressable root place memory wider changed ∧
        ∀ cursor, result = .ok cursor → cursor.Sound owned wider := by
  refine checks.bind fun valid ranges => ?_
  split
  · exact ⟨place, .refl soundMemory, by simp⟩
  split
  · exact ⟨place, .refl soundMemory, by simp⟩
  rename_i proper aligned
  rw [not_or, Bool.not_eq_true', Bool.not_eq_false] at proper
  rw [not_or, not_not, not_not] at aligned
  have owns := ranges proper.1 (by omega)
  have inTop {va : Nat} (after : start ≤ va) (before : va < stop) : va / 4096 / 512 ^ C.nrLevels = 0 :=
    div_eq_of_lt (soundMemory.tree.fits (owns va after before))
  have serves : Serves start stop place root C.nrLevels := by
    rw [Serves, inTop (Nat.le_refl _) (by omega), inTop (by omega) (by omega)]
    exact ⟨soundMemory.tree.top, rfl⟩
  rw [lockRange, bind_assoc]
  refine (tryTraverse_sound laws soundMemory (owns start (Nat.le_refl _) (by omega)) serves).bind ?_
  rintro ⟨_, locked⟩ ⟨wider, top, upper, extended, rfl, placed, covers⟩
  obtain ⟨node, found, levelNode⟩ := extended.sound.node placed
  obtain ⟨low, high⟩ := extended.sound.tree.below placed
  simp only [Memory.node_eq_ok.mpr found, bind_ok, levelNode, pure_eq_ok]
  refine ⟨wider, extended, ?_⟩
  rintro _ ⟨⟩
  refine ⟨low, Nat.le_refl _, by simp only; omega, ?_, ?_, aligned.1, Nat.le_refl _, aligned.1, aligned.2, ?_⟩
  · intro level lower bound
    simp only at lower bound
    obtain rfl : level = upper := by omega
    exact ⟨top, _, by simp, placed, fun _ => rfl, fun _ => rfl⟩
  · intro level positive below
    simp only at below
    have apart : level - 1 ≠ upper - 1 := by omega
    simp [Function.update_of_ne apart]
  · intro va after before
    simp only at after before ⊢
    refine ⟨owns va after before, ?_⟩
    apply Nat.le_antisymm
    · rw [← covers]
      exact Nat.div_le_div_right (Nat.div_le_div_right (by omega))
    · exact Nat.div_le_div_right (Nat.div_le_div_right after)

end

end Cursor

end Kei.Mm
