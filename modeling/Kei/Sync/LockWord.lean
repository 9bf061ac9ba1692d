import Mathlib.Data.BitVec

/-! The word of a reader-writer lock: three flags above a count of readers. -/

namespace Kei.Sync

open BitVec

abbrev Word : Type := BitVec 64

def reader : Word := 1

def writer : Word := 1 <<< 63

def upgradeableReader : Word := 1 <<< 62

def beingUpgraded : Word := 1 <<< 61

def maxReader : Word := 1 <<< 60

def pack (writing upreading upgrading : Bool) (readers : Nat) : Word :=
  BitVec.cons writing (BitVec.cons upreading (BitVec.cons upgrading (BitVec.ofNat 61 readers)))

variable {writing upreading upgrading : Bool} {readers : Nat}

theorem getLsbD_pack (place : Nat) : (pack writing upreading upgrading readers).getLsbD place =
      if place = 63 then writing else if place = 62 then upreading else if place = 61 then upgrading
      else (BitVec.ofNat 61 readers).getLsbD place := by
  simp only [pack, getLsbD_cons]

theorem toNat_pack (bound : readers < 2 ^ 61) : (pack writing upreading upgrading readers).toNat =
      writing.toNat * 2 ^ 63 + upreading.toNat * 2 ^ 62 + upgrading.toNat * 2 ^ 61 + readers := by
  simp only [pack, toNat_cons', Nat.shiftLeft_eq, toNat_ofNat]
  omega

theorem writer_eq : writer = twoPow 64 63 := by decide

theorem upgradeableReader_eq : upgradeableReader = twoPow 64 62 := by decide

theorem beingUpgraded_eq : beingUpgraded = twoPow 64 61 := by decide

theorem maxReader_eq : maxReader = twoPow 64 60 := by decide

theorem and_eq_zero_iff {word mask : Word} :
    word &&& mask = 0 ↔ ∀ place, place < 64 → mask.getLsbD place = true → word.getLsbD place = false := by
  constructor
  · intro none place _ masked
    have bit : (word &&& mask).getLsbD place = false := by
      rw [none]
      exact getLsbD_zero
    rw [getLsbD_and, masked, Bool.and_true] at bit
    exact bit
  · intro apart
    apply eq_of_getLsbD_eq
    intro place bound
    rw [getLsbD_and]
    cases masked : mask.getLsbD place with
    | false => simp
    | true => simp [apart place bound masked]

theorem pack_and_read (bound : readers < 2 ^ 61) :
    pack writing upreading upgrading readers &&& (writer ||| beingUpgraded ||| maxReader) = 0 ↔
      writing = false ∧ upgrading = false ∧ readers < 2 ^ 60 := by
  have sentinel : (BitVec.ofNat 61 readers).getLsbD 60 = false ↔ readers < 2 ^ 60 := by
    rw [getLsbD_ofNat, Nat.testBit_eq_decide_div_mod_eq]
    simp only [Bool.and_eq_false_iff, decide_eq_false_iff_not]
    omega
  rw [and_eq_zero_iff, ← sentinel, writer_eq, beingUpgraded_eq, maxReader_eq]
  simp only [getLsbD_or, getLsbD_twoPow, getLsbD_pack]
  constructor
  · intro apart
    exact ⟨apart 63 (by decide) (by decide), apart 61 (by decide) (by decide), apart 60 (by decide) (by decide)⟩
  · rintro ⟨noWriter, noUpgrade, few⟩ place bound masked
    have one : place = 63 ∨ place = 61 ∨ place = 60 := by grind
    rcases one with rfl | rfl | rfl
    · exact noWriter
    · exact noUpgrade
    · exact few

theorem pack_and_flags :
    pack writing upreading upgrading readers &&& (writer ||| upgradeableReader) =
      pack writing upreading false 0 := by
  apply eq_of_getLsbD_eq
  intro place bound
  rw [writer_eq, upgradeableReader_eq, getLsbD_and, getLsbD_or, getLsbD_twoPow,
    getLsbD_twoPow, getLsbD_pack, getLsbD_pack]
  have empty : (BitVec.ofNat 61 0).getLsbD place = false := BitVec.getLsbD_zero
  grind

theorem pack_or_upgradeableReader :
    pack writing upreading upgrading readers ||| upgradeableReader = pack writing true upgrading readers := by
  apply eq_of_getLsbD_eq
  intro place bound
  rw [upgradeableReader_eq, getLsbD_or, getLsbD_twoPow, getLsbD_pack, getLsbD_pack]
  grind

theorem pack_or_beingUpgraded :
    pack writing upreading upgrading readers ||| beingUpgraded = pack writing upreading true readers := by
  apply eq_of_getLsbD_eq
  intro place bound
  rw [beingUpgraded_eq, getLsbD_or, getLsbD_twoPow, getLsbD_pack, getLsbD_pack]
  grind

theorem pack_and_not_writer :
    pack writing upreading upgrading readers &&& ~~~writer = pack false upreading upgrading readers := by
  apply eq_of_getLsbD_eq
  intro place bound
  rw [writer_eq, getLsbD_and, getLsbD_not, getLsbD_twoPow, getLsbD_pack, getLsbD_pack]
  grind

theorem pack_add_reader (bound : readers + 1 < 2 ^ 61) :
    pack writing upreading upgrading readers + reader = pack writing upreading upgrading (readers + 1) := by
  apply eq_of_toNat_eq
  rw [toNat_add, toNat_pack (by omega), toNat_pack bound]
  have one : reader.toNat = 1 := rfl
  cases writing <;> cases upreading <;> cases upgrading <;> simp only [Bool.toNat_true, Bool.toNat_false] <;> omega

theorem pack_sub_reader (bound : readers + 1 < 2 ^ 61) :
    pack writing upreading upgrading (readers + 1) - reader = pack writing upreading upgrading readers := by
  rw [← pack_add_reader bound, add_sub_cancel]

theorem pack_sub_upgradeableReader (bound : readers < 2 ^ 61) :
    pack writing true upgrading readers - upgradeableReader = pack writing false upgrading readers := by
  have add : pack writing false upgrading readers + upgradeableReader = pack writing true upgrading readers := by
    apply eq_of_toNat_eq
    rw [toNat_add, toNat_pack bound, toNat_pack bound]
    have bit : upgradeableReader.toNat = 2 ^ 62 := rfl
    cases writing <;> cases upgrading <;> simp only [Bool.toNat_true, Bool.toNat_false] <;> omega
  rw [← add, add_sub_cancel]

theorem pack_inj {writing' upreading' upgrading' : Bool} {readers' : Nat} (bound : readers < 2 ^ 61)
    (bound' : readers' < 2 ^ 61)
    (same : pack writing upreading upgrading readers = pack writing' upreading' upgrading' readers') :
    writing = writing' ∧ upreading = upreading' ∧ upgrading = upgrading' ∧ readers = readers' := by
  have numbers := congrArg BitVec.toNat same
  rw [toNat_pack bound, toNat_pack bound'] at numbers
  cases writing <;> cases upreading <;> cases upgrading <;> cases writing' <;> cases upreading' <;>
    cases upgrading' <;> simp only [Bool.toNat_true, Bool.toNat_false] at numbers <;> grind

def packed (writing upreading upgrading readers : Nat) : Word :=
  pack (decide (0 < writing)) (decide (0 < upreading)) (decide (0 < upgrading)) readers

section Packed

variable {w u b r w' u' b' r' : Nat}

theorem packed_congr (one : 0 < w ↔ 0 < w') (two : 0 < u ↔ 0 < u') (three : 0 < b ↔ 0 < b') (four : r = r') :
    packed w u b r = packed w' u' b' r' := by
  simp only [packed, one, two, three, four]

theorem packed_eq_iff (bound : r < 2 ^ 61) (bound' : r' < 2 ^ 61) :
    packed w u b r = packed w' u' b' r' ↔ (0 < w ↔ 0 < w') ∧ (0 < u ↔ 0 < u') ∧
      (0 < b ↔ 0 < b') ∧ r = r' := by
  constructor
  · intro same
    have parts := pack_inj bound bound' same
    simpa only [decide_eq_decide] using parts
  · rintro ⟨one, two, three, four⟩
    exact packed_congr one two three four

theorem packed_zero : packed 0 0 0 0 = 0 := by decide

theorem packed_writer : packed 1 0 0 0 = writer := by decide

theorem packed_upgradeableReader : packed 0 1 0 0 = upgradeableReader := by decide

theorem packed_upgrading : packed 0 1 1 0 = upgradeableReader ||| beingUpgraded := by decide

theorem packed_upgraded : packed 1 1 0 0 = writer ||| upgradeableReader := by decide

theorem packed_and_read (bound : r < 2 ^ 61) :
    packed w u b r &&& (writer ||| beingUpgraded ||| maxReader) = 0 ↔ w = 0 ∧ b = 0 ∧ r < 2 ^ 60 := by
  rw [packed, pack_and_read bound, decide_eq_false_iff_not, decide_eq_false_iff_not]
  omega

theorem packed_and_flags : packed w u b r &&& (writer ||| upgradeableReader) = packed w u 0 0 := by
  rw [packed, pack_and_flags]
  rfl

theorem packed_or_upgradeableReader : packed w u b r ||| upgradeableReader = packed w 1 b r := by
  rw [packed, pack_or_upgradeableReader]
  rfl

theorem packed_or_beingUpgraded : packed w u b r ||| beingUpgraded = packed w u 1 r := by
  rw [packed, pack_or_beingUpgraded]
  rfl

theorem packed_and_not_writer : packed w u b r &&& ~~~writer = packed 0 u b r := by
  rw [packed, pack_and_not_writer]
  rfl

theorem packed_add_reader (bound : r + 1 < 2 ^ 61) : packed w u b r + reader = packed w u b (r + 1) :=
  pack_add_reader bound

theorem packed_sub_reader (some : 0 < r) (bound : r < 2 ^ 61) : packed w u b r - reader = packed w u b (r - 1) := by
  obtain ⟨less, rfl⟩ := Nat.exists_eq_succ_of_ne_zero (Nat.pos_iff_ne_zero.1 some)
  exact pack_sub_reader bound

theorem packed_sub_upgradeableReader (some : 0 < u) (bound : r < 2 ^ 61) :
    packed w u b r - upgradeableReader = packed w 0 b r := by
  rw [packed, decide_eq_true some]
  exact pack_sub_upgradeableReader bound

end Packed

end Kei.Sync
