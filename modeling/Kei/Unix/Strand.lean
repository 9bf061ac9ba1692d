import Kei.Unix.RingRules

/-! The unread bytes of a channel, cut where the auxiliary data changes. The positions in the
queue of auxiliary data are those of the pieces, so the two stay aligned. -/

namespace Kei.Unix

open Library Checked Kei.Spsc
open List hiding all

variable {φ κ : Type}

structure Piece (φ κ : Type) where
  data : AuxiliaryData φ κ
  bytes : List UInt8
  after : List UInt8

open Piece

structure Strand (φ κ : Type) where
  gap : List UInt8
  pieces : List (Piece φ κ)

def Piece.all (piece : Piece φ κ) : List UInt8 := piece.bytes ++ piece.after

def Strand.bytes (strand : Strand φ κ) : List UInt8 := strand.gap ++ strand.pieces.flatMap all

def place (position : BitVec 64) (gap : List UInt8) : List (Piece φ κ) → List (RangedAuxiliaryData φ κ)
  | [] => []
  | piece :: pieces =>
    let start := position + BitVec.ofNat 64 gap.length
    let stop := start + BitVec.ofNat 64 piece.bytes.length
    ⟨piece.data, start, stop⟩ :: place stop piece.after pieces

namespace Channel

structure Carries (channel : Channel φ κ) (strand : Strand φ κ) : Prop where
  holds : Holds channel.ring strand.bytes
  allAux : channel.allAux = place channel.ring.head strand.gap strand.pieces
  hasAux : channel.hasAux = !channel.allAux.isEmpty

end Channel

theorem add_ofNat (position : BitVec 64) (first second : Nat) :
    position + BitVec.ofNat 64 first + BitVec.ofNat 64 second = position + BitVec.ofNat 64 (first + second) := by
  rw [add_assoc, BitVec.ofNat_add]

theorem toNat_add_sub (position : BitVec 64) (count : Nat) (small : count < 2 ^ 64) :
    (position + BitVec.ofNat 64 count - position).toNat = count := by
  rw [add_sub_cancel_left, BitVec.toNat_ofNat, Nat.mod_eq_of_lt small]

theorem toNat_sub_of_le (position : BitVec 64) {first second : Nat} (order : first ≤ second)
    (small : second < 2 ^ 64) :
    (position + BitVec.ofNat 64 second - (position + BitVec.ofNat 64 first)).toNat = second - first := by
  obtain ⟨more, rfl⟩ := Nat.exists_eq_add_of_le order
  rw [← add_ofNat, toNat_add_sub _ _ (by omega), Nat.add_sub_cancel_left]

theorem place_drop (position : BitVec 64) {gap : List UInt8} {count : Nat} (enough : count ≤ gap.length)
    (pieces : List (Piece φ κ)) :
    place (position + BitVec.ofNat 64 count) (gap.drop count) pieces = place position gap pieces := by
  cases pieces with
  | nil => rfl
  | cons piece pieces =>
    have same : position + BitVec.ofNat 64 count + BitVec.ofNat 64 (gap.drop count).length =
        position + BitVec.ofNat 64 gap.length := by
      rw [add_ofNat, length_drop, Nat.add_sub_cancel' enough]
    rw [place, place, same]

theorem place_cons (base : BitVec 64) (skip : Nat) (gap : List UInt8) (piece : Piece φ κ)
    (pieces : List (Piece φ κ)) :
    place (base + BitVec.ofNat 64 skip) gap (piece :: pieces) =
      ⟨piece.data, base + BitVec.ofNat 64 (skip + gap.length),
        base + BitVec.ofNat 64 (skip + gap.length + piece.bytes.length)⟩ ::
      place (base + BitVec.ofNat 64 (skip + gap.length + piece.bytes.length)) piece.after pieces := by
  rw [place, add_ofNat, add_ofNat]

/-- What a read has gone through: so many pieces and bytes, the data of the last piece, and the
strand that is left. Only the last piece may have files. -/
inductive Takes (isShutdown : Bool) :
    List UInt8 → List (Piece φ κ) → Nat → Nat → Option (AuxiliaryData φ κ) → Strand φ κ → Prop
  | gap {gap : List UInt8} {pieces : List (Piece φ κ)} {len : Nat} (inside : len ≤ gap.length) :
    Takes isShutdown gap pieces 0 len none ⟨gap.drop len, pieces⟩
  | part {gap : List UInt8} {piece : Piece φ κ} {pieces : List (Piece φ κ)} {len : Nat}
    (inside : len < piece.bytes.length) (began : 0 < len ∨ isShutdown = true) :
    Takes isShutdown gap (piece :: pieces) 1 (gap.length + len) (some piece.data)
      ⟨[], ⟨{ piece.data with files := [] }, piece.bytes.drop len, piece.after⟩ :: pieces⟩
  | whole {gap : List UInt8} {piece : Piece φ κ} {pieces : List (Piece φ κ)} :
    Takes isShutdown gap (piece :: pieces) 1 (gap.length + piece.bytes.length) (some piece.data)
      ⟨piece.after, pieces⟩
  | next {gap : List UInt8} {piece : Piece φ κ} {pieces : List (Piece φ κ)} {count len : Nat}
    {last : Option (AuxiliaryData φ κ)} {rest : Strand φ κ} (quiet : piece.data.files = [])
    (takes : Takes isShutdown piece.after pieces count len last rest) :
    Takes isShutdown gap (piece :: pieces) (count + 1) (gap.length + (piece.bytes.length + len))
      (last.or (some piece.data)) rest

namespace Takes

variable {isShutdown : Bool} {gap : List UInt8} {pieces : List (Piece φ κ)} {count len : Nat}
  {last : Option (AuxiliaryData φ κ)} {rest : Strand φ κ}

theorem bytes_eq (takes : Takes isShutdown gap pieces count len last rest) :
    rest.bytes = (gap ++ pieces.flatMap all).drop len := by
  induction takes with
  | gap inside => rw [drop_append_of_le_length inside, Strand.bytes]
  | part inside began =>
    rw [drop_length_add_append, flatMap_cons, all, append_assoc,
      drop_append_of_le_length inside.le, Strand.bytes, nil_append, flatMap_cons, all,
      append_assoc]
  | whole => rw [drop_length_add_append, flatMap_cons, all, append_assoc, drop_left, Strand.bytes]
  | next quiet takes ih =>
    rw [drop_length_add_append, flatMap_cons, all, append_assoc, drop_length_add_append, ih]

theorem len_le (takes : Takes isShutdown gap pieces count len last rest) :
    len ≤ (gap ++ pieces.flatMap all).length := by
  induction takes with
  | gap inside =>
    rw [length_append]
    omega
  | part inside began =>
    simp only [length_append, flatMap_cons, all]
    omega
  | whole =>
    simp only [length_append, flatMap_cons, all]
    omega
  | next quiet takes ih =>
    simp only [length_append, flatMap_cons, all] at *
    omega

theorem place_zero (takes : Takes isShutdown gap pieces 0 len last rest) (position : BitVec 64) :
    place (position + BitVec.ofNat 64 len) rest.gap rest.pieces = place position gap pieces ∧ last = none := by
  cases takes with
  | gap inside => exact ⟨place_drop position inside pieces, rfl⟩

/-- The last piece a read has come to, by its first and last position counted from `base`. -/
theorem place_last (takes : Takes isShutdown gap pieces (count + 1) len last rest) (base : BitVec 64) (skip : Nat) :
    ∃ data first stop, (place (base + BitVec.ofNat 64 skip) gap pieces)[count]? =
        some ⟨data, base + BitVec.ofNat 64 first, base + BitVec.ofNat 64 stop⟩ ∧
      last = some data ∧ first ≤ skip + len ∧ first ≤ stop ∧
        stop ≤ skip + (gap ++ pieces.flatMap all).length ∧
      place (base + BitVec.ofNat 64 (skip + len)) rest.gap rest.pieces =
        if stop ≤ skip + len then (place (base + BitVec.ofNat 64 skip) gap pieces).drop (count + 1)
        else ⟨{ data with files := [] }, base + BitVec.ofNat 64 (skip + len), base + BitVec.ofNat 64 stop⟩ ::
          (place (base + BitVec.ofNat 64 skip) gap pieces).drop (count + 1) := by
  generalize total : count + 1 = number at takes
  induction takes generalizing count skip with
  | gap inside => exact absurd total (Nat.succ_ne_zero count)
  | @part gap piece pieces len inside began =>
    obtain rfl : count = 0 := Nat.succ.inj total
    have upTo : skip + (gap.length + len) + ([] : List UInt8).length + (piece.bytes.drop len).length =
        skip + gap.length + piece.bytes.length := by
      rw [length_nil, length_drop]
      omega
    simp only [length_append, flatMap_cons, all, place_cons]
    refine ⟨_, _, _, rfl, rfl, by omega, Nat.le_add_right _ _, by omega, ?_⟩
    rw [if_neg (by omega), upTo]
    rfl
  | @whole gap piece pieces =>
    obtain rfl : count = 0 := Nat.succ.inj total
    simp only [length_append, flatMap_cons, all, place_cons, ← Nat.add_assoc]
    refine ⟨_, _, _, rfl, rfl, by omega, Nat.le_add_right _ _, by omega, ?_⟩
    rw [if_pos (by omega)]
    rfl
  | @next gap piece pieces inner len last rest quiet takes ih =>
    obtain rfl : count = inner := Nat.succ.inj total
    simp only [length_append, flatMap_cons, all, place_cons, ← Nat.add_assoc] at ih ⊢
    cases count with
    | zero =>
      obtain ⟨same, rfl⟩ := takes.place_zero (base + BitVec.ofNat 64 (skip + gap.length + piece.bytes.length))
      refine ⟨_, _, _, rfl, rfl, by omega, Nat.le_add_right _ _, by omega, ?_⟩
      rw [if_pos (by omega), ← add_ofNat, same]
      rfl
    | succ count =>
      obtain ⟨data, first, stop, found, rfl, began, order, inside, left⟩ :=
        ih (skip + gap.length + piece.bytes.length) rfl
      exact ⟨data, first, stop, found, rfl, began, order, by omega, left⟩

theorem place_succ (takes : Takes isShutdown gap pieces (count + 1) len last rest) (base : BitVec 64)
    (small : (gap ++ pieces.flatMap all).length < 2 ^ 64) :
    ∃ aux, (place base gap pieces)[count]? = some aux ∧ last = some aux.data ∧
      (aux.start - base).toNat ≤ len ∧
      place (base + BitVec.ofNat 64 len) rest.gap rest.pieces =
        if (aux.stop - base).toNat ≤ len then (place base gap pieces).drop (count + 1)
        else ⟨{ aux.data with files := [] }, base + BitVec.ofNat 64 len, aux.stop⟩ ::
          (place base gap pieces).drop (count + 1) := by
  obtain ⟨data, first, stop, found, own, began, order, inside, left⟩ := takes.place_last base 0
  rw [Nat.zero_add] at began inside left
  rw [show base + BitVec.ofNat 64 0 = base from BitVec.add_zero base] at found left
  refine ⟨_, found, own, ?_⟩
  rw [toNat_add_sub base first (by omega), toNat_add_sub base stop (by omega)]
  exact ⟨began, left⟩

end Takes

end Kei.Unix
