import Mathlib.Algebra.Group.Nat.Defs
import Mathlib.Data.List.Basic

/-! Self-delimiting byte formats. Decoding an encoding gives the value and leaves what
follows, and an encoding that ends too early is an error, so formats can be put one
after another and every strict prefix of an encoding is rejected. -/

namespace Library

open List

structure Format (ε α : Type) where
  encode : α → List UInt8
  decode : List UInt8 → Except ε (α × List UInt8)
  complete : ∀ value rest, decode (encode value ++ rest) = .ok (value, rest)
  short : ∀ value cut, cut <+: encode value → cut ≠ encode value → ∃ error, decode cut = .error error

namespace Format

variable {ε α β : Type}

def byte (ended : ε) : Format ε UInt8 where
  encode value := [value]
  decode
    | [] => .error ended
    | value :: rest => .ok (value, rest)
  complete value rest := rfl
  short value cut within strict := by
    cases cut with
    | nil => exact ⟨ended, rfl⟩
    | cons first rest =>
      have same := within.eq_of_length_le (by simp)
      exact absurd same strict

theorem prefix_append_cases {cut left right : List UInt8} (within : cut <+: left ++ right) :
    (cut <+: left ∧ cut ≠ left) ∨ ∃ tail, cut = left ++ tail ∧ tail <+: right := by
  obtain ⟨more, joined⟩ := within
  rcases append_eq_append_iff.mp joined with ⟨middle, rfl, _⟩ | ⟨middle, rfl, split⟩
  · by_cases empty : middle = []
    · subst empty
      exact Or.inr ⟨[], by simp, nil_prefix⟩
    · refine Or.inl ⟨prefix_append _ _, ?_⟩
      intro same
      exact empty (self_eq_append_right.mp same)
  · exact Or.inr ⟨middle, rfl, more, split.symm⟩

def pair (first : Format ε α) (second : Format ε β) : Format ε (α × β) where
  encode value := first.encode value.1 ++ second.encode value.2
  decode bytes := do
    let (left, bytes) ← first.decode bytes
    let (right, bytes) ← second.decode bytes
    return ((left, right), bytes)
  complete value rest := by
    simp only [append_assoc, first.complete, second.complete, bind, Except.bind]
    rfl
  short value cut within strict := by
    rcases prefix_append_cases within with ⟨inside, shorter⟩ | ⟨tail, rfl, inside⟩
    · obtain ⟨error, failed⟩ := first.short value.1 cut inside shorter
      exact ⟨error, by simp [failed, bind, Except.bind]⟩
    · have shorter : tail ≠ second.encode value.2 := by
        rintro rfl
        exact strict rfl
      obtain ⟨error, failed⟩ := second.short value.2 tail inside shorter
      exact ⟨error, by simp [first.complete, failed, bind, Except.bind]⟩

def convert (format : Format ε α) (invalid : ε) (toRaw : β → α) (ofRaw : α → Option β)
    (law : ∀ value, ofRaw (toRaw value) = some value) : Format ε β where
  encode value := format.encode (toRaw value)
  decode bytes := do
    let (raw, bytes) ← format.decode bytes
    match ofRaw raw with
    | some value => return (value, bytes)
    | none => throw invalid
  complete value rest := by
    simp only [format.complete, bind, Except.bind, law]
    rfl
  short value cut within strict := by
    obtain ⟨error, failed⟩ := format.short (toRaw value) cut within strict
    exact ⟨error, by simp [failed, bind, Except.bind]⟩

/-! Numbers in base 128, lowest digit first, with a mark on every digit but the last. -/

def varintEncode : Nat → Nat → List UInt8
  | 0, _ => []
  | digits + 1, value =>
    if value < 128 then [UInt8.ofNat value]
    else UInt8.ofNat (value % 128 + 128) :: varintEncode digits (value / 128)

def varintDecode (ended bad : ε) : Nat → List UInt8 → Except ε (Nat × List UInt8)
  | 0, _ => .error bad
  | _ + 1, [] => .error ended
  | digits + 1, digit :: rest =>
    if digit.toNat < 128 then .ok (digit.toNat, rest)
    else do
      let (high, rest) ← varintDecode ended bad digits rest
      return (digit.toNat - 128 + 128 * high, rest)

theorem varintEncode_length_le (digits value : Nat) : (varintEncode digits value).length ≤ digits := by
  induction digits generalizing value with
  | zero => simp [varintEncode]
  | succ digits ih =>
    simp only [varintEncode]
    split
    · simp
    · have := ih (value / 128)
      simp only [length_cons]
      omega

theorem marked_digit (value : Nat) : (UInt8.ofNat (value % 128 + 128)).toNat = value % 128 + 128 := by
  rw [UInt8.toNat_ofNat']
  omega

theorem varintEncode_step (digits value : Nat) (bound : value < 128 ^ (digits + 1)) :
    (value < 128 ∧ varintEncode (digits + 1) value = [UInt8.ofNat value]) ∨
      (128 ≤ value ∧ 0 < digits ∧ value / 128 < 128 ^ digits ∧ varintEncode (digits + 1) value =
          UInt8.ofNat (value % 128 + 128) :: varintEncode digits (value / 128)) := by
  by_cases small : value < 128
  · exact Or.inl ⟨small, by simp [varintEncode, small]⟩
  · have positive : 0 < digits := by
      by_contra zero
      have none : digits = 0 := by omega
      subst none
      simp at bound
      omega
    have high : value / 128 < 128 ^ digits := by
      rw [Nat.div_lt_iff_lt_mul (by decide)]
      rwa [Nat.pow_succ] at bound
    exact Or.inr ⟨by omega, positive, high, by simp [varintEncode, small]⟩

theorem varintDecode_encode (ended bad : ε) (digits limit value : Nat) (rest : List UInt8)
    (positive : 0 < digits) (bound : value < 128 ^ digits)
    (enough : (varintEncode digits value).length ≤ limit) :
    varintDecode ended bad limit (varintEncode digits value ++ rest) = .ok (value, rest) := by
  induction digits generalizing limit value with
  | zero => omega
  | succ digits ih =>
    rcases varintEncode_step digits value bound with ⟨small, shape⟩ | ⟨_, more, high, shape⟩
    · rw [shape] at enough ⊢
      obtain ⟨limit, rfl⟩ := Nat.exists_eq_add_of_lt (Nat.lt_of_lt_of_le Nat.zero_lt_one enough)
      have digit : (UInt8.ofNat value).toNat = value := by
        rw [UInt8.toNat_ofNat']
        omega
      simp [varintDecode, digit, small]
    · rw [shape] at enough ⊢
      rw [length_cons] at enough
      obtain ⟨limit, rfl⟩ : ∃ fewer, limit = fewer + 1 := ⟨limit - 1, by omega⟩
      have tail := ih limit (value / 128) more high (by omega)
      have marked : ¬value % 128 + 128 < 128 := by omega
      simp only [cons_append, varintDecode, marked_digit, marked, if_false, tail, bind, Except.bind]
      have joined : value % 128 + 128 - 128 + 128 * (value / 128) = value := by omega
      rw [joined]
      rfl

theorem varintDecode_short (ended bad : ε) (digits limit value : Nat) (cut : List UInt8)
    (bound : value < 128 ^ digits) (within : cut <+: varintEncode digits value)
    (strict : cut ≠ varintEncode digits value) :
    ∃ error, varintDecode ended bad limit cut = .error error := by
  induction digits generalizing limit value cut with
  | zero =>
    simp only [varintEncode, prefix_nil] at within
    exact absurd within strict
  | succ digits ih =>
    cases limit with
    | zero => exact ⟨bad, by cases cut <;> rfl⟩
    | succ limit =>
      cases cut with
      | nil => exact ⟨ended, rfl⟩
      | cons digit cut =>
        rcases varintEncode_step digits value bound with ⟨_, shape⟩ | ⟨_, _, high, shape⟩
        · rw [shape] at within strict
          exact absurd (within.eq_of_length_le (by simp)) strict
        · rw [shape] at within strict
          obtain ⟨rfl, inside⟩ := cons_prefix_cons.mp within
          obtain ⟨error, failed⟩ := ih limit (value / 128) cut high inside
            (fun same => strict (by rw [same]))
          have marked : ¬value % 128 + 128 < 128 := by omega
          refine ⟨error, ?_⟩
          simp only [varintDecode, marked_digit, marked, if_false, failed, bind, Except.bind]

def varint (ended bad : ε) (digits bound : Nat) (positive : 0 < digits) (fits : bound ≤ 128 ^ digits) :
    Format ε (Fin bound) :=
  convert
    { encode := fun value : { value // value < 128 ^ digits } => varintEncode digits value.1
      decode := fun bytes => do
        let (value, rest) ← varintDecode ended bad digits bytes
        if small : value < 128 ^ digits then return (⟨value, small⟩, rest) else throw bad
      complete := by
        intro value rest
        rw [varintDecode_encode ended bad digits digits value.1 rest positive value.2
          (varintEncode_length_le digits value.1)]
        simp only [bind, Except.bind, value.2, dite_true]
        rfl
      short := by
        intro value cut within strict
        obtain ⟨error, failed⟩ := varintDecode_short ended bad digits digits value.1 cut value.2 within strict
        exact ⟨error, by simp [failed, bind, Except.bind]⟩ }
    bad (fun value => ⟨value.1, Nat.lt_of_lt_of_le value.2 fits⟩)
    (fun raw => if small : raw.1 < bound then some ⟨raw.1, small⟩ else none)
    (by
      intro value
      simp)

def counted (ended bad : ε) : Format ε (List UInt8) where
  encode bytes := varintEncode (bytes.length + 1) bytes.length ++ bytes
  decode input := do
    let (count, rest) ← varintDecode ended bad input.length input
    if count ≤ rest.length then return (rest.take count, rest.drop count) else throw ended
  complete bytes rest := by
    have bound : bytes.length < 128 ^ (bytes.length + 1) :=
      Nat.lt_of_lt_of_le (Nat.lt_pow_self (by decide)) (Nat.pow_le_pow_right (by decide) (by omega))
    rw [append_assoc, varintDecode_encode ended bad _ _ _ _ (by omega) bound (by simp)]
    simp [bind, Except.bind]
    rfl
  short bytes cut within strict := by
    have bound : bytes.length < 128 ^ (bytes.length + 1) :=
      Nat.lt_of_lt_of_le (Nat.lt_pow_self (by decide)) (Nat.pow_le_pow_right (by decide) (by omega))
    rcases prefix_append_cases within with ⟨inside, shorter⟩ | ⟨tail, rfl, inside⟩
    · obtain ⟨error, failed⟩ := varintDecode_short ended bad _ cut.length _ cut bound inside shorter
      exact ⟨error, by simp [failed, bind, Except.bind]⟩
    · have fewer : ¬bytes.length ≤ tail.length := by
        intro long
        exact strict (by rw [inside.eq_of_length_le long])
      refine ⟨ended, ?_⟩
      rw [varintDecode_encode ended bad _ _ _ _ (by omega) bound (by simp)]
      simp only [bind, Except.bind, fewer, if_false]
      rfl

end Format

end Library
