import Mathlib.Data.List.Basic

/-! Little-endian bytes of a 16-bit word. -/

namespace Library

def toLeBytes (word : UInt16) : List UInt8 := [word.toUInt8, (word >>> 8).toUInt8]

def fromLeBytes (low high : UInt8) : UInt16 := low.toUInt16 ||| (high.toUInt16 <<< 8)

@[simp] theorem toLeBytes_length (word : UInt16) : (toLeBytes word).length = 2 := rfl

theorem fromLeBytes_toNat (low high : UInt8) :
    (fromLeBytes low high).toNat = low.toNat + 256 * high.toNat := by
  have lowBound := low.toNat_lt
  have highBound := high.toNat_lt
  have shifted : high.toNat <<< 8 % 2 ^ 16 = 2 ^ 8 * high.toNat := by
    rw [Nat.shiftLeft_eq]
    omega
  have joined : low.toNat ||| 2 ^ 8 * high.toNat = 2 ^ 8 * high.toNat + low.toNat := by
    rw [Nat.or_comm, ← Nat.two_pow_add_eq_or_of_lt lowBound]
  simp only [fromLeBytes, UInt16.toNat_or, UInt8.toNat_toUInt16, UInt16.toNat_shiftLeft]
  rw [show (8 : UInt16).toNat % 16 = 8 from rfl, shifted, joined]
  omega

theorem fromLeBytes_toLeBytes (word : UInt16) :
    fromLeBytes word.toUInt8 (word >>> 8).toUInt8 = word := by
  apply UInt16.toNat_inj.mp
  have bound := word.toNat_lt
  rw [fromLeBytes_toNat]
  simp only [UInt16.toNat_toUInt8, UInt16.toNat_shiftRight]
  rw [show (8 : UInt16).toNat % 16 = 8 from rfl, Nat.shiftRight_eq_div_pow]
  omega

theorem toLeBytes_fromLeBytes (low high : UInt8) : toLeBytes (fromLeBytes low high) = [low, high] := by
  have lowBound := low.toNat_lt
  have highBound := high.toNat_lt
  have first : (fromLeBytes low high).toUInt8 = low := by
    apply UInt8.toNat_inj.mp
    rw [UInt16.toNat_toUInt8, fromLeBytes_toNat]
    omega
  have second : (fromLeBytes low high >>> 8).toUInt8 = high := by
    apply UInt8.toNat_inj.mp
    rw [UInt16.toNat_toUInt8, UInt16.toNat_shiftRight, fromLeBytes_toNat,
      show (8 : UInt16).toNat % 16 = 8 from rfl, Nat.shiftRight_eq_div_pow]
    omega
  simp [toLeBytes, first, second]

end Library
