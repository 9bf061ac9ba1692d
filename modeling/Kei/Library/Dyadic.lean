import Mathlib.Data.Nat.Bitwise
import Mathlib.Tactic.Ring

/-! Blocks whose size is a power of two and whose address is a multiple of it. Such a
block and its sibling make up the block of twice the size, and the address of one is that
of the other with a single bit changed. -/

namespace Library

namespace Dyadic

variable {exponent addr : Nat}

theorem mul_xor_two_pow (index exponent : Nat) :
    (index * 2 ^ exponent) ^^^ 2 ^ exponent = (index ^^^ 1) * 2 ^ exponent := by
  have shifted := @Nat.shiftLeft_xor_distrib exponent index 1
  simp only [Nat.shiftLeft_eq, one_mul] at shifted
  exact shifted.symm

theorem xor_lower (lower : 2 ^ (exponent + 1) ∣ addr) : addr ^^^ 2 ^ exponent = addr + 2 ^ exponent := by
  obtain ⟨index, rfl⟩ := lower
  have even : Even (2 * index) := even_two_mul index
  rw [show 2 ^ (exponent + 1) * index = 2 * index * 2 ^ exponent by ring, mul_xor_two_pow,
    Nat.xor_one_of_even even]
  ring

theorem exists_parent (aligned : 2 ^ exponent ∣ addr) : ∃ low, 2 ^ (exponent + 1) ∣ low ∧
      (addr = low ∧ addr ^^^ 2 ^ exponent = low + 2 ^ exponent ∨
        addr = low + 2 ^ exponent ∧ addr ^^^ 2 ^ exponent = low) := by
  obtain ⟨index, rfl⟩ := aligned
  obtain ⟨half, parity⟩ := Nat.even_or_odd' index
  refine ⟨2 ^ (exponent + 1) * half, Nat.dvd_mul_right _ _, ?_⟩
  rcases parity with even | odd
  · left
    have same : 2 ^ exponent * index = 2 ^ (exponent + 1) * half := by rw [even]; ring
    exact ⟨same, by rw [same, xor_lower (Nat.dvd_mul_right _ _)]⟩
  · right
    constructor
    · rw [odd]
      ring
    · rw [mul_comm, mul_xor_two_pow, Nat.xor_one_of_odd ⟨half, odd⟩, odd, Nat.add_sub_cancel]
      ring

end Dyadic

end Library
