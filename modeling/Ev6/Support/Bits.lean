import Mathlib.Data.Nat.Bitwise

/-!
# Bit fields of words

Words are natural numbers below a power of two. A mask of low bits is a
remainder and a mask of high bits rounds down; a field above another is their
sum.
-/

namespace Ev6.Support

/-- Masking the bits from `low` up rounds down to a multiple of `2 ^ low`. -/
theorem and_highMask {word width low : Nat} (bound : word < 2 ^ width) (inside : low ≤ width) :
    word &&& (2 ^ width - 2 ^ low) = word / 2 ^ low * 2 ^ low := by
  have mask : 2 ^ width - 2 ^ low = (2 ^ (width - low) - 1) <<< low := by
    rw [Nat.shiftLeft_eq, Nat.sub_mul, ← pow_add, Nat.sub_add_cancel inside, one_mul]
  rw [mask, ← Nat.shiftRight_eq_div_pow, ← Nat.shiftLeft_eq]
  refine Nat.eq_of_testBit_eq fun index => ?_
  rw [Nat.testBit_and, Nat.testBit_shiftLeft, Nat.testBit_shiftLeft, Nat.testBit_shiftRight,
    Nat.testBit_two_pow_sub_one]
  by_cases kept : low ≤ index
  · by_cases high : index < width
    · have shifted : index - low < width - low := by omega
      simp [kept, shifted, Nat.add_sub_cancel' kept]
    · have wide : 2 ^ width ≤ 2 ^ index := Nat.pow_le_pow_right (by decide) (by omega)
      have gone : word.testBit index = false :=
        Nat.testBit_lt_two_pow (lt_of_lt_of_le bound wide)
      simp [kept, gone]
  · simp [kept]

/-- A field above another, written with the bit operations or as a sum. -/
theorem or_eq_add {high low width : Nat} (aligned : 2 ^ width ∣ high) (small : low < 2 ^ width) :
    high ||| low = high + low := by
  obtain ⟨value, rfl⟩ := aligned
  exact (Nat.two_pow_add_eq_or_of_lt small value).symm

/-- A mask without low bits reads the high bits only. -/
theorem and_congr_high {first second mask low : Nat} (same : first >>> low = second >>> low)
    (clear : mask % 2 ^ low = 0) : first &&& mask = second &&& mask := by
  refine Nat.eq_of_testBit_eq fun index => ?_
  rw [Nat.testBit_and, Nat.testBit_and]
  by_cases high : low ≤ index
  · have bits := congrArg (fun word => word.testBit (index - low)) same
    simp only [Nat.testBit_shiftRight, Nat.add_sub_cancel' high] at bits
    rw [bits]
  · have masked : mask.testBit index = false := by
      have bit := congrArg (fun word => word.testBit index) clear
      simpa [Nat.testBit_mod_two_pow, Nat.not_le.mp high] using bit
    simp [masked]

end Ev6.Support
