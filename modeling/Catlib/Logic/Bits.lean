import Mathlib.Data.Nat.Bitwise

/-! # Masks and shifts as arithmetic

A mask of the high bits rounds down, a mask of the low ones takes a remainder, and an or of
separate bits adds.
-/
namespace Catlib

variable {v c b w k n m : ℕ}

theorem and_high (hv : v < 2 ^ w) (hk : k ≤ w) : v &&& (2 ^ w - 2 ^ k) = v / 2 ^ k * 2 ^ k := by
  have hmask : 2 ^ w - 2 ^ k = (2 ^ (w - k) - 1) <<< k := by
    rw [Nat.shiftLeft_eq,Nat.sub_mul,Nat.one_mul,← Nat.pow_add,Nat.sub_add_cancel hk]
  rw [hmask,← Nat.shiftRight_eq_div_pow,← Nat.shiftLeft_eq]
  apply Nat.eq_of_testBit_eq
  intro i
  simp only [Nat.testBit_and, Nat.testBit_shiftLeft, Nat.testBit_shiftRight, Nat.testBit_two_pow_sub_one]
  by_cases hi : k ≤ i
  · rw [Nat.add_sub_cancel' hi]
    by_cases hiw : i < w
    · simp [hi, show i - k < w - k by omega]
    · have hbit : v.testBit i = false := Nat.testBit_lt_two_pow (hv.trans_le (Nat.pow_le_pow_right Nat.two_pos (not_lt.1 hiw)))
      simp [hbit]
  · simp [hi]

theorem and_high_eq_zero (hm : m = 2 ^ w - 2 ^ k) (hv : v < 2 ^ w) (hk : k ≤ w) : v &&& m = 0 ↔ v < 2 ^ k := by
  rw [hm,and_high hv hk,Nat.mul_eq_zero,Nat.div_eq_zero_iff_lt (Nat.two_pow_pos k)]
  have := Nat.two_pow_pos k
  omega

theorem and_shiftRight (hm : m = (2 ^ n - 1) <<< k) : (v &&& m) >>> k = v / 2 ^ k % 2 ^ n := by
  rw [hm,Nat.shiftRight_and_distrib,Nat.shiftLeft_shiftRight,Nat.and_two_pow_sub_one_eq_mod,Nat.shiftRight_eq_div_pow]

theorem and_low (hm : m = 2 ^ n - 1) : v &&& m = v % 2 ^ n := by
  rw [hm,Nat.and_two_pow_sub_one_eq_mod]

theorem or_low (hc : 2 ^ n ∣ c) (hb : b < 2 ^ n) : c ||| b = c + b := by
  obtain ⟨a,rfl⟩ := hc
  exact (Nat.two_pow_add_eq_or_of_lt hb a).symm

end Catlib
