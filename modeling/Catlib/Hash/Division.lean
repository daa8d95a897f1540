import Catlib.Crypto.Words
import Mathlib.Algebra.Polynomial.OfFn
import Mathlib.Algebra.Polynomial.Div
import Mathlib.Tactic.LinearCombination
import Mathlib.Algebra.Field.ZMod

/-! # Division of bit strings by a polynomial

The register of a cyclic redundancy check holds the remainder of the bits that went in, with
32 zero bits behind them, by the polynomial that the register has the low coefficients of.
-/
namespace Catlib.Crc
open Crypto Polynomial

/-- One step of the division of a bit string by `x³² + poly`: the next bit comes in at the top. -/
def divBit (poly c : Word) (bit : Bool) : Word := if (c.msb ^^ bit) then (c <<< 1) ^^^ poly else c <<< 1

def divBits (poly c : Word) (bits : List Bool) : Word := bits.foldl (divBit poly) c

/-- The coefficient that a bit stands for. -/
def bitCoeff (b : Bool) : ZMod 2 := if b then 1 else 0

/-- The polynomial with the bits of a word as coefficients. -/
noncomputable def wordPoly (c : Word) : (ZMod 2)[X] := ofFn 32 fun i => bitCoeff (c.getLsbD i)

/-- The polynomial of a bit string, the first bit in front. -/
noncomputable def bitsPoly : List Bool → (ZMod 2)[X]
  | [] => 0
  | b :: bits => C (bitCoeff b) * X ^ bits.length + bitsPoly bits

noncomputable def divisor (poly : Word) : (ZMod 2)[X] := X ^ 32 + wordPoly poly

variable {poly c : Word}

theorem bitCoeff_false : bitCoeff false = 0 := rfl

theorem bitCoeff_xor (a b : Bool) : bitCoeff (a ^^ b) = bitCoeff a + bitCoeff b := by
  cases a <;> cases b <;> rfl

theorem bitCoeff_and (a b : Bool) : bitCoeff (a && b) = bitCoeff a * bitCoeff b := by
  cases a <;> cases b <;> rfl

theorem wordPoly_coeff (c : Word) (n : ℕ) : (wordPoly c).coeff n = bitCoeff (c.getLsbD n) := by
  rw [wordPoly]
  by_cases hn : n < 32
  · rw [ofFn_coeff_eq_val_of_lt _ hn]
  · rw [ofFn_coeff_eq_zero_of_ge _ (not_lt.1 hn),BitVec.getLsbD_of_ge _ _ (not_lt.1 hn)]
    rfl

theorem wordPoly_degree (c : Word) : (wordPoly c).degree < 32 := ofFn_degree_lt _

theorem divisor_monic (poly : Word) : (divisor poly).Monic := monic_X_pow_add (wordPoly_degree poly)

theorem divisor_degree (poly : Word) : (divisor poly).degree = 32 := by
  have hX : ((X : (ZMod 2)[X]) ^ 32).degree = 32 := degree_X_pow 32
  have hlt : (wordPoly poly).degree < ((X : (ZMod 2)[X]) ^ 32).degree := by
    rw [hX]
    exact wordPoly_degree poly
  rw [divisor,degree_add_eq_left_of_degree_lt hlt,hX]

theorem divBit_getLsbD (poly c : Word) (b : Bool) (n : ℕ) :
    (divBit poly c b).getLsbD n = ((c <<< 1).getLsbD n ^^ ((c.msb ^^ b) && poly.getLsbD n)) := by
  rw [divBit]
  split
  · rename_i h
    rw [BitVec.getLsbD_xor,h,Bool.true_and]
  · rename_i h
    rw [Bool.not_eq_true] at h
    rw [h,Bool.false_and,Bool.xor_false]

theorem divBit_poly (poly c : Word) (b : Bool) : wordPoly (divBit poly c b) + divisor poly * C (bitCoeff (c.msb ^^ b)) =
    wordPoly c * X + C (bitCoeff b) * X ^ 32 := by
  have htwice : ∀ x : ZMod 2, x + x = 0 := by decide
  ext n
  simp only [coeff_add, coeff_mul_C, divisor, coeff_X_pow, wordPoly_coeff, coeff_C_mul, divBit_getLsbD]
  rw [bitCoeff_xor ((c <<< 1).getLsbD n),bitCoeff_and,add_mul,mul_comm (bitCoeff (poly.getLsbD n))]
  cases n with
  | zero =>
    rw [coeff_mul_X_zero,BitVec.getLsbD_shiftLeft]
    simp only [Nat.lt_one_iff, decide_true, Bool.not_true, Bool.and_false, Bool.false_and, bitCoeff_false, show ¬0 = 32 by decide,
      if_false]
    linear_combination htwice (bitCoeff (c.msb ^^ b) * bitCoeff (poly.getLsbD 0))
  | succ m =>
    rw [coeff_mul_X,wordPoly_coeff,BitVec.getLsbD_shiftLeft]
    have hm : ¬m + 1 < 1 := by omega
    simp only [hm, decide_false, Bool.not_false, Bool.and_true, Nat.add_sub_cancel]
    have htw := htwice (bitCoeff (c.msb ^^ b) * bitCoeff (poly.getLsbD (m + 1)))
    rcases lt_trichotomy (m + 1) 32 with h | h | h
    · simp only [h, h.ne, decide_true, Bool.true_and, if_false]
      linear_combination htw
    · obtain rfl : m = 31 := by omega
      have hmsb : c.msb = c.getLsbD 31 := BitVec.msb_eq_getLsbD_last c
      rw [hmsb] at htw ⊢
      rw [bitCoeff_xor] at htw ⊢
      simp only [if_true, Nat.lt_irrefl, decide_false, Bool.false_and, bitCoeff_false]
      linear_combination htw
    · have hzero : c.getLsbD m = false := BitVec.getLsbD_of_ge _ _ (by omega)
      rw [hzero]
      simp only [show ¬m + 1 < 32 by omega, h.ne', decide_false, Bool.false_and, if_false]
      linear_combination htw

theorem divBits_poly (poly c : Word) (bits : List Bool) :
    wordPoly (divBits poly c bits) = (wordPoly c * X ^ bits.length + bitsPoly bits * X ^ 32) %ₘ divisor poly := by
  have hq : ∃ q, wordPoly (divBits poly c bits) + divisor poly * q = wordPoly c * X ^ bits.length + bitsPoly bits * X ^ 32 := by
    induction bits generalizing c with
    | nil => exact ⟨0,by rw [bitsPoly]; simp [divBits]⟩
    | cons b bits ih =>
      obtain ⟨q,hq⟩ := ih (c := divBit poly c b)
      refine ⟨q + C (bitCoeff (c.msb ^^ b)) * X ^ bits.length,?_⟩
      rw [divBits,List.foldl_cons,bitsPoly,List.length_cons,pow_succ]
      rw [divBits] at hq
      linear_combination hq + X ^ bits.length * divBit_poly poly c b
  obtain ⟨q,hq⟩ := hq
  have hdeg : (wordPoly (divBits poly c bits)).degree < (divisor poly).degree := by
    rw [divisor_degree]
    exact wordPoly_degree _
  exact (div_modByMonic_unique q _ (divisor_monic poly) ⟨hq,hdeg⟩).2.symm

end Catlib.Crc
