import Mathlib.Data.BitVec

/-! # 32-bit words held in wider ones

The hash code computes with 32-bit values held in an unsigned long of 64 bits and masks
every result. A value below 2³² is the widening of a word, and each masked operation on
widened words is the widening of the operation on words.
-/
namespace Catlib.Crypto

/-- `unsigned long`. -/
abbrev Ulong := BitVec 64

abbrev Word := BitVec 32

abbrev Byte := BitVec 8

def wide (x : Word) : Ulong := x.setWidth 64

/-- Rotation of a word to the right. -/
def rotr (n : ℕ) (x : Word) : Word := (x >>> n) ||| (x <<< (32 - n))

theorem toNat_mask (x : Ulong) : (x &&& 0xFFFFFFFF).toNat = x.toNat % 2 ^ 32 := by
  rw [BitVec.toNat_and,show (0xFFFFFFFF : Ulong).toNat = 2 ^ 32 - 1 from rfl,Nat.and_two_pow_sub_one_eq_mod]

theorem mask_eq (x : Ulong) : x &&& 0xFFFFFFFF = wide (x.setWidth 32) := by
  apply BitVec.eq_of_toNat_eq
  rw [toNat_mask]
  simp only [wide, BitVec.toNat_setWidth]
  omega

@[simp] theorem narrow_wide (x : Word) : (wide x).setWidth 32 = x := by
  simp [wide]

theorem wide_and (x y : Word) : wide x &&& wide y = wide (x &&& y) := by
  simp [wide, BitVec.setWidth_and]

theorem wide_xor (x y : Word) : wide x ^^^ wide y = wide (x ^^^ y) := by
  simp [wide, BitVec.setWidth_xor]

theorem wide_ushiftRight (x : Word) (n : ℕ) : wide x >>> n = wide (x >>> n) := by
  ext i hi
  simp [wide]

theorem wide_not_and (x y : Word) : ~~~wide x &&& wide y = wide (~~~x &&& y) := by
  ext i hi
  simp [wide]
  grind

theorem mask_wide (x : Word) : wide x &&& 0xFFFFFFFF = wide x := by
  rw [mask_eq,narrow_wide]

theorem narrow_add (x y : Ulong) : (x + y).setWidth 32 = x.setWidth 32 + y.setWidth 32 :=
  BitVec.setWidth_add x y (by decide)

theorem mask_rotate (x : Word) (n k : ℕ) :
    (wide x >>> n ||| wide x <<< k) &&& 0xFFFFFFFF = wide (x >>> n ||| x <<< k) := by
  rw [mask_eq]
  congr 1
  ext i hi
  simp [wide]
  grind

end Catlib.Crypto
