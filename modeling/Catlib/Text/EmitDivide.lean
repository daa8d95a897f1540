import Catlib.Bits.Divmod
import Catlib.Text.EmitFormat

/-! # Conversions without a divide instruction

With CAT_HAS_DIV 0 the digits of emit_format.c come from shifts, and for a base that has no shifts of its
own from aux.c. A result that does not fit its type, or would fall below zero, is no result here.
-/
namespace Catlib.Text
open Bits (ulldivmod quotRem divmod_exact_iff)

/-- A result in a type of `w` bits. -/
def within (w x : ℕ) : Option ℕ := if x < 2 ^ w then some x else none

def minus (w a b : ℕ) : Option ℕ := if b ≤ a then within w (a - b) else none

/-- `divmod` where the radix is 10: the quotient is too small by a little before it is put right. -/
def divmodTen (v : ℕ) : Option (ℕ × ℕ) := do
  let q ← within 64 (v >>> 1 + v >>> 2)
  let q ← within 64 (q + q >>> 4)
  let q ← within 64 (q + q >>> 8)
  let q ← within 64 (q + q >>> 16)
  let q ← within 64 (q + q >>> 32)
  let q := q >>> 3
  let r ← minus 32 v (← within 64 (q * 10))
  let q ← within 64 (q + (← within 32 (r + 6)) >>> 4)
  let r ← minus 32 v (← within 64 (q * 10))
  return (q,r)

/-- `divmod` with CAT_HAS_DIV 0 and CAT_HAS_LONGLONG 1. -/
def divmod (v radix : ℕ) : Option (ℕ × ℕ) :=
  if radix = 2 then some (v >>> 1,v &&& 1)
  else if radix = 8 then some (v >>> 3,v &&& 7)
  else if radix = 10 then divmodTen v
  else if radix = 16 then some (v >>> 4,v &&& 0xF)
  else do
    let q := (ulldivmod (.ofNat v) (.ofNat radix) 1).toNat
    let r ← within 32 (ulldivmod (.ofNat v) (.ofNat radix) 0).toNat
    return (q,r)

/-- The digits in the order in which they are pulled off. -/
def pulledDivmod (radix : ℕ) (capver : Bool) : ℕ → ℕ → Option (List UInt8)
  | 0, _ => some []
  | k + 1, v =>
    if v > 0 then do
      let (q,xd) ← divmod v radix
      let rest ← pulledDivmod radix capver k q
      return .ofNat (if xd < 10 then xd + 48 else if capver then xd - 10 + 65 else xd - 10 + 97) :: rest
    else some []

/-- `fmt_u` with CAT_HAS_DIV 0. -/
def fmtUDivmod (fp : FormatParams) (radix : ℕ) (apfx : List UInt8) (v : ℕ) : Option (ℤ × List UInt8) := do
  let plen := if fp.alternate = true ∧ (fp.fmtchar ≠ 112 ∨ v ≠ 0) then apfx.length else 0
  let buf ← if v = 0 then some [48] else (pulledDivmod radix fp.capver 64 v).map List.reverse
  let lead := if fp.alternate then (apfx.take plen).map fun c => if fp.capver then toUpper c else c else []
  fmtDigits fp lead buf 48

variable {v q r e a b k w x radix : ℕ}

/-! ## The quotient by ten -/

theorem within_of_lt (h : x < 2 ^ w) : within w x = some x := if_pos h

theorem minus_of_le (h : b ≤ a) (hw : a - b < 2 ^ w) : minus w a b = some (a - b) := by
  rw [minus,if_pos h,within_of_lt hw]

/-- `q` lies below the fraction `a / b` of `v`, and above it less `e / b`. -/
structure Below (v a b e q : ℕ) : Prop where
  le : b * q ≤ a * v
  near : a * v ≤ b * q + e

theorem Below.step (h : Below v a b e q) (k : ℕ) :
    Below v (a * (2 ^ k + 1)) (b * 2 ^ k) (e * (2 ^ k + 1) + b * (2 ^ k - 1)) (q + q >>> k) := by
  have hpos := Nat.two_pow_pos k
  have hdiv := Nat.div_add_mod q (2 ^ k)
  have hmod := Nat.mod_lt q hpos
  rw [Nat.shiftRight_eq_div_pow]
  constructor
  · calc b * 2 ^ k * (q + q / 2 ^ k) = b * (2 ^ k * q + 2 ^ k * (q / 2 ^ k)) := by ring
      _ ≤ b * (2 ^ k * q + q) := Nat.mul_le_mul_left _ (by omega)
      _ = b * q * (2 ^ k + 1) := by ring
      _ ≤ a * v * (2 ^ k + 1) := Nat.mul_le_mul_right _ h.le
      _ = a * (2 ^ k + 1) * v := by ring
  · have hlow : 2 ^ k * q + q ≤ 2 ^ k * q + 2 ^ k * (q / 2 ^ k) + (2 ^ k - 1) := by omega
    calc a * (2 ^ k + 1) * v = a * v * (2 ^ k + 1) := by ring
      _ ≤ (b * q + e) * (2 ^ k + 1) := Nat.mul_le_mul_right _ h.near
      _ = b * (2 ^ k * q + q) + e * (2 ^ k + 1) := by ring
      _ ≤ b * (2 ^ k * q + 2 ^ k * (q / 2 ^ k) + (2 ^ k - 1)) + e * (2 ^ k + 1) :=
        Nat.add_le_add_right (Nat.mul_le_mul_left _ hlow) _
      _ = b * 2 ^ k * (q + q / 2 ^ k) + (e * (2 ^ k + 1) + b * (2 ^ k - 1)) := by ring

theorem below_start (v : ℕ) : Below v 3 4 5 (v >>> 1 + v >>> 2) := by
  rw [Nat.shiftRight_eq_div_pow,Nat.shiftRight_eq_div_pow]
  constructor <;> omega

theorem Below.le_self (h : Below v a b e q) (hb : 0 < b) (hab : a ≤ b) : q ≤ v :=
  Nat.le_of_mul_le_mul_left (h.le.trans (Nat.mul_le_mul_right v hab)) hb

theorem Below.tenth (h : Below v a (2 ^ 62) e q) (hfive : 5 * a = 2 ^ 64 - 1) (he : e < 6 * 2 ^ 62) (hv : v < 2 ^ 64) :
    q >>> 3 * 10 ≤ v ∧ v - q >>> 3 * 10 ≤ 18 := by
  obtain ⟨hle,hnear⟩ := h
  have hscaled : 5 * (a * v) = (2 ^ 64 - 1) * v := by rw [← Nat.mul_assoc,hfive]
  have hfloor := Nat.div_add_mod q (2 ^ 3)
  have hrest := Nat.mod_lt q (show 0 < 2 ^ 3 by decide)
  rw [Nat.shiftRight_eq_div_pow]
  omega

theorem corrected (hle : q * 10 ≤ v) (hr : v - q * 10 ≤ 18) : q + (v - q * 10 + 6) >>> 4 = v / 10 := by
  rw [Nat.shiftRight_eq_div_pow]
  omega

theorem divmodTen_exact (hv : v < 2 ^ 64) : divmodTen v = some (v / 10,v % 10) := by
  have h1 := below_start v
  have h2 := h1.step 4
  have h3 := h2.step 8
  have h4 := h3.step 16
  have h5 : Below v _ (2 ^ 62) _ _ := h4.step 32
  have w1 := within_of_lt ((h1.le_self (by decide) (by decide)).trans_lt hv)
  have w2 := within_of_lt ((h2.le_self (by decide) (by decide)).trans_lt hv)
  have w3 := within_of_lt ((h3.le_self (by decide) (by decide)).trans_lt hv)
  have w4 := within_of_lt ((h4.le_self (by decide) (by decide)).trans_lt hv)
  have w5 := within_of_lt ((h5.le_self (by decide) (by decide)).trans_lt hv)
  obtain ⟨hle,hr⟩ := h5.tenth (by norm_num) (by norm_num) hv
  rw [divmodTen]
  simp only [Option.bind_eq_bind, w1, w2, w3, w4, w5, Option.bind_some]
  generalize _ >>> 3 = q at hle hr ⊢
  have hq := corrected hle hr
  have hdiv := Nat.div_add_mod v 10
  have hmod := Nat.mod_lt v (show 0 < 10 by decide)
  have hrest : v - v / 10 * 10 = v % 10 := by omega
  simp only [Option.bind_some, within_of_lt (hle.trans_lt hv), minus_of_le (w := 32) hle (by omega),
    within_of_lt (w := 32) (show v - q * 10 + 6 < 2 ^ 32 by omega), hq, within_of_lt (w := 64) (show v / 10 < 2 ^ 64 by omega),
    within_of_lt (w := 64) (show v / 10 * 10 < 2 ^ 64 by omega), minus_of_le (w := 32) (show v / 10 * 10 ≤ v by omega) (by omega), hrest]
  exact rfl

/-! ## Every radix -/

theorem divmod_exact (hv : v < 2 ^ 64) (hr : 0 < radix) (hr' : radix < 2 ^ 32) : divmod v radix = some (v / radix,v % radix) := by
  rw [divmod]
  by_cases h2 : radix = 2
  · rw [if_pos h2,h2,Nat.shiftRight_eq_div_pow,show v &&& 1 = v % 2 from Nat.and_two_pow_sub_one_eq_mod v 1]
  by_cases h8 : radix = 8
  · rw [if_neg h2,if_pos h8,h8,Nat.shiftRight_eq_div_pow,show v &&& 7 = v % 8 from Nat.and_two_pow_sub_one_eq_mod v 3]
  by_cases h10 : radix = 10
  · rw [if_neg h2,if_neg h8,if_pos h10,h10]
    exact divmodTen_exact hv
  by_cases h16 : radix = 16
  · rw [if_neg h2,if_neg h8,if_neg h10,if_pos h16,h16,Nat.shiftRight_eq_div_pow,
      show v &&& 0xF = v % 16 from Nat.and_two_pow_sub_one_eq_mod v 4]
  -- any other radix goes to the loop of aux.c
  have hv' : (UInt64.ofNat v).toNat = v := UInt64.toNat_ofNat_of_lt' hv
  have hr64 : (UInt64.ofNat radix).toNat = radix := UInt64.toNat_ofNat_of_lt' (hr'.trans (by decide))
  have hne : UInt64.ofNat radix ≠ 0 := fun h => by
    rw [h] at hr64
    exact absurd hr64.symm (Nat.pos_iff_ne_zero.mp hr)
  have hexact := (divmod_exact_iff (.ofNat v) (.ofNat radix) hne).1
  have hquot : (ulldivmod (.ofNat v) (.ofNat radix) 1).toNat = v / radix := by
    rw [hexact,quotRem,if_pos (by decide),UInt64.toNat_div,hv',hr64]
  have hrem : (ulldivmod (.ofNat v) (.ofNat radix) 0).toNat = v % radix := by
    rw [hexact,quotRem,if_neg (not_not.mpr rfl),UInt64.toNat_mod,hv',hr64]
  rw [if_neg h2,if_neg h8,if_neg h10,if_neg h16,hquot,hrem,within_of_lt ((Nat.mod_lt v hr).trans hr')]
  exact rfl

theorem pulledDivmod_eq (hr : 0 < radix) (hr' : radix < 2 ^ 32) (capver : Bool) (k : ℕ) (hv : v < 2 ^ 64) :
    pulledDivmod radix capver k v = some (pulled radix capver k v) := by
  induction k generalizing v with
  | zero => rfl
  | succ k ih =>
    rw [pulledDivmod,pulled]
    by_cases h0 : v > 0
    · rw [if_pos h0,if_pos h0,divmod_exact hv hr hr']
      simp only [Option.bind_eq_bind, Option.bind_some, ih ((Nat.div_le_self v radix).trans_lt hv)]
      exact rfl
    · rw [if_neg h0,if_neg h0]

/-- Without a divide instruction a value of 64 bits is divided exactly, no result on the way is out of
range, and the number is formatted as with one; the conversions have a radix from 2 to 36. -/
theorem divmod_formats (v radix : ℕ) (hv : v < 2 ^ 64) (hr : 2 ≤ radix) (hr' : radix ≤ 36) :
    divmod v radix = some (v / radix,v % radix) ∧ ∀ fp apfx, fmtUDivmod fp radix apfx v = fmtU fp radix apfx v := by
  have hpos : 0 < radix := by omega
  have hlt : radix < 2 ^ 32 := by omega
  refine ⟨divmod_exact hv hpos hlt,fun fp apfx => ?_⟩
  rw [fmtUDivmod,fmtU,pulledDivmod_eq hpos hlt _ _ hv]
  by_cases h0 : v = 0
  · rw [if_pos h0,if_pos h0]
    exact rfl
  · rw [if_neg h0,if_neg h0]
    exact rfl

theorem divmod_formats_max : divmod (2 ^ 64 - 1) 10 = some ((2 ^ 64 - 1) / 10,(2 ^ 64 - 1) % 10) ∧
    ∀ fp apfx, fmtUDivmod fp 10 apfx (2 ^ 64 - 1) = fmtU fp 10 apfx (2 ^ 64 - 1) :=
  divmod_formats (2 ^ 64 - 1) 10 (by decide) (by decide) (by decide)

end Catlib.Text
