import Mathlib.Data.Nat.Log
import Mathlib.Tactic.Ring

/-! # Leading and trailing zeros

The functions of archops.h for a machine without instructions of its own. Words of 64 bits are
numbers below `2 ^ 64`.
-/
namespace Catlib.Bits

def numLeadingZerosArray : List ℕ :=
  [8,7] ++ List.replicate 2 6 ++ List.replicate 4 5 ++ List.replicate 8 4 ++ List.replicate 16 3 ++ List.replicate 32 2 ++
    List.replicate 64 1 ++ List.replicate 128 0

def nlz8 (x : ℕ) : ℕ := numLeadingZerosArray.getD (x % 256) 0

/-- The loop of `nlz_64`, with `k` bytes to look at. -/
def nlzLoop (x : ℕ) : ℕ → ℕ → ℕ
  | 0, n => n
  | k + 1, n =>
    let b := nlz8 (x >>> (8 * k))
    if b = 8 then nlzLoop x k (n + b) else n + b

def nlz64 (x : ℕ) : ℕ := nlzLoop x 8 0

def pop64 (x : ℕ) : ℕ :=
  let x := (x &&& 0x5555555555555555) + ((x >>> 1) &&& 0x5555555555555555)
  let x := (x &&& 0x3333333333333333) + ((x >>> 2) &&& 0x3333333333333333)
  let x := (x &&& 0x0F0F0F0F0F0F0F0F) + ((x >>> 4) &&& 0x0F0F0F0F0F0F0F0F)
  let x := (x &&& 0x00FF00FF00FF00FF) + ((x >>> 8) &&& 0x00FF00FF00FF00FF)
  let x := (x &&& 0x0000FFFF0000FFFF) + ((x >>> 16) &&& 0x0000FFFF0000FFFF)
  let x := x + (x >>> 32)
  x &&& 0x7F

def ntz64 (x : ℕ) : ℕ := pop64 ((2 ^ 64 - 1 - x) &&& ((x + (2 ^ 64 - 1)) % 2 ^ 64))

variable {x k n t q : ℕ}

theorem nlz8_eq (hx : x < 256) : nlz8 x = if x = 0 then 8 else 7 - Nat.log 2 x := by
  have harr : numLeadingZerosArray = (List.range 256).map fun x => if x = 0 then 8 else 7 - Nat.log 2 x := by decide +kernel
  rw [nlz8,Nat.mod_eq_of_lt hx,harr,List.getD_eq_getElem?_getD,List.getElem?_map,List.getElem?_range hx]
  rfl

theorem nlzLoop_eq (hx : 0 < x) (hk : x < 2 ^ (8 * k)) : nlzLoop x k n + Nat.log 2 x + 1 = n + 8 * k := by
  induction k generalizing n with
  | zero => simp at hk; omega
  | succ k ih =>
    have hbyte : x >>> (8 * k) < 256 := by
      rw [Nat.shiftRight_eq_div_pow]
      apply Nat.div_lt_of_lt_mul
      rwa [show 2 ^ (8 * k) * 256 = 2 ^ (8 * (k + 1)) by rw [Nat.mul_succ 8 k,Nat.pow_add]]
    rw [nlzLoop,nlz8_eq hbyte]
    by_cases hzero : x >>> (8 * k) = 0
    · rw [if_pos hzero,if_pos rfl,ih ?_]
      · omega
      · rwa [Nat.shiftRight_eq_div_pow,Nat.div_eq_zero_iff_lt (Nat.two_pow_pos _)] at hzero
    · have hlog : Nat.log 2 (x >>> (8 * k)) + 8 * k = Nat.log 2 x := by
        rw [Nat.shiftRight_eq_div_pow] at hzero ⊢
        have hle : 2 ^ (8 * k) ≤ x := by
          by_contra hlt
          exact hzero (Nat.div_eq_of_lt (not_le.1 hlt))
        rw [Nat.log_div_base_pow,Nat.sub_add_cancel (Nat.le_log_of_pow_le (by decide) hle)]
      have hseven : Nat.log 2 (x >>> (8 * k)) < 8 := Nat.log_lt_of_lt_pow hzero hbyte
      rw [if_neg hzero,if_neg (by omega)]
      omega

theorem nlz64_eq (hx : 0 < x) (hlt : x < 2 ^ 64) : nlz64 x + Nat.log 2 x = 63 := by
  have h := nlzLoop_eq (n := 0) (k := 8) hx hlt
  rw [nlz64]
  omega

theorem exists_low_bit (hx : 0 < x) : ∃ t q, x = 2 ^ (t + 1) * q + 2 ^ t := by
  induction x using Nat.strongRecOn with
  | ind x ih =>
    obtain ⟨k,rfl | rfl⟩ := Nat.even_or_odd' x
    · obtain ⟨t,q,h⟩ := ih k (by omega) (by omega)
      refine ⟨t + 1,q,?_⟩
      conv_lhs => rw [h]
      rw [Nat.pow_succ 2 (t + 1),Nat.pow_succ 2 t]
      ring
    · exact ⟨0,k,by simp⟩

theorem testBit_low (t q i : ℕ) : (2 ^ (t + 1) * q + 2 ^ t).testBit i = if i ≤ t then decide (i = t) else q.testBit (i - (t + 1)) := by
  have hlt : 2 ^ t < 2 ^ (t + 1) := Nat.pow_lt_pow_right (by decide) (Nat.lt_succ_self t)
  rw [Nat.testBit_two_pow_mul_add q hlt]
  by_cases hi : i ≤ t
  · rw [if_pos (by omega),if_pos hi,Nat.testBit_two_pow]
    exact decide_eq_decide.2 eq_comm
  · rw [if_neg (by omega),if_neg hi]

theorem below_low (hlt : 2 ^ (t + 1) * q + 2 ^ t < 2 ^ 64) :
    (2 ^ 64 - 1 - (2 ^ (t + 1) * q + 2 ^ t)) &&& (2 ^ (t + 1) * q + (2 ^ t - 1)) = 2 ^ t - 1 := by
  have hpos := Nat.two_pow_pos t
  have hstep : 2 ^ t - 1 < 2 ^ (t + 1) := by
    have := Nat.pow_lt_pow_right (a := 2) (by decide) (Nat.lt_succ_self t)
    omega
  apply Nat.eq_of_testBit_eq
  intro i
  rw [Nat.testBit_and,Nat.sub_sub,Nat.add_comm 1,Nat.testBit_two_pow_sub_succ hlt,testBit_low,
    Nat.testBit_two_pow_mul_add q hstep,Nat.testBit_two_pow_sub_one]
  have ht : t < 64 := by
    by_contra h
    have := Nat.pow_le_pow_right (n := 2) (by decide) (not_lt.1 h)
    omega
  rcases Nat.lt_trichotomy i t with h | h | h
  · simp [h, h.le, h.ne, show i < t + 1 by omega, show i < 64 by omega]
  · subst h
    simp
  · simp [show ¬ i ≤ t by omega, show ¬ i < t + 1 by omega, show ¬ i < t by omega]

theorem ntz64_low (hlt : 2 ^ (t + 1) * q + 2 ^ t < 2 ^ 64) : ntz64 (2 ^ (t + 1) * q + 2 ^ t) = t := by
  have hpos := Nat.two_pow_pos t
  have ht : t < 64 := by
    by_contra h
    have := Nat.pow_le_pow_right (n := 2) (by decide) (not_lt.1 h)
    omega
  have hpop : ∀ t < 64, pop64 (2 ^ t - 1) = t := by decide +kernel
  rw [ntz64,show 2 ^ (t + 1) * q + 2 ^ t + (2 ^ 64 - 1) = 2 ^ (t + 1) * q + (2 ^ t - 1) + 2 ^ 64 by omega,
    Nat.add_mod_right,Nat.mod_eq_of_lt (by omega),below_low hlt,hpop t ht]

theorem ntz64_spec (hx : 0 < x) (hlt : x < 2 ^ 64) : x.testBit (ntz64 x) = true ∧ ∀ i < ntz64 x, x.testBit i = false := by
  obtain ⟨t,q,rfl⟩ := exists_low_bit hx
  rw [ntz64_low hlt]
  refine ⟨by rw [testBit_low]; simp,fun i hi => ?_⟩
  rw [testBit_low,if_pos hi.le,decide_eq_false hi.ne]

end Catlib.Bits

/-! # Words of 64 bits as sets

A word marks a set of the numbers below 64. A bit is set and cleared, the bits from one on are kept,
and the lowest bit is the least number of the set.
-/
namespace Catlib.Bits

/-- The set bits of the word are the members of `S` below 64. -/
def Marks (bm : ℕ) (S : ℕ → Prop) : Prop := ∀ i, bm.testBit i = true ↔ i < 64 ∧ S i

namespace Marks
variable {bm i j : ℕ} {S T : ℕ → Prop}

theorem congr (h : Marks bm S) (hT : ∀ i < 64, S i ↔ T i) : Marks bm T :=
  fun i => (h i).trans (and_congr_right (hT i))

theorem lt (h : Marks bm S) : bm < 2 ^ 64 := by
  apply Nat.lt_pow_two_of_testBit
  intro i hi
  by_contra hbit
  have := ((h i).1 (by simpa using hbit)).1
  omega

theorem empty : Marks 0 fun _ => False := fun i => by simp

theorem testBit_compl {m : ℕ} (hm : m < 2 ^ 64) (i : ℕ) : (2 ^ 64 - 1 - m).testBit i = (decide (i < 64) && !m.testBit i) := by
  rw [Nat.sub_sub,Nat.add_comm 1,Nat.testBit_two_pow_sub_succ hm]

theorem set (h : Marks bm S) (hj : j < 64) : Marks (bm ||| 1 <<< j) fun i => S i ∨ i = j := by
  intro i
  rw [Nat.testBit_or,Nat.one_shiftLeft,Nat.testBit_two_pow,Bool.or_eq_true,h i,decide_eq_true_iff]
  constructor
  · rintro (⟨hi,hs⟩ | rfl)
    · exact ⟨hi,.inl hs⟩
    · exact ⟨hj,.inr rfl⟩
  · rintro ⟨hi,hs | rfl⟩
    · exact .inl ⟨hi,hs⟩
    · exact .inr rfl

theorem clear (h : Marks bm S) (hj : j < 64) : Marks (bm &&& (2 ^ 64 - 1 - 1 <<< j)) fun i => S i ∧ i ≠ j := by
  have hlt : 1 <<< j < 2 ^ 64 := by
    rw [Nat.one_shiftLeft]
    exact Nat.pow_lt_pow_right (by decide) hj
  intro i
  rw [Nat.testBit_and,testBit_compl hlt,Nat.one_shiftLeft,Nat.testBit_two_pow,Bool.and_eq_true,h i]
  constructor
  · rintro ⟨⟨hi,hs⟩,hne⟩
    exact ⟨hi,hs,fun he => by simp [he] at hne⟩
  · rintro ⟨hi,hs,hne⟩
    exact ⟨⟨hi,hs⟩,by simp [hi, Ne.symm hne]⟩

theorem since (h : Marks bm S) (hj : j < 64) : Marks (bm &&& (2 ^ 64 - 1 - (1 <<< j - 1))) fun i => S i ∧ j ≤ i := by
  have hlt : 1 <<< j - 1 < 2 ^ 64 := by
    rw [Nat.one_shiftLeft]
    have := Nat.pow_lt_pow_right (a := 2) (by decide) hj
    omega
  intro i
  rw [Nat.testBit_and,testBit_compl hlt,Nat.one_shiftLeft,Nat.testBit_two_pow_sub_one,Bool.and_eq_true,h i]
  constructor
  · rintro ⟨⟨hi,hs⟩,hle⟩
    exact ⟨hi,hs,by simpa [hi] using hle⟩
  · rintro ⟨hi,hs,hle⟩
    exact ⟨⟨hi,hs⟩,by simpa [hi] using hle⟩

theorem behind (h : Marks bm S) (hj : j < 64) :
    Marks (bm &&& (2 ^ 64 - 1 - (1 <<< j ||| (1 <<< j - 1)))) fun i => S i ∧ j < i := by
  have hor : 1 <<< j ||| (1 <<< j - 1) = 2 ^ (j + 1) - 1 := by
    apply Nat.eq_of_testBit_eq
    intro i
    rw [Nat.testBit_or,Nat.one_shiftLeft,Nat.testBit_two_pow,Nat.testBit_two_pow_sub_one,Nat.testBit_two_pow_sub_one,
      ← Bool.decide_or]
    exact decide_eq_decide.2 (by omega)
  have hlt : 2 ^ (j + 1) - 1 < 2 ^ 64 := by
    have := Nat.pow_le_pow_right (n := 2) (by decide) (Nat.succ_le_of_lt hj)
    have := Nat.two_pow_pos (j + 1)
    omega
  intro i
  rw [hor,Nat.testBit_and,testBit_compl hlt,Nat.testBit_two_pow_sub_one,Bool.and_eq_true,h i]
  constructor
  · rintro ⟨⟨hi,hs⟩,hle⟩
    have hle : ¬i < j + 1 := by simpa [hi] using hle
    exact ⟨hi,hs,by omega⟩
  · rintro ⟨hi,hs,hle⟩
    have hle : ¬i < j + 1 := by omega
    exact ⟨⟨hi,hs⟩,by simpa [hi] using hle⟩

theorem eq_zero_iff (h : Marks bm S) : bm = 0 ↔ ∀ i < 64, ¬S i := by
  constructor
  · rintro rfl i hi hs
    have := (h i).2 ⟨hi,hs⟩
    simp at this
  · intro hs
    apply Nat.eq_of_testBit_eq
    intro i
    rw [Nat.zero_testBit]
    by_contra hbit
    obtain ⟨hi,hm⟩ := (h i).1 (by simpa using hbit)
    exact hs i hi hm

theorem least (h : Marks bm S) (hne : bm ≠ 0) : ntz64 bm < 64 ∧ S (ntz64 bm) ∧ ∀ i < ntz64 bm, ¬S i := by
  obtain ⟨hbit,hlow⟩ := ntz64_spec (Nat.pos_of_ne_zero hne) h.lt
  obtain ⟨hlt,hs⟩ := (h _).1 hbit
  refine ⟨hlt,hs,fun i hi hm => ?_⟩
  have := (h i).2 ⟨hi.trans hlt,hm⟩
  rw [hlow i hi] at this
  cases this

end Marks
end Catlib.Bits
