import Catlib.Logic.LongDivision
import Mathlib.Tactic.NormNum
import Mathlib.Data.UInt

/-! # Division without a divide instruction, in aux.c

An ulong and an ullong have 64 bits. The dividend leaves its register at the top while the quotient
enters it at the bottom.
-/
namespace Catlib.Bits

open LongDivision

/-- A turn of the loops on `dend` and `r`: the bits of the dividend from `top` up go into the remainder. -/
def divmodBody (top : UInt64) (dsor : UInt64) (x : UInt64 × UInt64) : UInt64 × UInt64 :=
  let r := x.2 <<< 1 ||| x.1 >>> top
  let dend := x.1 <<< 1
  if r ≥ dsor then (dend + 1,r - dsor) else (dend,r)

/-- The functions: `turns` of them, and what a division by 0 returns. -/
def divmod (turns : ℕ) (top err dend dsor : UInt64) (div : ℤ) : UInt64 :=
  if dsor = 0 then err
  else
    let x := (divmodBody top dsor)^[turns] (dend,0)
    if div ≠ 0 then x.1 else x.2

def uldivmod (dend dsor : UInt64) (div : ℤ) : UInt64 := divmod 32 31 0xFFFFFFFF dend dsor div

def ulldivmod (dend dsor : UInt64) (div : ℤ) : UInt64 := divmod 64 63 0xFFFFFFFFFFFFFFFF dend dsor div

/-- The bits above the next one that turn `i` finds in the register as well. -/
def high (n D i : ℕ) : ℕ := D / 2 ^ (n - i) % 2 ^ (64 - n)

/-- The bit it should take. -/
def next (n D i : ℕ) : ℕ := D / 2 ^ (n - 1 - i) % 2

section Register
variable {n D d : ℕ} (hn : n ≤ 64) (hD : D < 2 ^ 64)
include hn hD

theorem taken_high {i : ℕ} (hi : i ≤ n) : taken (high n D) (next n D) i = D / 2 ^ (n - i) := by
  induction i with
  | zero =>
    have hlt : D / 2 ^ n < 2 ^ (64 - n) := by
      rw [Nat.div_lt_iff_lt_mul (by positivity),← Nat.pow_add]
      rwa [Nat.sub_add_cancel hn]
    exact Nat.mod_eq_of_lt hlt
  | succ i ih =>
    have hpow : 2 ^ (n - i) = 2 ^ (n - 1 - i) * 2 := by
      rw [← Nat.pow_succ]
      congr 1
      omega
    have hsub : n - (i + 1) = n - 1 - i := by omega
    rw [taken,ih (by omega),hpow,← Nat.div_div_eq_div_mul,next,hsub]
    omega

omit hn hD in
theorem register_eq {i : ℕ} (hi : i ≤ 64) : D * 2 ^ i % 2 ^ 64 = 2 ^ i * (D % 2 ^ (64 - i)) := by
  have hpow : 2 ^ 64 = 2 ^ i * 2 ^ (64 - i) := by rw [← Nat.pow_add,Nat.add_sub_cancel' hi]
  rw [Nat.mul_comm,hpow,Nat.mul_mod_mul_left]

omit hn hD in
theorem register_room {i q : ℕ} (hi : i ≤ 64) (hq : q < 2 ^ i) : D * 2 ^ i % 2 ^ 64 + q < 2 ^ 64 := by
  have hlt : D % 2 ^ (64 - i) < 2 ^ (64 - i) := Nat.mod_lt _ (by positivity)
  calc D * 2 ^ i % 2 ^ 64 + q < 2 ^ i * (D % 2 ^ (64 - i)) + 2 ^ i := by rw [register_eq hi]; omega
    _ = 2 ^ i * (D % 2 ^ (64 - i) + 1) := by ring
    _ ≤ 2 ^ i * 2 ^ (64 - i) := Nat.mul_le_mul_left _ hlt
    _ = 2 ^ 64 := by rw [← Nat.pow_add,Nat.add_sub_cancel' hi]

omit hn hD in
theorem register_shift {i q : ℕ} (hi : i < 64) (hq : q < 2 ^ i) :
    2 * (D * 2 ^ i % 2 ^ 64 + q) % 2 ^ 64 = D * 2 ^ (i + 1) % 2 ^ 64 + 2 * q := by
  have hroom := @register_room D (i + 1) (2 * q) hi (by rw [Nat.pow_succ]; omega)
  have hpow : D * 2 ^ (i + 1) = 2 * (D * 2 ^ i) := by ring
  rw [hpow] at hroom ⊢
  omega

omit hD in
theorem register_top {i q : ℕ} (hi : i < n) (hq : q < 2 ^ i) :
    (D * 2 ^ i % 2 ^ 64 + q) / 2 ^ (n - 1) = 2 * high n D i + next n D i := by
  have htop : 2 ^ (n - 1) = 2 ^ i * 2 ^ (n - 1 - i) := by rw [← Nat.pow_add]; congr 1; lia
  have hrest : 2 ^ (64 - i) = 2 ^ (n - 1 - i) * (2 * 2 ^ (64 - n)) := by
    rw [← Nat.pow_succ',← Nat.pow_add]
    congr 1
    lia
  have hnext : 2 ^ (n - i) = 2 ^ (n - 1 - i) * 2 := by
    rw [← Nat.pow_succ]
    congr 1
    lia
  rw [register_eq (by lia),htop,← Nat.div_div_eq_div_mul,Nat.mul_add_div (by positivity),Nat.div_eq_of_lt hq,Nat.add_zero,hrest,
    Nat.mod_mul_right_div_self,Nat.mod_mul,high,next,hnext,← Nat.div_div_eq_div_mul]
  lia

end Register

theorem two_mul_or {a b c : ℕ} (hc : c < 2) : 2 * a ||| (2 * b + c) = 2 * (a ||| b) + c := by
  have hdiv : (2 * a ||| (2 * b + c)) / 2 = a ||| b := by
    rw [Nat.or_div_two]
    congr 1 <;> omega
  have hmod : (2 * a ||| (2 * b + c)) % 2 = c := by
    have h := Nat.or_mod_two_pow (a := 2 * a) (b := 2 * b + c) (n := 1)
    rwa [Nat.pow_one,Nat.mul_mod_right,Nat.mul_add_mod,Nat.mod_eq_of_lt hc,Nat.zero_or] at h
  omega

theorem toNat_shl_one (x : UInt64) : (x <<< 1).toNat = 2 * x.toNat % 2 ^ 64 := by
  rw [UInt64.toNat_shiftLeft]
  change x.toNat <<< 1 % 2 ^ 64 = _
  rw [Nat.shiftLeft_eq,Nat.pow_one,Nat.mul_comm]

section Loop
variable {n : ℕ} {top dend dsor : UInt64} (hn : n ≤ 64) (htop : top.toNat = n - 1)

/-- Register and remainder after `i` turns, next to the division that the turns carry out. -/
structure Turned (n : ℕ) (dend dsor : UInt64) (i : ℕ) (x : UInt64 × UInt64) : Prop where
  reg : x.1.toNat = dend.toNat * 2 ^ i % 2 ^ 64 + (divide dsor.toNat (high n dend.toNat) (next n dend.toNat) i).1
  rem : x.2.toNat = (divide dsor.toNat (high n dend.toNat) (next n dend.toNat) i).2
  quot_lt : (divide dsor.toNat (high n dend.toNat) (next n dend.toNat) i).1 < 2 ^ i
  rem_lt : (divide dsor.toNat (high n dend.toNat) (next n dend.toNat) i).2 < 2 ^ (64 - n + i)

include hn htop

theorem Turned.step {i : ℕ} {x : UInt64 × UInt64} (hi : i < n) (h : Turned n dend dsor i x) :
    Turned n dend dsor (i + 1) (divmodBody top dsor x) := by
  obtain ⟨hreg,hrem,hquot,hlt⟩ := h
  generalize hq : (divide dsor.toNat (high n dend.toNat) (next n dend.toNat) i).1 = q at hreg hquot
  generalize hr : (divide dsor.toNat (high n dend.toNat) (next n dend.toNat) i).2 = r at hrem hlt
  have hb : next n dend.toNat i < 2 := Nat.mod_lt _ (by decide)
  have hhigh : high n dend.toNat i < 2 ^ (64 - n + i) :=
    (Nat.mod_lt _ (by positivity)).trans_le (Nat.pow_le_pow_right (by decide) (Nat.le_add_right _ _))
  have hv := Nat.or_lt_two_pow hlt hhigh
  have h64 : 2 ^ (64 - n + i) ≤ 2 ^ 63 := Nat.pow_le_pow_right (by decide) (by lia)
  -- the next bit comes in, and no bit of the remainder is shifted out
  have hshift : (x.2 <<< 1 ||| x.1 >>> top).toNat = 2 * (r ||| high n dend.toNat i) + next n dend.toNat i := by
    have htop' : x.1.toNat >>> (top.toNat % 64) = 2 * high n dend.toNat i + next n dend.toNat i := by
      rw [htop,Nat.mod_eq_of_lt (by lia),Nat.shiftRight_eq_div_pow,hreg,register_top hn hi hquot]
    rw [UInt64.toNat_or,toNat_shl_one,UInt64.toNat_shiftRight,htop',hrem,Nat.mod_eq_of_lt (by lia),two_mul_or hb]
  have hleft : (x.1 <<< 1).toNat = dend.toNat * 2 ^ (i + 1) % 2 ^ 64 + 2 * q := by
    rw [toNat_shl_one,hreg,register_shift (by lia) hquot]
  have hroom : dend.toNat * 2 ^ (i + 1) % 2 ^ 64 + (2 * q + 1) < 2 ^ 64 :=
    register_room (by lia) (by rw [Nat.pow_succ]; lia)
  have hdiv : divide dsor.toNat (high n dend.toNat) (next n dend.toNat) (i + 1) =
      subtract dsor.toNat q (2 * (r ||| high n dend.toNat i) + next n dend.toNat i) := by rw [divide,hq,hr]
  have hstate : (divmodBody top dsor x).1.toNat = dend.toNat * 2 ^ (i + 1) % 2 ^ 64 +
        (subtract dsor.toNat q (2 * (r ||| high n dend.toNat i) + next n dend.toNat i)).1 ∧
      (divmodBody top dsor x).2.toNat = (subtract dsor.toNat q (2 * (r ||| high n dend.toNat i) + next n dend.toNat i)).2 := by
    unfold divmodBody subtract
    by_cases hle : dsor ≤ x.2 <<< 1 ||| x.1 >>> top
    · have hle' := UInt64.le_iff_toNat_le.mp hle
      rw [hshift] at hle'
      simp only [ge_iff_le,if_pos hle,if_pos hle',UInt64.toNat_sub_of_le _ _ hle,hshift,UInt64.toNat_add,hleft,UInt64.toNat_one]
      exact ⟨Nat.mod_eq_of_lt (by lia),trivial⟩
    · have hle' := mt UInt64.le_iff_toNat_le.mpr hle
      rw [hshift] at hle'
      simp only [ge_iff_le,if_neg hle,if_neg hle',hshift,hleft,and_self]
  refine ⟨?_,?_,?_,?_⟩
  · rw [hdiv]
    exact hstate.1
  · rw [hdiv]
    exact hstate.2
  · rw [hdiv]
    exact subtract_quotient_lt _ hquot
  · rw [hdiv]
    refine (subtract_remainder_le _ _ _).trans_lt ?_
    rw [← Nat.add_assoc,Nat.pow_succ]
    lia

theorem turned {i : ℕ} (hi : i ≤ n) : Turned n dend dsor i ((divmodBody top dsor)^[i] (dend,0)) := by
  induction i with
  | zero =>
    have hlt : dend.toNat < 2 ^ 64 := dend.toNat_lt
    exact ⟨by simp [divide],rfl,by simp [divide],by simp [divide]⟩
  | succ i ih =>
    rw [Function.iterate_succ_apply']
    exact (ih (by omega)).step hn htop hi

theorem turns_exact_iff (h0 : 0 < n) (hd : dsor ≠ 0) :
    (((divmodBody top dsor)^[n] (dend,0)).1 = dend / dsor ∧ ((divmodBody top dsor)^[n] (dend,0)).2 = dend % dsor) ↔
      dend.toNat % 2 ^ (64 - n) = 0 ∧ dend.toNat / 2 ^ n < dsor.toNat ∧
        ∀ i, 0 < i → i < n → dend.toNat / 2 ^ (n - i) % dsor.toNat ||| high n dend.toNat i = dend.toNat / 2 ^ (n - i) % dsor.toNat := by
  have hD : dend.toNat < 2 ^ 64 := dend.toNat_lt
  have hd0 : 0 < dsor.toNat := Nat.pos_of_ne_zero fun h => hd (UInt64.toNat_inj.mp h)
  have hb (i : ℕ) : next n dend.toNat i < 2 := Nat.mod_lt _ (by decide)
  obtain ⟨hreg,hrem,hquot,-⟩ := @turned _ _ dend dsor hn htop _ le_rfl
  obtain ⟨m,rfl⟩ := Nat.exists_eq_add_of_lt h0
  rw [Nat.zero_add] at *
  have htaken : taken (high (m + 1) dend.toNat) (next (m + 1) dend.toNat) (m + 1) = dend.toNat := by
    rw [taken_high hn hD le_rfl,Nat.sub_self,Nat.pow_zero,Nat.div_one]
  have hfirst : high (m + 1) dend.toNat 0 = dend.toNat / 2 ^ (m + 1) := taken_high hn hD (Nat.zero_le _)
  have hwords : Exact dsor.toNat (high (m + 1) dend.toNat) (next (m + 1) dend.toNat) (m + 1) ↔
      dend.toNat / 2 ^ (m + 1) < dsor.toNat ∧ ∀ i, 0 < i → i < m + 1 →
        dend.toNat / 2 ^ (m + 1 - i) % dsor.toNat ||| high (m + 1) dend.toNat i = dend.toNat / 2 ^ (m + 1 - i) % dsor.toNat := by
    rw [exact_iff hb,hfirst]
    refine and_congr_right fun _ => ⟨fun h i hi him => ?_,fun h i him => ?_⟩
    · obtain ⟨k,rfl⟩ := Nat.exists_eq_add_of_lt hi
      rw [Nat.zero_add] at *
      rw [← taken_high hn hD him.le]
      exact h k (by omega)
    · rw [taken_high hn hD (by omega)]
      exact h (i + 1) (by omega) (by omega)
  rw [← UInt64.toNat_inj,← UInt64.toNat_inj,UInt64.toNat_div,UInt64.toNat_mod,hreg,hrem,← hwords,register_eq hn]
  constructor
  · rintro ⟨hq,hr⟩
    have hlt : dend.toNat / dsor.toNat < 2 ^ (m + 1) := by
      have h := first_lt (hb 0) (hr ▸ Nat.mod_lt _ hd0)
      rw [hfirst,Nat.div_lt_iff_lt_mul (by positivity),Nat.mul_comm] at h
      rwa [Nat.div_lt_iff_lt_mul hd0]
    have hlow : dend.toNat % 2 ^ (64 - (m + 1)) = 0 := by
      by_contra hne
      have := Nat.le_mul_of_pos_right (2 ^ (m + 1)) (Nat.pos_of_ne_zero hne)
      omega
    rw [hlow,Nat.mul_zero,Nat.zero_add] at hq
    exact ⟨hlow,exact_of_div_mod hd0 (htaken.symm ▸ hq) (htaken.symm ▸ hr)⟩
  · rintro ⟨hlow,hex⟩
    rw [hlow,Nat.mul_zero,Nat.zero_add,hex.div,hex.mod,htaken]
    exact ⟨rfl,rfl⟩

end Loop

/-- What a division returns should be one of these. -/
def quotRem (dend dsor : UInt64) (div : ℤ) : UInt64 := if div ≠ 0 then dend / dsor else dend % dsor

theorem divmod_iff {n : ℕ} {top dend dsor : UInt64} (err : UInt64) (hd : dsor ≠ 0) :
    (∀ div, divmod n top err dend dsor div = quotRem dend dsor div) ↔
      ((divmodBody top dsor)^[n] (dend,0)).1 = dend / dsor ∧ ((divmodBody top dsor)^[n] (dend,0)).2 = dend % dsor := by
  simp only [divmod,if_neg hd,quotRem]
  constructor
  · intro h
    exact ⟨h 1,h 0⟩
  · rintro ⟨hq,hr⟩ div
    rw [hq,hr]

/-- The dividend is the upper half of a word alone, less than the divisor, and however far it is shifted
its low word has no bit that its remainder does not have. -/
def Shifts (dend dsor : UInt64) : Prop :=
  ∃ hi < dsor.toNat, dend.toNat = hi * 2 ^ 32 ∧
    ∀ i, 0 < i → i < 32 → hi * 2 ^ i % dsor.toNat ||| hi * 2 ^ i % 2 ^ 32 = hi * 2 ^ i % dsor.toNat

theorem shifts_iff (dend dsor : UInt64) :
    Shifts dend dsor ↔ dend.toNat % 2 ^ (64 - 32) = 0 ∧ dend.toNat / 2 ^ 32 < dsor.toNat ∧ ∀ i, 0 < i → i < 32 →
      dend.toNat / 2 ^ (32 - i) % dsor.toNat ||| high 32 dend.toNat i = dend.toNat / 2 ^ (32 - i) % dsor.toNat := by
  have hshift (hi : ℕ) {i : ℕ} (h32 : i < 32) : hi * 2 ^ 32 / 2 ^ (32 - i) = hi * 2 ^ i := by
    have hpow : 2 ^ 32 = 2 ^ i * 2 ^ (32 - i) := by rw [← Nat.pow_add,Nat.add_sub_cancel' h32.le]
    rw [hpow,← Nat.mul_assoc,Nat.mul_div_cancel _ (by positivity)]
  constructor
  · rintro ⟨hi,hlt,he,hw⟩
    rw [he]
    refine ⟨Nat.mul_mod_left _ _,by rwa [Nat.mul_div_cancel _ (by positivity)],fun i h0 h32 => ?_⟩
    rw [high,hshift hi h32]
    exact hw i h0 h32
  · rintro ⟨h0,hlt,hw⟩
    have he : dend.toNat = dend.toNat / 2 ^ 32 * 2 ^ 32 := (Nat.div_mul_cancel (Nat.dvd_of_mod_eq_zero h0)).symm
    refine ⟨_,hlt,he,fun i hi h32 => ?_⟩
    have h := hw i hi h32
    rwa [high,he,hshift _ h32] at h

/-- With 64 turns every division is exact; with 32 on the same words only one of a shifted dividend is. -/
theorem divmod_exact_iff (dend dsor : UInt64) (hd : dsor ≠ 0) :
    (∀ div, ulldivmod dend dsor div = quotRem dend dsor div) ∧
      ((∀ div, uldivmod dend dsor div = quotRem dend dsor div) ↔ Shifts dend dsor) := by
  have hD : dend.toNat < 2 ^ 64 := dend.toNat_lt
  have hd0 : 0 < dsor.toNat := Nat.pos_of_ne_zero fun h => hd (UInt64.toNat_inj.mp h)
  constructor
  · refine (divmod_iff _ hd).mpr ((turns_exact_iff le_rfl rfl (by decide) hd).mpr ⟨Nat.mod_one _,?_,fun i _ _ => ?_⟩)
    · rw [Nat.div_eq_of_lt hD]
      exact hd0
    · rw [high,Nat.sub_self,Nat.pow_zero,Nat.mod_one,Nat.or_zero]
  · have htop : (31 : UInt64).toNat = 32 - 1 := rfl
    rw [shifts_iff,← turns_exact_iff (by decide) htop (by decide) hd]
    exact divmod_iff _ hd

theorem divmod_exact_iff_seven : (7 : UInt64) ≠ 0 ∧ (∀ div, ulldivmod 100 7 div = quotRem 100 7 div) ∧
    ((∀ div, uldivmod 100 7 div = quotRem 100 7 div) ↔ Shifts 100 7) :=
  ⟨by decide,divmod_exact_iff 100 7 (by decide)⟩

/-- Ten by three: the bits of the dividend that have been used come in again. -/
theorem uldivmod_ten : uldivmod 10 3 1 = 10 * 2 ^ 32 + 3 ∧ uldivmod 10 3 0 = 11 ∧
    ¬ ∀ dend dsor : UInt64, dsor ≠ 0 → ∀ div, uldivmod dend dsor div = quotRem dend dsor div := by
  have h : uldivmod 10 3 1 = 10 * 2 ^ 32 + 3 ∧ uldivmod 10 3 0 = 11 := by decide +kernel
  refine ⟨h.1,h.2,fun hall => ?_⟩
  have := (hall 10 3 (by decide) 0).symm.trans h.2
  exact absurd this (by decide)

end Catlib.Bits
