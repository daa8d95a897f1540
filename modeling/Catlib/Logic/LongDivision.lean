import Mathlib.Data.Nat.Bitwise
import Mathlib.Tactic.Ring

/-! # Long division by shifting and subtracting

Each step takes the next bit into the remainder and subtracts the divisor where it fits. Here a step
may also or a word into the remainder, as a dividend does that is not cut down to its next bit: what
matters is when this is without effect.
-/
namespace Catlib.LongDivision

variable (d : ℕ) (word bit : ℕ → ℕ)

/-- Quotient and remainder, `v` being the old remainder with the next bit behind it. -/
def subtract (q v : ℕ) : ℕ × ℕ := if d ≤ v then (2 * q + 1,v - d) else (2 * q,v)

/-- Quotient and remainder after some steps. -/
def divide : ℕ → ℕ × ℕ
  | 0 => (0,0)
  | i + 1 => subtract d (divide i).1 (2 * ((divide i).2 ||| word i) + bit i)

/-- The bits taken so far, behind the first word. -/
def taken : ℕ → ℕ
  | 0 => word 0
  | i + 1 => 2 * taken i + bit i

theorem subtract_eq (q v : ℕ) : (subtract d q v).1 * d + (subtract d q v).2 = 2 * (q * d) + v := by
  unfold subtract
  split
  · rename_i h
    have he := Nat.sub_add_cancel h
    calc (2 * q + 1) * d + (v - d) = 2 * (q * d) + (v - d + d) := by ring
      _ = 2 * (q * d) + v := by rw [he]
  · ring

theorem subtract_quotient_lt {q v n : ℕ} (h : q < 2 ^ n) : (subtract d q v).1 < 2 ^ (n + 1) := by
  unfold subtract
  rw [Nat.pow_succ]
  split <;> simp only <;> omega

theorem subtract_remainder_le (q v : ℕ) : (subtract d q v).2 ≤ v := by
  unfold subtract
  split
  · exact Nat.sub_le v d
  · exact le_rfl

theorem subtract_lt_iff (q v : ℕ) : (subtract d q v).2 < d ↔ v < 2 * d := by
  unfold subtract
  split <;> simp only <;> omega

/-- The steps so far have divided what they took. -/
def Exact (i : ℕ) : Prop := (divide d word bit i).1 * d + (divide d word bit i).2 = taken word bit i ∧ (divide d word bit i).2 < d

variable {d word bit}

theorem Exact.div {i : ℕ} (h : Exact d word bit i) : (divide d word bit i).1 = taken word bit i / d := by
  obtain ⟨he,hlt⟩ := h
  rw [← he,Nat.add_comm,Nat.add_mul_div_right _ _ (by omega),Nat.div_eq_of_lt hlt,Nat.zero_add]

theorem Exact.mod {i : ℕ} (h : Exact d word bit i) : (divide d word bit i).2 = taken word bit i % d := by
  obtain ⟨he,hlt⟩ := h
  rw [← he,Nat.mul_add_mod_self_right,Nat.mod_eq_of_lt hlt]

theorem exact_of_div_mod {i : ℕ} (hd : 0 < d) (hq : (divide d word bit i).1 = taken word bit i / d)
    (hr : (divide d word bit i).2 = taken word bit i % d) : Exact d word bit i := by
  refine ⟨?_,hr ▸ Nat.mod_lt _ hd⟩
  rw [hq,hr,Nat.mul_comm]
  exact Nat.div_add_mod _ _

theorem divide_one : divide d word bit 1 = subtract d 0 (taken word bit 1) := by
  simp [divide,taken]

theorem taken_le (i : ℕ) : taken word bit (i + 1) ≤ (divide d word bit (i + 1)).1 * d + (divide d word bit (i + 1)).2 := by
  induction i with
  | zero =>
    simp only [Nat.zero_add,divide_one,subtract_eq]
    omega
  | succ i ih =>
    rw [divide,subtract_eq,taken]
    have : (divide d word bit (i + 1)).2 ≤ (divide d word bit (i + 1)).2 ||| word (i + 1) := Nat.left_le_or
    omega

theorem divide_le {i : ℕ} (h : d ≤ (divide d word bit i).2) : d ≤ (divide d word bit (i + 1)).2 := by
  by_contra hlt
  have hv := (subtract_lt_iff d _ _).mp (not_le.mp hlt)
  have : (divide d word bit i).2 ≤ (divide d word bit i).2 ||| word i := Nat.left_le_or
  omega

theorem divide_lt_iff_first (hb : bit 0 < 2) : (divide d word bit 1).2 < d ↔ word 0 < d := by
  rw [divide_one,subtract_lt_iff,taken,taken]
  omega

theorem first_lt (hb : bit 0 < 2) {i : ℕ} (h : (divide d word bit (i + 1)).2 < d) : word 0 < d := by
  induction i with
  | zero => exact (divide_lt_iff_first hb).mp h
  | succ i ih => exact ih (lt_of_not_ge fun hle => absurd h (not_lt.mpr (divide_le hle)))

theorem exact_first (hb : bit 0 < 2) : Exact d word bit 1 ↔ word 0 < d := by
  unfold Exact
  rw [divide_lt_iff_first hb,divide_one,subtract_eq]
  simp

theorem exact_succ {i : ℕ} (hb : bit (i + 1) < 2) :
    Exact d word bit (i + 2) ↔
      Exact d word bit (i + 1) ∧ taken word bit (i + 1) % d ||| word (i + 1) = taken word bit (i + 1) % d := by
  have hge := @taken_le d word bit i
  have hor : (divide d word bit (i + 1)).2 ≤ (divide d word bit (i + 1)).2 ||| word (i + 1) := Nat.left_le_or
  have heq : (divide d word bit (i + 2)).1 * d + (divide d word bit (i + 2)).2 =
      2 * ((divide d word bit (i + 1)).1 * d) + (2 * ((divide d word bit (i + 1)).2 ||| word (i + 1)) + bit (i + 1)) :=
    subtract_eq d _ _
  have hlt : (divide d word bit (i + 2)).2 < d ↔ 2 * ((divide d word bit (i + 1)).2 ||| word (i + 1)) + bit (i + 1) < 2 * d :=
    subtract_lt_iff d _ _
  have htaken : taken word bit (i + 2) = 2 * taken word bit (i + 1) + bit (i + 1) := rfl
  constructor
  · rintro ⟨h1,h2⟩
    have hor' : (divide d word bit (i + 1)).2 ||| word (i + 1) = (divide d word bit (i + 1)).2 := by lia
    have hex : Exact d word bit (i + 1) := ⟨by lia,by rw [hlt,hor'] at h2; lia⟩
    exact ⟨hex,hex.mod ▸ hor'⟩
  · rintro ⟨hex,hword⟩
    rw [← hex.mod] at hword
    obtain ⟨he,hr⟩ := hex
    rw [hword] at heq hlt
    exact ⟨by lia,hlt.mpr (by lia)⟩

theorem exact_iff (hb : ∀ i, bit i < 2) (n : ℕ) :
    Exact d word bit (n + 1) ↔
      word 0 < d ∧ ∀ i < n, taken word bit (i + 1) % d ||| word (i + 1) = taken word bit (i + 1) % d := by
  induction n with
  | zero => simpa using exact_first (hb 0)
  | succ n ih =>
    rw [exact_succ (hb _),ih,and_assoc,Nat.forall_lt_succ_right]

end Catlib.LongDivision
