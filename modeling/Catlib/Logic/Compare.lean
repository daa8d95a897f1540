import Mathlib.Algebra.Order.Ring.Int
import Mathlib.Data.Int.Interval

/-! # Comparison functions

A comparison answers with a sign, as comparison functions in C do.
-/
namespace Catlib

variable {κ : Type*}

/-- A comparison function whose sign is a total order on keys, equal keys comparing 0. -/
structure IsCmp (cmp : κ → κ → ℤ) : Prop where
  swap : ∀ a b, cmp a b < 0 ↔ 0 < cmp b a
  trans : ∀ a b c, cmp a b ≤ 0 → cmp b c ≤ 0 → cmp a c ≤ 0

section Compare
variable {cmp : κ → κ → ℤ} (hc : IsCmp cmp)
include hc

theorem IsCmp.le_swap {a b : κ} : 0 ≤ cmp a b ↔ cmp b a ≤ 0 := by
  have := hc.swap a b
  omega

theorem IsCmp.eq_swap {a b : κ} (h : cmp a b = 0) : cmp b a = 0 := by
  have h1 := hc.swap a b
  have h2 := hc.swap b a
  omega

theorem IsCmp.lt_of_lt_of_le {a b c : κ} (h1 : cmp a b < 0) (h2 : cmp b c ≤ 0) : cmp a c < 0 := by
  by_contra h
  have hca : cmp c a ≤ 0 := hc.le_swap.mp (by omega)
  have hba := hc.trans b c a h2 hca
  have := (hc.swap a b).mp h1
  omega

theorem IsCmp.lt_of_le_of_lt {a b c : κ} (h1 : cmp a b ≤ 0) (h2 : cmp b c < 0) : cmp a c < 0 := by
  by_contra h
  have hca : cmp c a ≤ 0 := hc.le_swap.mp (by omega)
  have hcb := hc.trans c a b hca h1
  have := (hc.swap b c).mp h2
  omega

theorem IsCmp.lt_trans {a b c : κ} (h1 : cmp a b < 0) (h2 : cmp b c < 0) : cmp a c < 0 :=
  hc.lt_of_lt_of_le h1 h2.le

theorem IsCmp.refl (a : κ) : cmp a a = 0 := by
  have := hc.swap a a
  omega

theorem IsCmp.eq_trans {a b c : κ} (h1 : cmp a b = 0) (h2 : cmp b c = 0) : cmp a c = 0 := by
  have h3 := hc.trans a b c h1.le h2.le
  have h4 := hc.le_swap.mpr (hc.trans c b a (hc.eq_swap h2).le (hc.eq_swap h1).le)
  omega

end Compare

theorem isCmp_sub : IsCmp (fun a b : ℤ => a - b) := ⟨fun a b => by omega,fun a b c h1 h2 => by omega⟩

/-- A comparison that answers 0 for no two keys. -/
def Distinguishes (cmp : κ → κ → ℤ) : Prop := IsCmp cmp ∧ ∀ a b, cmp a b = 0 → a = b

/-- A difference cut down to the window from `-h` up to `h`, all a narrow result can hold of it. -/
def cutSub (h : ℕ) (a b : ℤ) : ℤ := (a - b).bmod (2 * h)

section Cut
variable {h : ℕ} {val : κ → ℤ}

theorem cutSub_of_lt {a b : ℤ} (hlt : (a - b) % (2 * h) < h) : cutSub h a b = (a - b) % (2 * h) := by
  have := Int.bmod_eq_emod_of_lt (x := a - b) (m := 2 * h) (by push_cast; omega)
  simpa [cutSub] using this

theorem cutSub_of_le {a b : ℤ} (hle : h ≤ (a - b) % (2 * h)) : cutSub h a b = (a - b) % (2 * h) - 2 * h := by
  have := Int.bmod_neg (a - b) (2 * h) (by push_cast; omega)
  simpa [cutSub] using this

theorem cutSub_eq_zero_iff {a b : ℤ} : cutSub h a b = 0 ↔ a % (2 * h) = b % (2 * h) := by
  rw [cutSub,← Int.dvd_iff_bmod_eq_zero,Int.emod_eq_emod_iff_emod_sub_eq_zero,← Int.dvd_iff_emod_eq_zero]
  push_cast
  rfl

theorem cutSub_emod {a b : ℤ} : cutSub h (a % (2 * h)) (b % (2 * h)) = cutSub h a b := by
  have he : ((2 * h : ℕ) : ℤ) = 2 * h := by push_cast; rfl
  rw [cutSub,cutSub,← he,Int.emod_sub_bmod,Int.sub_emod_bmod]

variable (hh : 0 < h)
include hh

theorem cutSub_nonneg_iff {a b : ℤ} : 0 ≤ cutSub h a b ↔ (a - b) % (2 * h) < h := by
  have h1 := Int.emod_lt_of_pos (a - b) (show (0 : ℤ) < 2 * h by omega)
  have h2 := Int.emod_nonneg (a - b) (show (2 * h : ℤ) ≠ 0 by omega)
  by_cases hlt : (a - b) % (2 * h) < h
  · rw [cutSub_of_lt hlt]
    exact ⟨fun _ => hlt,fun _ => h2⟩
  · rw [cutSub_of_le (by omega)]
    omega

theorem cutSub_window {a b m : ℤ} (ha : (a - m) % (2 * h) < h) (hb : (b - m) % (2 * h) < h) :
    cutSub h a b = (a - m) % (2 * h) - (b - m) % (2 * h) := by
  have h1 := Int.emod_nonneg (a - m) (show (2 * h : ℤ) ≠ 0 by omega)
  have h2 := Int.emod_nonneg (b - m) (show (2 * h : ℤ) ≠ 0 by omega)
  have he : cutSub h a b = cutSub h (a - m) (b - m) := by simp [cutSub]
  rw [he,← cutSub_emod,cutSub]
  exact Int.bmod_eq_of_le_mul_two (by push_cast; omega) (by push_cast; omega)

theorem exists_window (hc : IsCmp fun a b => cutSub h (val a) (val b)) [Finite κ] :
    ∃ m, ∀ a, (val a - m) % (2 * h) < h := by
  cases isEmpty_or_nonempty κ with
  | inl hκ => exact ⟨0,fun a => hκ.elim a⟩
  | inr hκ =>
    let lt (a b : κ) : Prop := cutSub h (val a) (val b) < 0
    have : IsTrans κ lt := ⟨fun _ _ _ => hc.lt_trans⟩
    have : Std.Irrefl lt := ⟨fun a (ha : cutSub h (val a) (val a) < 0) => by have := hc.refl a; omega⟩
    obtain ⟨m,-,hm⟩ := (Finite.wellFounded_of_trans_of_irrefl lt).has_min Set.univ Set.univ_nonempty
    refine ⟨val m,fun a => (cutSub_nonneg_iff hh).mp ?_⟩
    have := hm a (Set.mem_univ a)
    exact not_lt.mp this

theorem distinguishes_cutSub_iff :
    Distinguishes (fun a b => cutSub h (val a) (val b)) ↔
      (∀ a b, val a % (2 * h) = val b % (2 * h) → a = b) ∧ ∃ m, ∀ a, (val a - m) % (2 * h) < h := by
  constructor
  · rintro ⟨hc,hz⟩
    have hinj : ∀ a b, val a % (2 * h) = val b % (2 * h) → a = b :=
      fun a b he => hz a b (cutSub_eq_zero_iff.mpr he)
    have hpos (a : κ) : val a % (2 * h) ∈ Set.Ico (0 : ℤ) (2 * h) :=
      ⟨Int.emod_nonneg _ (by omega),Int.emod_lt_of_pos _ (by omega)⟩
    have : Finite κ := Finite.of_injective (fun a => (⟨_,hpos a⟩ : Set.Ico (0 : ℤ) (2 * h)))
      fun a b he => hinj a b (Subtype.ext_iff.mp he)
    exact ⟨hinj,exists_window hh hc⟩
  · rintro ⟨hinj,m,hm⟩
    have he (a b : κ) : cutSub h (val a) (val b) = (val a - m) % (2 * h) - (val b - m) % (2 * h) :=
      cutSub_window hh (hm a) (hm b)
    refine ⟨⟨fun a b => ?_,fun a b c hab hbc => ?_⟩,fun a b hab => hinj a b (cutSub_eq_zero_iff.mp hab)⟩
    · rw [he,he]
      omega
    · rw [he] at hab hbc ⊢
      omega

end Cut

end Catlib
