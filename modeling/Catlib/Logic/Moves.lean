import Mathlib.Data.Nat.Init
import Mathlib.Tactic.Common

/-! # Cells copied one after the other

A copy that reads cells it has written before goes round in them: where the reads lag behind the writes
by a constant, it repeats the first cells, and is a copy only if the source repeats as well.
-/
namespace Catlib

variable {ι α : Type*} [DecidableEq ι] {dst src : ℕ → ι} {m : ι → α} {lag n i : ℕ} {x : ι}

/-- After `n` steps, of which step `i` copies the cell `src i` to `dst i`. -/
def moves (dst src : ℕ → ι) (m : ι → α) : ℕ → ι → α
  | 0 => m
  | n + 1 => Function.update (moves dst src m n) (dst n) (moves dst src m n (src n))

theorem moves_succ (dst src : ℕ → ι) (m : ι → α) (n : ℕ) :
    moves dst src m (n + 1) =
      moves (fun i => dst (i + 1)) (fun i => src (i + 1)) (Function.update m (dst 0) (m (src 0))) n := by
  induction n with
  | zero => rfl
  | succ n ih =>
    rw [moves,ih]
    rfl

theorem moves_of_ne (h : ∀ j < n, x ≠ dst j) : moves dst src m n x = m x := by
  induction n with
  | zero => rfl
  | succ n ih =>
    rw [moves,Function.update_of_ne (h n (Nat.lt_succ_self n)),ih fun j hj => h j (by omega)]

/-- No cell is written twice, and a read meets a written cell `lag` steps later or not at all. -/
structure Lags (dst src : ℕ → ι) (lag n : ℕ) : Prop where
  pos : 0 < lag
  once : ∀ i < n, ∀ j < i, dst i ≠ dst j
  behind : ∀ i < n, lag ≤ i → src i = dst (i - lag)
  before : ∀ i < n, i < lag → ∀ j < i, src i ≠ dst j

omit [DecidableEq ι] in
theorem Lags.mono {k : ℕ} (h : Lags dst src lag n) (hk : k ≤ n) : Lags dst src lag k where
  pos := h.pos
  once := fun i hi => h.once i (by omega)
  behind := fun i hi => h.behind i (by omega)
  before := fun i hi => h.before i (by omega)

theorem moves_dst (h : Lags dst src lag n) (hi : i < n) : moves dst src m n (dst i) = m (src (i % lag)) := by
  induction n generalizing i with
  | zero => omega
  | succ n ih =>
    have ih' {j : ℕ} (hj : j < n) : moves dst src m n (dst j) = m (src (j % lag)) := ih (h.mono (Nat.le_succ n)) hj
    rw [moves]
    rcases Nat.lt_succ_iff_lt_or_eq.mp hi with hin | rfl
    · rw [Function.update_of_ne (h.once n (by omega) i hin).symm,ih' hin]
    · rw [Function.update_self]
      by_cases hlag : lag ≤ i
      · have hpos := h.pos
        rw [h.behind i (by omega) hlag,ih' (by omega),Nat.mod_eq_sub_mod hlag]
      · rw [moves_of_ne (h.before i (by omega) (by omega)),Nat.mod_eq_of_lt (by omega)]

theorem eq_mod_iff_repeats (f : ℕ → α) (hlag : 0 < lag) :
    (∀ i < n, f (i % lag) = f i) ↔ ∀ i, i + lag < n → f i = f (i + lag) := by
  constructor
  · intro h i hi
    rw [← h i (by omega),← h (i + lag) hi,Nat.add_mod_right]
  · intro h i
    induction i using Nat.strong_induction_on with
    | _ i ih =>
      intro hi
      by_cases hle : lag ≤ i
      · have hprev := h (i - lag) (by omega)
        rw [Nat.sub_add_cancel hle] at hprev
        rw [Nat.mod_eq_sub_mod hle,ih (i - lag) (by omega) (by omega),hprev]
      · rw [Nat.mod_eq_of_lt (by omega)]

theorem moves_copies_iff (h : Lags dst src lag n) :
    (∀ i < n, moves dst src m n (dst i) = m (src i)) ↔ ∀ i, i + lag < n → m (src i) = m (src (i + lag)) := by
  rw [← eq_mod_iff_repeats (fun i => m (src i)) h.pos]
  exact forall₂_congr fun i hi => by rw [moves_dst h hi]

end Catlib
