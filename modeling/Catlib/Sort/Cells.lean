import Catlib.Logic.Compare
import Catlib.Logic.Loop
import Mathlib.Logic.Equiv.Fin.Basic
import Mathlib.GroupTheory.Perm.Basic
import Mathlib.Data.Fintype.Perm

/-! # Arrays that are sorted in place

A sort reads an array through comparisons of two elements and changes it through
exchanges of two elements. Both are checked against the number of elements, so that a
sort that comes back never left the array. What a sequence of exchanges within a segment
preserves is proved once.
-/
namespace Catlib.Sort

variable {M α : Type}

/-- A memory that holds `nelem` elements which can be exchanged. -/
structure Cells (M α : Type) where
  elem : M → ℕ → α
  swap : M → ℕ → ℕ → M
  nelem : ℕ
  elem_swap : ∀ m i j k, i < nelem → j < nelem → k < nelem →
    elem (swap m i j) k = if k = i then elem m j else if k = j then elem m i else elem m k

variable (A : Cells M α) (cmp : α → α → ℤ)

def Cells.cmpAt (m : M) (i j : ℕ) : Option ℤ :=
  if i < A.nelem ∧ j < A.nelem then some (cmp (A.elem m i) (A.elem m j)) else none

def Cells.swapAt (m : M) (i j : ℕ) : Option M :=
  if i < A.nelem ∧ j < A.nelem then some (A.swap m i j) else none

def Cells.toList (m : M) : List α := List.ofFn (fun i : Fin A.nelem => A.elem m i)

variable {A cmp} {m m' m'' : M} {lo hi i j s n : ℕ}

theorem cmpAt_of_lt (cmp : α → α → ℤ) (m : M) (hi : i < A.nelem) (hj : j < A.nelem) :
    A.cmpAt cmp m i j = some (cmp (A.elem m i) (A.elem m j)) := if_pos ⟨hi,hj⟩

theorem swapAt_of_lt (hi : i < A.nelem) (hj : j < A.nelem) : A.swapAt m i j = some (A.swap m i j) := if_pos ⟨hi,hj⟩

theorem elem_swap_left (hi : i < A.nelem) (hj : j < A.nelem) : A.elem (A.swap m i j) i = A.elem m j := by
  rw [A.elem_swap m i j i hi hj hi,if_pos rfl]

theorem elem_swap_right (hi : i < A.nelem) (hj : j < A.nelem) : A.elem (A.swap m i j) j = A.elem m i := by
  rw [A.elem_swap m i j j hi hj hj]
  split
  · rename_i h
    rw [h]
  · rw [if_pos rfl]

theorem elem_swap_ne {k : ℕ} (hi : i < A.nelem) (hj : j < A.nelem) (hk : k < A.nelem) (hki : k ≠ i) (hkj : k ≠ j) :
    A.elem (A.swap m i j) k = A.elem m k := by
  rw [A.elem_swap m i j k hi hj hk,if_neg hki,if_neg hkj]

/-! ## Sequences of exchanges -/

/-- The second memory is the first after exchanges between positions of `[lo,hi)`. -/
inductive Swaps (A : Cells M α) (lo hi : ℕ) (m : M) : M → Prop
  | refl : Swaps A lo hi m m
  | swap {m' : M} {i j : ℕ} (hs : Swaps A lo hi m m') (hx : lo ≤ i ∧ i < hi) (hy : lo ≤ j ∧ j < hi) :
      Swaps A lo hi m (A.swap m' i j)

theorem Swaps.one (hx : lo ≤ i ∧ i < hi) (hy : lo ≤ j ∧ j < hi) : Swaps A lo hi m (A.swap m i j) :=
  .swap .refl hx hy

theorem Swaps.trans (h1 : Swaps A lo hi m m') (h2 : Swaps A lo hi m' m'') : Swaps A lo hi m m'' := by
  induction h2 with
  | refl => exact h1
  | swap _ hx hy ih => exact .swap ih hx hy

theorem Swaps.mono {lo' hi' : ℕ} (h : Swaps A lo hi m m') (hlo : lo' ≤ lo) (hhi : hi ≤ hi') : Swaps A lo' hi' m m' := by
  induction h with
  | refl => exact .refl
  | swap _ hx hy ih => exact .swap ih (by omega) (by omega)

theorem Swaps.outside (h : Swaps A lo hi m m') (hn : hi ≤ A.nelem) {k : ℕ} (hk : k < A.nelem)
    (ho : k < lo ∨ hi ≤ k) : A.elem m' k = A.elem m k := by
  induction h with
  | refl => rfl
  | swap _ hx hy ih =>
    rw [elem_swap_ne (by omega) (by omega) hk (by omega) (by omega)]
    exact ih

theorem Swaps.forall {P : α → Prop} (h : Swaps A lo hi m m') (hn : hi ≤ A.nelem)
    (hP : ∀ k, lo ≤ k → k < hi → P (A.elem m k)) : ∀ k, lo ≤ k → k < hi → P (A.elem m' k) := by
  induction h with
  | refl => exact hP
  | @swap m' i j _ hx hy ih =>
    intro k hk1 hk2
    rw [A.elem_swap _ _ _ _ (by omega) (by omega) (by omega)]
    split
    · exact ih j hy.1 hy.2
    · split
      · exact ih i hx.1 hx.2
      · exact ih k hk1 hk2

theorem Swaps.perm (h : Swaps A lo hi m m') (hn : hi ≤ A.nelem) : (A.toList m').Perm (A.toList m) := by
  induction h with
  | refl => exact List.Perm.refl _
  | @swap m' i j _ hx hy ih =>
    refine List.Perm.trans ?_ ih
    let a : Fin A.nelem := ⟨i,by omega⟩
    let b : Fin A.nelem := ⟨j,by omega⟩
    have he : (fun k : Fin A.nelem => A.elem (A.swap m' i j) k) =
        (fun k : Fin A.nelem => A.elem m' k) ∘ Equiv.swap a b := by
      funext k
      simp only [Function.comp_apply, Equiv.swap_apply_def]
      rw [A.elem_swap _ _ _ _ (by omega) (by omega) k.isLt]
      simp only [Fin.ext_iff, a, b]
      split
      · rfl
      · split <;> rfl
    simp only [Cells.toList, he]
    exact Equiv.Perm.ofFn_comp_perm (Equiv.swap a b) _

/-! ## Sorted segments -/

/-- The `n` elements from `s` on are in non-decreasing order. -/
def SortedOn (A : Cells M α) (cmp : α → α → ℤ) (m : M) (s n : ℕ) : Prop :=
  ∀ i j, s ≤ i → i < j → j < s + n → cmp (A.elem m i) (A.elem m j) ≤ 0

/-- What a sort of a segment delivers. -/
def SortsTo (A : Cells M α) (cmp : α → α → ℤ) (m : M) (s n : ℕ) (m' : M) : Prop :=
  Swaps A s (s + n) m m' ∧ SortedOn A cmp m' s n

theorem SortedOn.pairwise (h : SortedOn A cmp m 0 A.nelem) : (A.toList m).Pairwise (fun a b => cmp a b ≤ 0) := by
  rw [Cells.toList,List.pairwise_ofFn]
  exact fun i j hij => h i j (Nat.zero_le _) hij (by omega)

theorem sortedOn_short (h : n ≤ 1) : SortedOn A cmp m s n := fun i j _ _ _ => by omega

end Catlib.Sort
