import Mathlib.Algebra.Order.Group.Nat
import Mathlib.Algebra.BigOperators.Group.List.Basic
import Mathlib.Algebra.GroupWithZero.Nat

/-! # Texts of items

A text is read in items up to a stop mark or to where no item can be read. A reader answers with an
item and the number of elements that it takes, at least one.
-/
namespace Catlib

variable {α β : Type} [DecidableEq β]

/-- Every item takes elements that are there. -/
def Advances (read : List β → Option (α × ℕ)) : Prop := ∀ s a n, read s = some (a,n) → 1 ≤ n ∧ n ≤ s.length

def itemsFrom (read : List β → Option (α × ℕ)) (q : β) : ℕ → List β → List α × List β
  | 0, s => ([],s)
  | f + 1, s =>
    if s.head? = some q then ([],s)
    else
      match read s with
      | none => ([],s)
      | some (a,n) => (a :: (itemsFrom read q f (s.drop n)).1,(itemsFrom read q f (s.drop n)).2)

/-- The items of a text in front of the stop mark, and what is left. -/
def items (read : List β → Option (α × ℕ)) (q : β) (s : List β) : List α × List β := itemsFrom read q s.length s

variable {read : List β → Option (α × ℕ)} {q : β} {s : List β}

theorem itemsFrom_enough (hread : Advances read) {f : ℕ} (h : s.length ≤ f) : itemsFrom read q f s = items read q s := by
  rw [items]
  obtain ⟨k,rfl⟩ := Nat.exists_eq_add_of_le h
  clear h
  suffices hs : ∀ (g : ℕ) (s : List β), s.length ≤ g → ∀ k, itemsFrom read q (g + k) s = itemsFrom read q g s from
    hs _ s le_rfl k
  intro g
  induction g with
  | zero =>
    intro s hs k
    obtain rfl := List.length_eq_zero_iff.1 (Nat.le_zero.1 hs)
    cases k with
    | zero => rfl
    | succ k =>
      have hnil : read [] = none := by
        by_contra hne
        obtain ⟨⟨a,n⟩,ha⟩ := Option.ne_none_iff_exists'.1 hne
        have := hread _ _ _ ha
        simp at this
        omega
      rw [Nat.zero_add]
      simp only [itemsFrom, hnil, ite_self]
  | succ g ih =>
    intro s hs k
    rw [Nat.add_right_comm,itemsFrom,itemsFrom]
    rcases hc : read s with _ | ⟨a,n⟩
    · rfl
    · have hn := hread _ _ _ hc
      dsimp only
      rw [ih (s.drop n) (by rw [List.length_drop]; omega) k]

theorem items_stop (hread : Advances read) (h : s.head? = some q ∨ read s = none) : items read q s = ([],s) := by
  rw [← itemsFrom_enough hread (Nat.le_succ _),itemsFrom]
  rcases h with h | h
  · rw [if_pos h]
  · rw [h]
    exact ite_self _

theorem items_step (hread : Advances read) {a : α} {n : ℕ} (hq : s.head? ≠ some q) (h : read s = some (a,n)) :
    items read q s = (a :: (items read q (s.drop n)).1,(items read q (s.drop n)).2) := by
  have hn := hread _ _ _ h
  rw [← itemsFrom_enough hread (Nat.le_succ s.length),itemsFrom,if_neg hq,h]
  dsimp only
  rw [itemsFrom_enough hread (by rw [List.length_drop]; omega)]

variable (read) in
theorem items_induction {P : List β → Prop} (stop : ∀ s, s.head? = some q ∨ read s = none → P s)
    (step : ∀ s a n, s.head? ≠ some q → read s = some (a,n) → (∀ t, t.length < s.length → P t) → P s) (s : List β) : P s := by
  induction hk : s.length using Nat.strong_induction_on generalizing s with
  | _ k ih =>
    subst hk
    by_cases hq : s.head? = some q
    · exact stop s (Or.inl hq)
    · rcases hc : read s with _ | ⟨a,n⟩
      · exact stop s (Or.inr hc)
      · exact step s a n hq hc fun t ht => ih t.length ht t rfl

theorem items_rest (hread : Advances read) (q : β) (s : List β) :
    ((items read q s).2.head? = some q ∨ read (items read q s).2 = none) ∧ (items read q s).2 <:+ s := by
  induction s using items_induction read (q := q) with
  | stop s h =>
    rw [items_stop hread h]
    exact ⟨h,List.suffix_refl s⟩
  | step s a n hq h ih =>
    have hn := hread _ _ _ h
    rw [items_step hread hq h]
    obtain ⟨h1,h2⟩ := ih (s.drop n) (by rw [List.length_drop]; omega)
    exact ⟨h1,h2.trans (List.drop_suffix n s)⟩

end Catlib

/-! # Totals over a list

The sum of a number that each element has, and how it changes with one element.
-/
namespace Catlib

variable {α : Type} {f : α → ℕ} {l : List α} {i : ℕ} {a : α}

def total (f : α → ℕ) (l : List α) : ℕ := (l.map f).sum

theorem total_cons : total f (a :: l) = f a + total f l := rfl

theorem total_append (l' : List α) : total f (l ++ l') = total f l + total f l' := by rw [total,List.map_append,List.sum_append,total,total]

theorem total_eq_zero (h : ∀ a ∈ l, f a = 0) : total f l = 0 := by
  refine List.sum_eq_zero fun n hn => ?_
  obtain ⟨a,ha,rfl⟩ := List.mem_map.1 hn
  exact h a ha

theorem le_total_of_mem (h : l[i]? = some a) : f a ≤ total f l := by
  induction l generalizing i with
  | nil => cases h
  | cons b l ih =>
    rw [total_cons]
    cases i with
    | zero =>
      cases h
      exact Nat.le_add_right _ _
    | succ i => exact (ih h).trans (Nat.le_add_left _ _)

theorem total_set (h : l[i]? = some a) (b : α) : total f (l.set i b) + f a = total f l + f b := by
  induction l generalizing i with
  | nil => cases h
  | cons c l ih =>
    cases i with
    | zero =>
      cases h
      rw [List.set_cons_zero,total_cons,total_cons]
      omega
    | succ i =>
      have h' := ih h
      rw [List.set_cons_succ,total_cons,total_cons]
      omega

end Catlib
