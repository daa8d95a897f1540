import Catlib.Sort.Heap
import Catlib.Sort.Simple

/-! # Quick sort

`qsort_array` keeps the segments it still has to sort on a stack of fixed size, sorts
short ones by insertion and those that lie too deep by heap sort.
-/
namespace Catlib.Sort

variable {M α : Type} {A : Cells M α} {cmp : α → α → ℤ} {m m' : M} {s n p fuel lo hi : ℕ}

def isortThresh : ℕ := 8
def qsMaxdepth : ℕ := 48

/-- `struct qswork`. -/
structure QsWork where
  start : ℕ
  nelem : ℕ
  qdepth : ℕ

/-- The index of the element of the three that is neither least nor greatest. -/
def median3 (A : Cells M α) (cmp : α → α → ℤ) (m : M) (m1 m2 m3 : ℕ) : Option ℕ := do
  let c12 ← A.cmpAt cmp m m1 m2
  if c12 < 0 then
    let c23 ← A.cmpAt cmp m m2 m3
    if c23 < 0 then return m2
    else
      let c13 ← A.cmpAt cmp m m1 m3
      if c13 < 0 then return m3 else return m1
  else
    let c13 ← A.cmpAt cmp m m1 m3
    if c13 < 0 then return m1
    else
      let c23 ← A.cmpAt cmp m m2 m3
      if c23 < 0 then return m3 else return m2

/-- The pivot of the segment of `n` elements from `start` on: the middle one of three, or
of three medians when the segment is long. -/
def choosePivot (A : Cells M α) (cmp : α → α → ℤ) (m : M) (start n : ℕ) : Option ℕ := do
  let m1 := start
  let m2 := start + n / 2
  let m3 := start + n - 1
  if n > 64 then
    let stride := n / 9
    let m1 ← median3 A cmp m m1 (m1 + stride) (m1 + stride * 2)
    let m2 ← median3 A cmp m (m2 - stride) m2 (m2 + stride)
    let m3 ← median3 A cmp m (m3 - stride * 2) (m3 - stride) m3
    median3 A cmp m m1 m2 m3
  else median3 A cmp m m1 m2 m3

/-- The scan of `lo` upwards. It stops at an element above the pivot, or it is done with
the final `lo` and `hi`. -/
def scanLo (A : Cells M α) (cmp : α → α → ℤ) (m : M) (start hi lo : ℕ) : Option (Turn ℕ (ℕ ⊕ (ℕ × ℕ))) := do
  let c ← A.cmpAt cmp m start lo
  if c ≥ 0 then
    if lo = hi then return .leave (.inr (lo,hi + 1)) else return .again (lo + 1)
  else return .leave (.inl lo)

/-- The scan of `hi` downwards. -/
def scanHi (A : Cells M α) (cmp : α → α → ℤ) (m : M) (start lo hi : ℕ) : Option (Turn ℕ (ℕ ⊕ (ℕ × ℕ))) := do
  let c ← A.cmpAt cmp m start hi
  if c < 0 then
    if lo = hi then return .leave (.inr (lo - 1,hi)) else return .again (hi - 1)
  else return .leave (.inl hi)

/-- One turn of the partitioning loop, on `lo`, `hi` and the array. -/
def partBody (A : Cells M α) (cmp : α → α → ℤ) (start fuel : ℕ) (x : ℕ × ℕ × M) :
    Option (Turn (ℕ × ℕ × M) (ℕ × ℕ × M)) := do
  let (lo,hi,m) := x
  match ← loop (scanLo A cmp m start hi) fuel lo with
  | .inr (lo,hi) => return .leave (lo,hi,m)
  | .inl lo =>
    match ← loop (scanHi A cmp m start lo) fuel hi with
    | .inr (lo,hi) => return .leave (lo,hi,m)
    | .inl hi =>
      let m ← A.swapAt m lo hi
      if lo + 1 = hi then return .leave (lo,hi,m) else return .again (lo + 1,hi - 1,m)

def pivotToStart (A : Cells M α) (m : M) (start pivot : ℕ) : Option M :=
  if pivot ≠ start then A.swapAt m start pivot else some m

/-- The actual quicksort step: choose a pivot, partition, and put the pivot between the two
parts. It answers with `lo`, `hi` and the array. -/
def partition (A : Cells M α) (cmp : α → α → ℤ) (m : M) (start n fuel : ℕ) : Option (ℕ × ℕ × M) := do
  let pivot ← choosePivot A cmp m start n
  let m ← pivotToStart A m start pivot
  let (lo,hi,m) ← loop (partBody A cmp start fuel) fuel (start + 1,start + n - 1,m)
  let m ← A.swapAt m start lo
  return (lo,hi,m)

/-- The variables of the outer loop. -/
structure QsState (M : Type) where
  start : ℕ
  n : ℕ
  depth : ℕ
  stack : List QsWork
  mem : M

/-- The macro `PUSH`, which fails past the end of the stack. -/
def push (stack : List QsWork) (w : QsWork) : Option (List QsWork) :=
  if stack.length < qsMaxdepth then some (w :: stack) else none

/-- Leave the loop when the stack is empty, or go on with what `POP` yields. -/
def popOrLeave (stack : List QsWork) (m : M) : Turn (QsState M) M :=
  match stack with
  | [] => .leave m
  | w :: stack => .again ⟨w.start,w.nelem,w.qdepth,stack,m⟩

/-- One turn of the outer loop of `qsort_array`. -/
def qsBody (A : Cells M α) (cmp : α → α → ℤ) (bailout fuel : ℕ) (x : QsState M) : Option (Turn (QsState M) M) :=
  if x.depth > bailout then do
    let m ← hsortI A cmp x.mem x.start x.n fuel
    return popOrLeave x.stack m
  else do
    let (lo,hi,m) ← partition A cmp x.mem x.start x.n fuel
    let depth := x.depth + 1
    let n := x.start + x.n - hi
    let nlo := lo - x.start
    if n > isortThresh then
      if nlo > isortThresh then
        let stack ← push x.stack ⟨x.start,nlo,depth⟩
        return .again ⟨hi,n,depth,stack,m⟩
      else
        let m ← isortI A cmp m x.start nlo fuel
        return .again ⟨hi,n,depth,x.stack,m⟩
    else
      let m ← isortI A cmp m hi n fuel
      if nlo ≤ isortThresh then
        let m ← isortI A cmp m x.start nlo fuel
        return popOrLeave x.stack m
      else return .again ⟨x.start,nlo,depth,x.stack,m⟩

/-- The loop that finds `floor(log2(n))`, on `n` and `bailout_depth`. -/
def log2Body (x : ℕ × ℕ) : Option (Turn (ℕ × ℕ) ℕ) :=
  let n := x.1 >>> 1
  if n ≠ 0 then some (.again (n,x.2 + 1)) else some (.leave x.2)

/-- Twice the binary logarithm of the number of elements, capped by the size of the stack. -/
def bailoutDepth (nelem fuel : ℕ) : Option ℕ := do
  let b ← loop log2Body fuel (nelem,0)
  let b := b * 2
  if b > qsMaxdepth - 3 then return qsMaxdepth - 3 else return b

/-- `qsort_array` behind its checks of the arguments. -/
def qsortI (A : Cells M α) (cmp : α → α → ℤ) (m : M) (nelem fuel : ℕ) : Option M :=
  if nelem ≤ isortThresh then isortI A cmp m 0 nelem fuel
  else do
    let bailout ← bailoutDepth nelem fuel
    loop (qsBody A cmp bailout fuel) fuel ⟨0,nelem,1,[],m⟩

/-! ## Partitioning -/

theorem median3_spec (cmp : α → α → ℤ) (m : M) {a b c : ℕ} (ha : a < A.nelem) (hb : b < A.nelem) (hc : c < A.nelem) :
    ∃ k, median3 A cmp m a b c = some k ∧ (k = a ∨ k = b ∨ k = c) := by
  simp only [median3, cmpAt_of_lt cmp m ha hb, cmpAt_of_lt cmp m hb hc, cmpAt_of_lt cmp m ha hc,
    Option.bind_eq_bind, Option.bind_some]
  split
  · split
    · exact ⟨b,rfl,by simp⟩
    · split
      · exact ⟨c,rfl,by simp⟩
      · exact ⟨a,rfl,by simp⟩
  · split
    · exact ⟨a,rfl,by simp⟩
    · split
      · exact ⟨c,rfl,by simp⟩
      · exact ⟨b,rfl,by simp⟩

theorem choosePivot_spec (cmp : α → α → ℤ) (m : M) (hn : s + n ≤ A.nelem) (h8 : 8 < n) :
    ∃ k, choosePivot A cmp m s n = some k ∧ s ≤ k ∧ k < s + n := by
  unfold choosePivot
  dsimp only
  split
  · obtain ⟨k1,e1,h1⟩ := median3_spec cmp m (show s < A.nelem by lia)
      (show s + n / 9 < A.nelem by lia) (show s + n / 9 * 2 < A.nelem by lia)
    obtain ⟨k2,e2,h2⟩ := median3_spec cmp m (show s + n / 2 - n / 9 < A.nelem by lia)
      (show s + n / 2 < A.nelem by lia) (show s + n / 2 + n / 9 < A.nelem by lia)
    obtain ⟨k3,e3,h3⟩ := median3_spec cmp m (show s + n - 1 - n / 9 * 2 < A.nelem by lia)
      (show s + n - 1 - n / 9 < A.nelem by lia) (show s + n - 1 < A.nelem by lia)
    obtain ⟨k,e,h⟩ := median3_spec cmp m (show k1 < A.nelem by lia) (show k2 < A.nelem by lia)
      (show k3 < A.nelem by lia)
    refine ⟨k,?_,by lia,by lia⟩
    simp only [e1, e2, e3, e, Option.bind_eq_bind, Option.bind_some]
  · obtain ⟨k,e,h⟩ := median3_spec cmp m (show s < A.nelem by lia)
      (show s + n / 2 < A.nelem by lia) (show s + n - 1 < A.nelem by lia)
    exact ⟨k,e,by lia,by lia⟩

/-- The elements of an interval that do not exceed the pivot at `s`, and those that do. -/
def AtMost (A : Cells M α) (cmp : α → α → ℤ) (m : M) (s a b : ℕ) : Prop :=
  ∀ i, a ≤ i → i < b → 0 ≤ cmp (A.elem m s) (A.elem m i)
def Exceeds (A : Cells M α) (cmp : α → α → ℤ) (m : M) (s a b : ℕ) : Prop :=
  ∀ i, a ≤ i → i < b → cmp (A.elem m s) (A.elem m i) < 0

theorem scanLo_spec (cmp : α → α → ℤ) (m : M) (hs : s < A.nelem) (hh : hi < A.nelem) (hl : lo ≤ hi) (hf : hi - lo < fuel) :
    ∃ r, loop (scanLo A cmp m s hi) fuel lo = some r ∧
      (r = .inr (hi,hi + 1) ∧ AtMost A cmp m s lo (hi + 1) ∨
        ∃ k, r = .inl k ∧ lo ≤ k ∧ k ≤ hi ∧ AtMost A cmp m s lo k ∧ cmp (A.elem m s) (A.elem m k) < 0) := by
  let I : ℕ → ℕ → Prop := fun k x => k = hi - x ∧ lo ≤ x ∧ x ≤ hi ∧ AtMost A cmp m s lo x
  have h0 : I (hi - lo) lo := ⟨rfl,le_rfl,hl,fun i h1 h2 => absurd h1 (not_le.mpr h2)⟩
  refine loop_total ?_ h0 hf
  rintro _ x ⟨rfl,h1,h2,hm⟩
  have hca := cmpAt_of_lt cmp m hs (show x < A.nelem by omega)
  by_cases hge : 0 ≤ cmp (A.elem m s) (A.elem m x)
  · have hm' : AtMost A cmp m s lo (x + 1) := by
      intro i hi1 hi2
      rcases Nat.lt_succ_iff_lt_or_eq.mp hi2 with hi2 | rfl
      · exact hm i hi1 hi2
      · exact hge
    by_cases hx : x = hi
    · subst hx
      exact Or.inr ⟨_,by simp [scanLo, hca, hge],Or.inl ⟨rfl,hm'⟩⟩
    · exact Or.inl ⟨x + 1,hi - (x + 1),by simp [scanLo, hca, hge, hx],by omega,rfl,by omega,by omega,hm'⟩
  · exact Or.inr ⟨_,by simp [scanLo, hca, hge],Or.inr ⟨x,rfl,h1,h2,hm,not_le.mp hge⟩⟩

theorem scanHi_spec (cmp : α → α → ℤ) (m : M) (hs : s < A.nelem) (hh : hi < A.nelem) (hl : lo ≤ hi) (hf : hi - lo < fuel) :
    ∃ r, loop (scanHi A cmp m s lo) fuel hi = some r ∧
      (r = .inr (lo - 1,lo) ∧ Exceeds A cmp m s lo (hi + 1) ∨
        ∃ k, r = .inl k ∧ lo ≤ k ∧ k ≤ hi ∧ Exceeds A cmp m s (k + 1) (hi + 1) ∧
          0 ≤ cmp (A.elem m s) (A.elem m k)) := by
  let I : ℕ → ℕ → Prop := fun k x => k = x - lo ∧ lo ≤ x ∧ x ≤ hi ∧ Exceeds A cmp m s (x + 1) (hi + 1)
  have h0 : I (hi - lo) hi := ⟨rfl,hl,le_rfl,fun i h1 h2 => absurd h1 (not_le.mpr h2)⟩
  refine loop_total ?_ h0 hf
  rintro _ x ⟨rfl,h1,h2,hm⟩
  have hca := cmpAt_of_lt cmp m hs (show x < A.nelem by omega)
  by_cases hlt : cmp (A.elem m s) (A.elem m x) < 0
  · have hm' : Exceeds A cmp m s x (hi + 1) := by
      intro i hi1 hi2
      rcases Nat.eq_or_lt_of_le hi1 with rfl | hi1
      · exact hlt
      · exact hm i hi1 hi2
    by_cases hx : lo = x
    · subst hx
      exact Or.inr ⟨_,by simp [scanHi, hca, hlt],Or.inl ⟨rfl,hm'⟩⟩
    · refine Or.inl ⟨x - 1,x - 1 - lo,by simp [scanHi, hca, hlt, hx],by omega,rfl,by omega,by omega,?_⟩
      rwa [Nat.sub_add_cancel (by omega)]
  · exact Or.inr ⟨_,by simp [scanHi, hca, hlt],Or.inr ⟨x,rfl,h1,h2,hm,not_lt.mp hlt⟩⟩

/-- What the partitioning loop leaves behind the pivot. -/
structure Split (A : Cells M α) (cmp : α → α → ℤ) (m : M) (s n lo hi : ℕ) (m' : M) : Prop where
  swaps : Swaps A (s + 1) (s + n) m m'
  lo_ge : s ≤ lo
  hi_eq : hi = lo + 1
  hi_le : hi ≤ s + n
  low : AtMost A cmp m' s (s + 1) hi
  high : Exceeds A cmp m' s hi (s + n)

theorem partLoop_spec (cmp : α → α → ℤ) (m : M) (hn : s + n ≤ A.nelem) (h2 : 2 ≤ n) (hf : n < fuel) :
    ∃ r, loop (partBody A cmp s fuel) fuel (s + 1,s + n - 1,m) = some r ∧ Split A cmp m s n r.1 r.2.1 r.2.2 := by
  let I : ℕ → ℕ × ℕ × M → Prop := fun k x =>
    k = x.2.1 + 1 - x.1 ∧ s < x.1 ∧ x.1 ≤ x.2.1 ∧ x.2.1 < s + n ∧ Swaps A (s + 1) (s + n) m x.2.2 ∧
      AtMost A cmp x.2.2 s (s + 1) x.1 ∧ Exceeds A cmp x.2.2 s (x.2.1 + 1) (s + n)
  have h0 : I (s + n - 1 + 1 - (s + 1)) (s + 1,s + n - 1,m) := by
    refine ⟨rfl,Nat.lt_succ_self s,by dsimp only; lia,by dsimp only; lia,.refl,fun i h1 h2 => ?_,fun i h1 h2 => ?_⟩
    · exact absurd h1 (not_le.mpr h2)
    · dsimp only at h1
      lia
  refine loop_total ?_ h0 (by lia)
  rintro k ⟨lo,hi,m₁⟩ ⟨rfl,h1,h2,h3,hsw,hlow,hhigh⟩
  dsimp only at h1 h2 h3 hsw hlow hhigh ⊢
  have hs : s < A.nelem := by lia
  obtain ⟨r,hr,⟨rfl,hup⟩ | ⟨l,rfl,hl1,hl2,hup,hgt⟩⟩ := scanLo_spec cmp m₁ hs
    (show hi < A.nelem by lia) h2 (show hi - lo < fuel by lia)
  · refine Or.inr ⟨(hi,hi + 1,m₁),by simp [partBody, hr],hsw,by dsimp only; lia,rfl,by dsimp only; lia,?_,hhigh⟩
    intro i hi1 hi2
    by_cases hil : i < lo
    · exact hlow i hi1 hil
    · exact hup i (not_lt.mp hil) hi2
  have hlow' : AtMost A cmp m₁ s (s + 1) l := by
    intro i hi1 hi2
    by_cases hil : i < lo
    · exact hlow i hi1 hil
    · exact hup i (not_lt.mp hil) hi2
  obtain ⟨r,hr',⟨rfl,hdn⟩ | ⟨h,rfl,hh1,hh2,hdn,hle⟩⟩ := scanHi_spec cmp m₁ hs
    (show hi < A.nelem by lia) hl2 (show hi - l < fuel by lia)
  · refine Or.inr ⟨(l - 1,l,m₁),by simp [partBody, hr, hr'],hsw,by dsimp only; lia,by dsimp only; lia,
      by dsimp only; lia,hlow',fun j hj1 hj2 => ?_⟩
    by_cases hjh : j < hi + 1
    · exact hdn j hj1 hjh
    · exact hhigh j (not_lt.mp hjh) hj2
  have hlh : l < h := by
    rcases Nat.eq_or_lt_of_le hh1 with rfl | hlh
    · lia
    · exact hlh
  have hb1 : l < A.nelem := by lia
  have hb2 : h < A.nelem := by lia
  have hsw' : Swaps A (s + 1) (s + n) m (A.swap m₁ l h) := .swap hsw (by lia) (by lia)
  have hpiv : A.elem (A.swap m₁ l h) s = A.elem m₁ s := elem_swap_ne hb1 hb2 hs (by lia) (by lia)
  have hlow₂ : AtMost A cmp (A.swap m₁ l h) s (s + 1) (l + 1) := by
    intro i hi1 hi2
    rw [hpiv]
    rcases Nat.lt_succ_iff_lt_or_eq.mp hi2 with hi2 | rfl
    · rw [elem_swap_ne hb1 hb2 (by lia) (by lia) (by lia)]
      exact hlow' i hi1 hi2
    · rw [elem_swap_left hb1 hb2]
      exact hle
  have hhigh₂ : Exceeds A cmp (A.swap m₁ l h) s h (s + n) := by
    intro j hj1 hj2
    rw [hpiv]
    rcases Nat.eq_or_lt_of_le hj1 with rfl | hj1
    · rw [elem_swap_right hb1 hb2]
      exact hgt
    · rw [elem_swap_ne hb1 hb2 (by lia) (by lia) (by lia)]
      by_cases hjh : j < hi + 1
      · exact hdn j hj1 hjh
      · exact hhigh j (not_lt.mp hjh) hj2
  by_cases hadj : l + 1 = h
  · subst hadj
    exact Or.inr ⟨(l,l + 1,A.swap m₁ l (l + 1)),by simp [partBody, hr, hr', swapAt_of_lt hb1 hb2],hsw',
      by dsimp only; lia,rfl,by dsimp only; lia,hlow₂,hhigh₂⟩
  · refine Or.inl ⟨(l + 1,h - 1,A.swap m₁ l h),h - 1 + 1 - (l + 1),by simp [partBody, hr, hr', swapAt_of_lt hb1 hb2, hadj],
      by lia,rfl,by dsimp only; lia,by dsimp only; lia,by dsimp only; lia,hsw',hlow₂,?_⟩
    dsimp only
    rwa [Nat.sub_add_cancel (by lia)]

/-- What a partition of the segment delivers: nothing before the pivot exceeds it, and it
exceeds nothing behind it. -/
structure Partitioned (A : Cells M α) (cmp : α → α → ℤ) (m : M) (s n lo hi : ℕ) (m' : M) : Prop where
  swaps : Swaps A s (s + n) m m'
  lo_ge : s ≤ lo
  hi_eq : hi = lo + 1
  hi_le : hi ≤ s + n
  low : ∀ i, s ≤ i → i < lo → cmp (A.elem m' i) (A.elem m' lo) ≤ 0
  high : ∀ j, hi ≤ j → j < s + n → cmp (A.elem m' lo) (A.elem m' j) ≤ 0

theorem partition_spec (hc : IsCmp cmp) (hn : s + n ≤ A.nelem) (h8 : 8 < n) (hf : n < fuel) :
    ∃ lo hi m', partition A cmp m s n fuel = some (lo,hi,m') ∧ Partitioned A cmp m s n lo hi m' := by
  obtain ⟨p,hp,hp1,hp2⟩ := choosePivot_spec cmp m hn h8
  have hb : s < A.nelem := by lia
  have hbp : p < A.nelem := by lia
  obtain ⟨m₁,hm₁,hsw₁⟩ : ∃ m₁, pivotToStart A m s p = some m₁ ∧ Swaps A s (s + n) m m₁ := by
    unfold pivotToStart
    by_cases hps : p ≠ s
    · exact ⟨_,by rw [if_pos hps,swapAt_of_lt hb hbp],.one (by lia) (by lia)⟩
    · exact ⟨m,if_neg hps,.refl⟩
  obtain ⟨⟨lo,hi,m₂⟩,hl,hs⟩ := partLoop_spec cmp m₁ hn (by lia) hf
  obtain ⟨hsw,hlo,hhi,hle,hlow,hhigh⟩ := hs
  dsimp only at hsw hlo hhi hle hlow hhigh
  have hbl : lo < A.nelem := by lia
  have heq : ∀ i, s < i → i < s + n → i ≠ lo → A.elem (A.swap m₂ s lo) i = A.elem m₂ i :=
    fun i h1 h2 h3 => elem_swap_ne hb hbl (by lia) (by lia) h3
  refine ⟨lo,hi,A.swap m₂ s lo,?_,hsw₁.trans ((hsw.mono (by lia) le_rfl).trans (.one (by lia) (by lia))),hlo,hhi,hle,
    fun i h1 h2 => ?_,fun j h1 h2 => ?_⟩
  · simp only [partition, hp, hm₁, hl, swapAt_of_lt hb hbl, Option.bind_eq_bind, Option.bind_some, Option.pure_def]
  · rw [elem_swap_right hb hbl]
    by_cases his : i = s
    · subst his
      rw [elem_swap_left hb hbl]
      exact hc.le_swap.mp (hlow lo (by lia) (by lia))
    · rw [heq i (by lia) (by lia) (by lia)]
      exact hc.le_swap.mp (hlow i (by lia) (by lia))
  · rw [elem_swap_right hb hbl,heq j (by lia) h2 (by lia)]
    exact (hhigh j h1 h2).le

end Catlib.Sort
