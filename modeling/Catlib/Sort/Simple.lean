import Catlib.Sort.Cells

/-! # Insertion sort and selection sort

A pointer into the array is the index of the element it points at.
-/
namespace Catlib.Sort

variable {M α : Type} {A : Cells M α} {cmp : α → α → ℤ} {m m' : M} {s n p fuel : ℕ}

/-! ## Insertion sort -/

/-- The inner loop of `isort_i`, on `p2` and the array. -/
def isortInner (A : Cells M α) (cmp : α → α → ℤ) (start : ℕ) (x : ℕ × M) : Option (Turn (ℕ × M) M) :=
  let (p2,m) := x
  if p2 > start then do
    let tmp := p2 - 1
    let c ← A.cmpAt cmp m tmp p2
    if c > 0 then
      let m ← A.swapAt m tmp p2
      return .again (tmp,m)
    else return .leave m
  else some (.leave m)

/-- The outer loop of `isort_i`, on `p1` and the array. -/
def isortOuter (A : Cells M α) (cmp : α → α → ℤ) (start last fuel : ℕ) (x : ℕ × M) : Option (Turn (ℕ × M) M) :=
  let (p1,m) := x
  if p1 < last then do
    let m ← loop (isortInner A cmp start) fuel (p1,m)
    return .again (p1 + 1,m)
  else some (.leave m)

/-- `isort_i` on the segment of `nelem` elements from `start` on. -/
def isortI (A : Cells M α) (cmp : α → α → ℤ) (m : M) (start nelem fuel : ℕ) : Option M :=
  loop (isortOuter A cmp start (start + nelem) fuel) fuel (start + 1,m)

/-- The elements up to `p` are in order except that the one at `k` may have to move down. -/
structure InsertAt (A : Cells M α) (cmp : α → α → ℤ) (m : M) (s p k : ℕ) : Prop where
  others : ∀ i j, s ≤ i → i < j → j ≤ p → i ≠ k → j ≠ k → cmp (A.elem m i) (A.elem m j) ≤ 0
  above : ∀ j, k < j → j ≤ p → cmp (A.elem m k) (A.elem m j) ≤ 0

theorem isortInner_spec (hc : IsCmp cmp) (hs : s ≤ p) (hp : p < A.nelem) (hm : SortedOn A cmp m s (p - s))
    (hf : p - s < fuel) :
    ∃ m', loop (isortInner A cmp s) fuel (p,m) = some m' ∧ SortsTo A cmp m s (p - s + 1) m' := by
  let I : ℕ → ℕ × M → Prop := fun k x =>
    k = x.1 - s ∧ s ≤ x.1 ∧ x.1 ≤ p ∧ Swaps A s (s + (p - s + 1)) m x.2 ∧ InsertAt A cmp x.2 s p x.1
  have h0 : I (p - s) (p,m) := by
    refine ⟨rfl,hs,le_rfl,.refl,fun i j hi hij hj _ hjk => hm i j hi hij ?_,fun j h1 h2 => ?_⟩
    · simp only at hjk
      lia
    · simp only at h1
      lia
  refine loop_total ?_ h0 hf
  rintro k ⟨p2,m₁⟩ ⟨rfl,h1,h2,hsw,ho,ha⟩
  dsimp only at h1 h2 hsw ho ha ⊢
  have hdone : (p2 = s ∨ cmp (A.elem m₁ (p2 - 1)) (A.elem m₁ p2) ≤ 0) → SortedOn A cmp m₁ s (p - s + 1) := by
    intro hd i j hi hij hj
    by_cases hjk : j = p2
    · subst hjk
      have h3 := hd.resolve_left (by lia)
      by_cases hip : i = j - 1
      · rwa [hip]
      · exact hc.trans _ _ _ (ho i (j - 1) hi (by lia) (by lia) (by lia) (by lia)) h3
    · by_cases hik : i = p2
      · subst hik
        exact ha j hij (by lia)
      · exact ho i j hi hij (by lia) hik hjk
  by_cases hps : p2 = s
  · exact Or.inr ⟨m₁,by simp [isortInner, hps],hsw,hdone (Or.inl hps)⟩
  have hlt : s < p2 := by lia
  have hb1 : p2 - 1 < A.nelem := by lia
  have hb2 : p2 < A.nelem := by lia
  by_cases hgt : cmp (A.elem m₁ (p2 - 1)) (A.elem m₁ p2) ≤ 0
  · exact Or.inr ⟨m₁,by simp [isortInner, hlt, cmpAt_of_lt cmp m₁ hb1 hb2, hgt],hsw,hdone (Or.inr hgt)⟩
  refine Or.inl ⟨(p2 - 1,A.swap m₁ (p2 - 1) p2),p2 - 1 - s,?_,by lia,rfl,by dsimp only; lia,by dsimp only; lia,
    .swap hsw (by lia) (by lia),?_,?_⟩
  · simp [isortInner, hlt, cmpAt_of_lt cmp m₁ hb1 hb2, not_le.mp hgt, swapAt_of_lt hb1 hb2]
  · intro i j hi hij hj hik hjk
    dsimp only at hik hjk ⊢
    by_cases hj2 : j = p2
    · subst hj2
      rw [elem_swap_right hb1 hb2,elem_swap_ne hb1 hb2 (by lia) hik (by lia)]
      exact ho i (j - 1) hi (by lia) (by lia) (by lia) (by lia)
    · by_cases hi2 : i = p2
      · subst hi2
        rw [elem_swap_right hb1 hb2,elem_swap_ne hb1 hb2 (by lia) (by lia) hj2]
        exact ho (i - 1) j (by lia) (by lia) hj (by lia) hj2
      · rw [elem_swap_ne hb1 hb2 (by lia) hik hi2,elem_swap_ne hb1 hb2 (by lia) hjk hj2]
        exact ho i j hi hij hj hi2 hj2
  · intro j hj1 hj2
    dsimp only at hj1 ⊢
    rw [elem_swap_left hb1 hb2]
    by_cases hj : j = p2
    · subst hj
      rw [elem_swap_right hb1 hb2]
      exact hc.le_swap.mp (by lia)
    · rw [elem_swap_ne hb1 hb2 (by lia) (by lia) hj]
      exact ha j (by lia) hj2

theorem isortI_spec (hc : IsCmp cmp) (hn : s + n ≤ A.nelem) (hf : n < fuel) :
    ∃ m', isortI A cmp m s n fuel = some m' ∧ SortsTo A cmp m s n m' := by
  let I : ℕ → ℕ × M → Prop := fun k x =>
    k = s + n - x.1 ∧ s < x.1 ∧ (x.1 ≤ s + n ∨ x.1 = s + 1) ∧ Swaps A s (s + n) m x.2 ∧
      SortedOn A cmp x.2 s (x.1 - s)
  have h0 : I (s + n - (s + 1)) (s + 1,m) :=
    ⟨rfl,Nat.lt_succ_self s,Or.inr rfl,.refl,sortedOn_short (by dsimp only; lia)⟩
  refine loop_total ?_ h0 (by lia)
  rintro k ⟨p1,m₁⟩ ⟨rfl,h1,h2,hsw,hs⟩
  dsimp only at h1 h2 hsw hs
  by_cases hp : p1 < s + n
  · obtain ⟨m₂,hl,hsw',hs'⟩ := isortInner_spec hc h1.le (by lia) hs (show p1 - s < fuel by lia)
    refine Or.inl ⟨(p1 + 1,m₂),s + n - (p1 + 1),by simp [isortOuter, hp, hl],by lia,rfl,by dsimp only; lia,
      Or.inl hp,hsw.trans (hsw'.mono le_rfl (by lia)),?_⟩
    rwa [show p1 + 1 - s = p1 - s + 1 by lia]
  · refine Or.inr ⟨m₁,by simp [isortOuter, hp],hsw,fun i j hi hij hj => hs i j hi hij (by lia)⟩

/-! ## Selection sort -/

/-- The inner loop of `ssort_i`, on `p2` and `min`. -/
def ssortInner (A : Cells M α) (cmp : α → α → ℤ) (last : ℕ) (m : M) (x : ℕ × ℕ) : Option (Turn (ℕ × ℕ) ℕ) :=
  let (p2,min) := x
  if p2 < last then do
    let c ← A.cmpAt cmp m min p2
    if c > 0 then return .again (p2 + 1,p2) else return .again (p2 + 1,min)
  else some (.leave min)

/-- The outer loop of `ssort_i`, on `p1` and the array. -/
def ssortOuter (A : Cells M α) (cmp : α → α → ℤ) (last fuel : ℕ) (x : ℕ × M) : Option (Turn (ℕ × M) M) :=
  let (p1,m) := x
  if p1 < last - 1 then do
    let min ← loop (ssortInner A cmp last m) fuel (p1 + 1,p1)
    let m ← if min ≠ p1 then A.swapAt m p1 min else some m
    return .again (p1 + 1,m)
  else some (.leave m)

def ssortI (A : Cells M α) (cmp : α → α → ℤ) (m : M) (nelem fuel : ℕ) : Option M :=
  loop (ssortOuter A cmp nelem fuel) fuel (0,m)

theorem ssortInner_spec (hc : IsCmp cmp) (hp : p < n) (hn : n ≤ A.nelem) (hf : n < fuel) :
    ∃ k, loop (ssortInner A cmp n m) fuel (p + 1,p) = some k ∧ p ≤ k ∧ k < n ∧
      ∀ j, p ≤ j → j < n → cmp (A.elem m k) (A.elem m j) ≤ 0 := by
  let I : ℕ → ℕ × ℕ → Prop := fun k x =>
    k = n - x.1 ∧ x.1 ≤ n ∧ p ≤ x.2 ∧ x.2 < x.1 ∧ ∀ j, p ≤ j → j < x.1 → cmp (A.elem m x.2) (A.elem m j) ≤ 0
  have h0 : I (n - (p + 1)) (p + 1,p) := by
    refine ⟨rfl,hp,le_rfl,Nat.lt_succ_self p,fun j h1 h2 => ?_⟩
    obtain rfl : j = p := by
      dsimp only at h2
      omega
    exact (hc.refl _).le
  refine loop_total ?_ h0 (by omega)
  rintro k ⟨p2,mi⟩ ⟨rfl,h1,h2,h3,h4⟩
  dsimp only at h1 h2 h3 h4
  by_cases hlt : p2 < n
  · have hca := cmpAt_of_lt cmp m (show mi < A.nelem by omega) (show p2 < A.nelem by omega)
    by_cases hgt : 0 < cmp (A.elem m mi) (A.elem m p2)
    · refine Or.inl ⟨(p2 + 1,p2),n - (p2 + 1),by simp [ssortInner, hlt, hca, hgt],by omega,rfl,hlt,by dsimp only; omega,
        Nat.lt_succ_self p2,fun j hj1 hj2 => ?_⟩
      dsimp only at hj2 ⊢
      rcases Nat.lt_succ_iff_lt_or_eq.mp hj2 with hj | rfl
      · exact hc.trans _ _ _ ((hc.swap _ _).mpr hgt).le (h4 j hj1 hj)
      · exact (hc.refl _).le
    · refine Or.inl ⟨(p2 + 1,mi),n - (p2 + 1),by simp [ssortInner, hlt, hca, hgt],by omega,rfl,hlt,h2,by dsimp only; omega,
        fun j hj1 hj2 => ?_⟩
      dsimp only at hj2 ⊢
      rcases Nat.lt_succ_iff_lt_or_eq.mp hj2 with hj | rfl
      · exact h4 j hj1 hj
      · omega
  · obtain rfl : p2 = n := by omega
    exact Or.inr ⟨mi,by simp [ssortInner],h2,h3,h4⟩

theorem ssortI_spec (hc : IsCmp cmp) (hn : n ≤ A.nelem) (hf : n < fuel) :
    ∃ m', ssortI A cmp m n fuel = some m' ∧ SortsTo A cmp m 0 n m' := by
  -- the elements before `p1` are in order and none of them exceeds a later one
  let I : ℕ → ℕ × M → Prop := fun k x =>
    k = n - x.1 ∧ (x.1 < n ∨ x.1 = 0) ∧ Swaps A 0 (0 + n) m x.2 ∧
      ∀ i j, i < x.1 → i < j → j < n → cmp (A.elem x.2 i) (A.elem x.2 j) ≤ 0
  have h0 : I (n - 0) (0,m) := ⟨rfl,Or.inr rfl,.refl,fun i j hi => absurd hi (Nat.not_lt_zero i)⟩
  refine loop_total ?_ h0 (by lia)
  rintro k ⟨p1,m₁⟩ ⟨rfl,h1,hsw,hs⟩
  dsimp only at h1 hsw hs
  by_cases hp : p1 < n - 1
  · obtain ⟨mi,hl,hk1,hk2,hk3⟩ := ssortInner_spec (m := m₁) hc (show p1 < n by lia) hn hf
    have hb1 : p1 < A.nelem := by lia
    have hb2 : mi < A.nelem := by lia
    by_cases hmi : mi = p1
    · subst hmi
      refine Or.inl ⟨(mi + 1,m₁),n - (mi + 1),by simp [ssortOuter, hp, hl],by lia,rfl,Or.inl (by dsimp only; lia),hsw,
        fun i j hi hij hj => ?_⟩
      rcases Nat.lt_succ_iff_lt_or_eq.mp hi with hi | rfl
      · exact hs i j hi hij hj
      · exact hk3 j hij.le hj
    · refine Or.inl ⟨(p1 + 1,A.swap m₁ p1 mi),n - (p1 + 1),by simp [ssortOuter, hp, hl, hmi, swapAt_of_lt hb1 hb2],
        by lia,rfl,Or.inl (by dsimp only; lia),.swap hsw (by lia) (by lia),fun i j hi hij hj => ?_⟩
      dsimp only at hi ⊢
      have hone : Swaps A p1 n m₁ (A.swap m₁ p1 mi) := .one (by lia) (by lia)
      rcases Nat.lt_succ_iff_lt_or_eq.mp hi with hi | rfl
      · rw [hone.outside hn (by lia) (Or.inl hi)]
        by_cases hjp : j < p1
        · rw [hone.outside hn (by lia) (Or.inl hjp)]
          exact hs i j hi hij hj
        · exact hone.forall (P := fun a => cmp (A.elem m₁ i) a ≤ 0) hn (fun k hk1 hk2 => hs i k hi (by lia) hk2) j
            (by lia) hj
      · rw [elem_swap_left hb1 hb2]
        exact hone.forall (P := fun a => cmp (A.elem m₁ mi) a ≤ 0) hn hk3 j (by lia) hj
  · exact Or.inr ⟨m₁,by simp [ssortOuter, hp],hsw,fun i j _ hij hj => hs i j (by lia) hij (by lia)⟩

end Catlib.Sort
