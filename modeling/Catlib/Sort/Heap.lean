import Catlib.Sort.Cells

/-! # Heap sort

The heap is a segment of the array; positions in it are counted from zero, the children
of `p` are `2 * p + 1` and `2 * p + 2`.
-/
namespace Catlib.Sort

variable {M α : Type} {A : Cells M α} {cmp : α → α → ℤ} {m m' : M} {s n p fuel lo : ℕ}

/-- The choice of the greater child; the second one is compared only when it exists. -/
def greaterChild (A : Cells M α) (cmp : α → α → ℤ) (arr nelem : ℕ) (m : M) (cld : ℕ) : Option ℕ :=
  if cld + 1 < nelem then do
    let c ← A.cmpAt cmp m (arr + (cld + 1)) (arr + cld)
    if c > 0 then return cld + 1 else return cld
  else some cld

/-- One turn of the loop of `reheap_down`, on `pos` and the array. -/
def reheapBody (A : Cells M α) (cmp : α → α → ℤ) (arr nelem : ℕ) (x : ℕ × M) : Option (Turn (ℕ × M) M) :=
  let (pos,m) := x
  if 2 * pos + 1 ≥ nelem then some (.leave m)
  else do
    let cld ← greaterChild A cmp arr nelem m (2 * pos + 1)
    let d ← A.cmpAt cmp m (arr + pos) (arr + cld)
    if d < 0 then
      let m ← A.swapAt m (arr + pos) (arr + cld)
      return .again (cld,m)
    else return .leave m

def reheapDown (A : Cells M α) (cmp : α → α → ℤ) (m : M) (arr nelem pos fuel : ℕ) : Option M :=
  if pos ≥ nelem then some m else loop (reheapBody A cmp arr nelem) fuel (pos,m)

/-- The loop that builds the heap, on `i` and the array. -/
def buildBody (A : Cells M α) (cmp : α → α → ℤ) (arr nelem fuel : ℕ) (x : ℕ × M) : Option (Turn (ℕ × M) M) := do
  let (i,m) := x
  let m ← reheapDown A cmp m arr nelem i fuel
  if i > 0 then return .again (i - 1,m) else return .leave m

/-- The loop that takes the greatest element off, on `nelem` and the array. -/
def drainBody (A : Cells M α) (cmp : α → α → ℤ) (arr fuel : ℕ) (x : ℕ × M) : Option (Turn (ℕ × M) M) := do
  let (nelem,m) := x
  if nelem > 1 then
    let nelem := nelem - 1
    let m ← A.swapAt m arr (arr + nelem)
    let m ← reheapDown A cmp m arr nelem 0 fuel
    return .again (nelem,m)
  else return .leave m

def hsortI (A : Cells M α) (cmp : α → α → ℤ) (m : M) (arr nelem fuel : ℕ) : Option M := do
  let m ← loop (buildBody A cmp arr nelem fuel) fuel (nelem / 2,m)
  loop (drainBody A cmp arr fuel) fuel (nelem,m)

/-! ## Heaps -/

/-- The element at position `k` of the segment. -/
abbrev cellAt (A : Cells M α) (m : M) (s k : ℕ) : α := A.elem m (s + k)

/-- No element from position `lo` on is exceeded by one of its children. -/
def HeapFrom (A : Cells M α) (cmp : α → α → ℤ) (m : M) (s n lo : ℕ) : Prop :=
  ∀ p c, lo ≤ p → c = 2 * p + 1 ∨ c = 2 * p + 2 → c < n → cmp (cellAt A m s c) (cellAt A m s p) ≤ 0

/-- A heap from `lo` on except that the element at `p` may be too small. -/
structure HeapBut (A : Cells M α) (cmp : α → α → ℤ) (m : M) (s n lo p : ℕ) : Prop where
  others : ∀ q c, lo ≤ q → q ≠ p → c = 2 * q + 1 ∨ c = 2 * q + 2 → c < n → cmp (cellAt A m s c) (cellAt A m s q) ≤ 0
  grand : ∀ q c, lo ≤ q → p = 2 * q + 1 ∨ p = 2 * q + 2 → c = 2 * p + 1 ∨ c = 2 * p + 2 → c < n →
    cmp (cellAt A m s c) (cellAt A m s q) ≤ 0

/-- The child that the loop picks is one of the two and no other child exceeds it. -/
structure MaxChild (A : Cells M α) (cmp : α → α → ℤ) (m : M) (s n p k : ℕ) : Prop where
  child : k = 2 * p + 1 ∨ k = 2 * p + 2
  lt : k < n
  max : ∀ c, c = 2 * p + 1 ∨ c = 2 * p + 2 → c < n → cmp (cellAt A m s c) (cellAt A m s k) ≤ 0

theorem greaterChild_spec (hc : IsCmp cmp) (hn : s + n ≤ A.nelem) (hp : 2 * p + 1 < n) :
    ∃ k, greaterChild A cmp s n m (2 * p + 1) = some k ∧ MaxChild A cmp m s n p k := by
  by_cases h2 : 2 * p + 1 + 1 < n
  · have hca := cmpAt_of_lt cmp m (show s + (2 * p + 1 + 1) < A.nelem by omega) (show s + (2 * p + 1) < A.nelem by omega)
    by_cases hgt : 0 < cmp (cellAt A m s (2 * p + 1 + 1)) (cellAt A m s (2 * p + 1))
    · refine ⟨2 * p + 1 + 1,by simp [greaterChild, h2, hca, hgt],Or.inr rfl,h2,?_⟩
      rintro c (rfl | rfl) -
      · exact ((hc.swap _ _).mpr hgt).le
      · exact (hc.refl _).le
    · refine ⟨2 * p + 1,by simp [greaterChild, h2, hca, hgt],Or.inl rfl,hp,?_⟩
      rintro c (rfl | rfl) -
      · exact (hc.refl _).le
      · exact not_lt.mp hgt
  · refine ⟨2 * p + 1,by simp [greaterChild, h2],Or.inl rfl,hp,?_⟩
    rintro c (rfl | rfl) hcn
    · exact (hc.refl _).le
    · omega

theorem HeapBut.heap_of_done (hh : HeapBut A cmp m s n lo p)
    (hp : ∀ c, c = 2 * p + 1 ∨ c = 2 * p + 2 → c < n → cmp (cellAt A m s c) (cellAt A m s p) ≤ 0) :
    HeapFrom A cmp m s n lo := by
  intro q c hq hqc hcn
  by_cases hqp : q = p
  · subst hqp
    exact hp c hqc hcn
  · exact hh.others q c hq hqp hqc hcn

theorem HeapBut.sift (hn : s + n ≤ A.nelem) (hh : HeapBut A cmp m s n lo p) {k : ℕ}
    (hk : MaxChild A cmp m s n p k) (hlt : cmp (cellAt A m s p) (cellAt A m s k) < 0) :
    HeapBut A cmp (A.swap m (s + p) (s + k)) s n lo k := by
  have hkn := hk.lt
  have hchild := hk.child
  have hb1 : s + p < A.nelem := by lia
  have hb2 : s + k < A.nelem := by lia
  have hfst : cellAt A (A.swap m (s + p) (s + k)) s p = cellAt A m s k := elem_swap_left hb1 hb2
  have hsnd : cellAt A (A.swap m (s + p) (s + k)) s k = cellAt A m s p := elem_swap_right hb1 hb2
  have hoth : ∀ x, x < n → x ≠ p → x ≠ k → cellAt A (A.swap m (s + p) (s + k)) s x = cellAt A m s x :=
    fun x hx h1 h2 => elem_swap_ne hb1 hb2 (by lia) (by lia) (by lia)
  constructor
  · intro q c hq hqk hqc hcn
    by_cases hqp : q = p
    · subst hqp
      rw [hfst]
      by_cases hck : c = k
      · subst hck
        rw [hsnd]
        exact hlt.le
      · rw [hoth c hcn (by lia) hck]
        exact hk.max c hqc hcn
    · rw [hoth q (by lia) hqp hqk]
      by_cases hcp : c = p
      · subst hcp
        rw [hfst]
        exact hh.grand q k hq hqc hchild hkn
      · rw [hoth c hcn hcp (by lia)]
        exact hh.others q c hq hqp hqc hcn
  · intro q c hq hqk hkc hcn
    obtain rfl : q = p := by lia
    rw [hfst,hoth c hcn (by lia) (by lia)]
    exact hh.others k c (by lia) (by lia) hkc hcn

theorem reheapDown_spec (hc : IsCmp cmp) (hn : s + n ≤ A.nelem) (hh : HeapBut A cmp m s n lo p) (hf : n < fuel) :
    ∃ m', reheapDown A cmp m s n p fuel = some m' ∧ Swaps A s (s + n) m m' ∧ HeapFrom A cmp m' s n lo := by
  by_cases hp : p ≥ n
  · exact ⟨m,by simp [reheapDown, hp],.refl,hh.heap_of_done (fun c hc hcn => by lia)⟩
  let I : ℕ → ℕ × M → Prop := fun k x =>
    k = n - x.1 ∧ x.1 < n ∧ Swaps A s (s + n) m x.2 ∧ HeapBut A cmp x.2 s n lo x.1
  have h0 : I (n - p) (p,m) := ⟨rfl,not_le.mp hp,.refl,hh⟩
  rw [reheapDown,if_neg hp]
  refine loop_total ?_ h0 (by lia)
  rintro k ⟨q,m₁⟩ ⟨rfl,h1,hsw,hh⟩
  dsimp only at h1 hsw hh
  by_cases hq : 2 * q + 1 ≥ n
  · exact Or.inr ⟨m₁,by simp [reheapBody, hq],hsw,hh.heap_of_done (fun c hc hcn => by lia)⟩
  obtain ⟨k,hg,hk⟩ := greaterChild_spec (m := m₁) hc hn (not_le.mp hq)
  have hkn := hk.lt
  have hchild := hk.child
  have hb1 : s + q < A.nelem := by lia
  have hb2 : s + k < A.nelem := by lia
  by_cases hlt : cmp (cellAt A m₁ s q) (cellAt A m₁ s k) < 0
  · refine Or.inl ⟨(k,A.swap m₁ (s + q) (s + k)),n - k,?_,by lia,rfl,hkn,.swap hsw (by lia) (by lia),
      hh.sift hn hk hlt⟩
    simp [reheapBody, hq, hg, cmpAt_of_lt cmp m₁ hb1 hb2, hlt, swapAt_of_lt hb1 hb2]
  · refine Or.inr ⟨m₁,?_,hsw,hh.heap_of_done (fun c hqc hcn => ?_)⟩
    · simp [reheapBody, hq, hg, cmpAt_of_lt cmp m₁ hb1 hb2, hlt]
    · exact hc.trans _ _ _ (hk.max c hqc hcn) (hc.le_swap.mp (not_lt.mp hlt))

theorem HeapFrom.max (hc : IsCmp cmp) (hh : HeapFrom A cmp m s n 0) {k : ℕ} (hk : k < n) :
    cmp (cellAt A m s k) (cellAt A m s 0) ≤ 0 := by
  induction k using Nat.strong_induction_on with
  | _ k ih =>
    by_cases h0 : k = 0
    · subst h0
      exact (hc.refl _).le
    · have hp := hh ((k - 1) / 2) k (Nat.zero_le _) (by omega) hk
      exact hc.trans _ _ _ hp (ih ((k - 1) / 2) (by omega) (by omega))

theorem build_spec (hc : IsCmp cmp) (hn : s + n ≤ A.nelem) (hf : n < fuel) :
    ∃ m', loop (buildBody A cmp s n fuel) fuel (n / 2,m) = some m' ∧ Swaps A s (s + n) m m' ∧
      HeapFrom A cmp m' s n 0 := by
  let I : ℕ → ℕ × M → Prop := fun k x =>
    k = x.1 ∧ x.1 ≤ n / 2 ∧ Swaps A s (s + n) m x.2 ∧ HeapFrom A cmp x.2 s n (x.1 + 1)
  have h0 : I (n / 2) (n / 2,m) := ⟨rfl,le_rfl,.refl,fun p c hp hpc hcn => by dsimp only at hp; omega⟩
  refine loop_total ?_ h0 (by omega)
  rintro i ⟨_,m₁⟩ ⟨rfl,h1,hsw,hh⟩
  dsimp only at h1 hsw hh
  have hbut : HeapBut A cmp m₁ s n i i :=
    ⟨fun q c hq hqi => hh q c (by omega),fun q c hq hqi => by omega⟩
  obtain ⟨m₂,hr,hsw',hh'⟩ := reheapDown_spec hc hn hbut hf
  by_cases hi : i > 0
  · refine Or.inl ⟨(i - 1,m₂),i - 1,by simp [buildBody, hr, hi],by omega,rfl,by dsimp only; omega,hsw.trans hsw',?_⟩
    dsimp only
    rwa [Nat.sub_add_cancel hi]
  · obtain rfl : i = 0 := by omega
    exact Or.inr ⟨m₂,by simp [buildBody, hr],hsw.trans hsw',hh'⟩

/-- The sorted end of the segment, which no element before it exceeds. -/
def Drained (A : Cells M α) (cmp : α → α → ℤ) (m : M) (s n k : ℕ) : Prop :=
  ∀ i j, i < j → k ≤ j → j < n → cmp (cellAt A m s i) (cellAt A m s j) ≤ 0

theorem drain_spec (hc : IsCmp cmp) (hn : s + n ≤ A.nelem) (hh : HeapFrom A cmp m s n 0) (hf : n < fuel) :
    ∃ m', loop (drainBody A cmp s fuel) fuel (n,m) = some m' ∧ SortsTo A cmp m s n m' := by
  let I : ℕ → ℕ × M → Prop := fun k x =>
    k = x.1 ∧ x.1 ≤ n ∧ Swaps A s (s + n) m x.2 ∧ HeapFrom A cmp x.2 s x.1 0 ∧ Drained A cmp x.2 s n x.1
  have h0 : I n (n,m) := ⟨rfl,le_rfl,.refl,hh,fun i j _ h1 h2 => absurd h2 (not_lt.mpr h1)⟩
  refine loop_total ?_ h0 hf
  rintro k ⟨_,m₁⟩ ⟨rfl,h1,hsw,hh,hd⟩
  dsimp only at h1 hsw hh hd
  by_cases hk : k > 1
  · have hb1 : s < A.nelem := by lia
    have hb2 : s + (k - 1) < A.nelem := by lia
    have hone : Swaps A s (s + k) m₁ (A.swap m₁ s (s + (k - 1))) := .one (by lia) (by lia)
    have hbut : HeapBut A cmp (A.swap m₁ s (s + (k - 1))) s (k - 1) 0 0 := by
      refine ⟨fun q c _ hq hqc hck => ?_,fun q c _ h0 => by lia⟩
      rw [cellAt,cellAt,elem_swap_ne hb1 hb2 (by lia) (by lia) (by lia),elem_swap_ne hb1 hb2 (by lia) (by lia) (by lia)]
      exact hh q c (Nat.zero_le _) hqc (by lia)
    obtain ⟨m₂,hr,hsw',hh'⟩ := reheapDown_spec hc (by lia) hbut (show k - 1 < fuel by lia)
    refine Or.inl ⟨(k - 1,m₂),k - 1,by simp [drainBody, hk, swapAt_of_lt hb1 hb2, hr],by lia,rfl,by dsimp only; lia,
      hsw.trans ((hone.mono le_rfl (by lia)).trans (hsw'.mono le_rfl (by lia))),hh',?_⟩
    -- the new greatest element behind the heap was its first one
    have hall : Swaps A s (s + k) m₁ m₂ := hone.trans (hsw'.mono le_rfl (by lia))
    intro i j hij hkj hjn
    dsimp only at hkj ⊢
    by_cases hj : j = k - 1
    · subst hj
      have hm₂ : cellAt A m₂ s (k - 1) = cellAt A m₁ s 0 := by
        rw [cellAt,hsw'.outside (by lia) hb2 (by lia),elem_swap_right hb1 hb2]
        rfl
      rw [hm₂]
      refine hall.forall (P := fun a => cmp a (cellAt A m₁ s 0) ≤ 0) (by lia) (fun x hx1 hx2 => ?_) (s + i) (by lia)
        (by lia)
      have := hh.max hc (show x - s < k by lia)
      rwa [cellAt,show s + (x - s) = x by lia] at this
    · have hm₂ : cellAt A m₂ s j = cellAt A m₁ s j := hall.outside (by lia) (by lia) (Or.inr (by lia))
      rw [hm₂]
      by_cases hik : i < k
      · exact hall.forall (P := fun a => cmp a (cellAt A m₁ s j) ≤ 0) (by lia)
          (fun x hx1 hx2 => by
            have := hd (x - s) j (by lia) (by lia) hjn
            rwa [cellAt,show s + (x - s) = x by lia] at this) (s + i) (by lia) (by lia)
      · rw [cellAt,hall.outside (by lia) (by lia) (Or.inr (by lia))]
        exact hd i j hij (by lia) hjn
  · refine Or.inr ⟨m₁,by simp [drainBody, hk],hsw,fun i j hi hij hj => ?_⟩
    have := hd (i - s) (j - s) (by lia) (by lia) (by lia)
    rwa [cellAt,cellAt,show s + (i - s) = i by lia,show s + (j - s) = j by lia] at this

theorem hsortI_spec (hc : IsCmp cmp) (hn : s + n ≤ A.nelem) (hf : n < fuel) :
    ∃ m', hsortI A cmp m s n fuel = some m' ∧ SortsTo A cmp m s n m' := by
  obtain ⟨m₁,hb,hsw,hh⟩ := build_spec (m := m) hc hn hf
  obtain ⟨m₂,hd,hsw',hs⟩ := drain_spec hc hn hh hf
  exact ⟨m₂,by simp [hsortI, hb, hd],hsw.trans hsw',hs⟩

end Catlib.Sort
