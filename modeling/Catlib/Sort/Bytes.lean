import Catlib.Sort.QuickRun

/-! # The sorts of sort.c on bytes

The array is `nelem * esize` bytes from `arr` on. The macro `SWAP` exchanges two elements
in units of a pointer, of longs or of bytes, whichever `SWAPTYPE` allows; pointers and
longs take eight bytes.
-/
namespace Catlib.Sort

abbrev Mem := ℕ → UInt8

/-- The object of `w` bytes at `p`. -/
def load (m : Mem) (p w : ℕ) : List UInt8 := (List.range w).map (fun k => m (p + k))

def store (m : Mem) (p : ℕ) (bs : List UInt8) : Mem :=
  fun x => if p ≤ x then (bs[x - p]?).getD (m x) else m x

inductive SwapType where
  | ptrSwap
  | bulkLong
  | bulkByte
  deriving DecidableEq

def sizeofPtr : ℕ := 8
def sizeofLong : ℕ := 8
def sizeofAlign : ℕ := 8

/-- The macro `SWAPTYPE`. -/
def swapType (a size : ℕ) : SwapType :=
  if size = sizeofPtr ∧ a % sizeofAlign = 0 then .ptrSwap
  else if size % sizeofLong = 0 ∧ a % sizeofAlign = 0 then .bulkLong
  else .bulkByte

/-- Exchange the objects of `w` bytes at `a` and `b`. -/
def swapUnit (w a b : ℕ) (m : Mem) : Mem :=
  let t := load m a w
  let m := store m a (load m b w)
  store m b t

/-- The do-while loops of `SWAP`: exchange `n` consecutive units. -/
def swapUnits (w : ℕ) : ℕ → ℕ → ℕ → Mem → Mem
  | 0, _, _, m => m
  | n + 1, a, b, m => swapUnits w n (a + w) (b + w) (swapUnit w a b m)

/-- The macro `SWAP`. The loops run at least once, so a size of zero would not do. -/
def swapElem (esize : ℕ) (type : SwapType) (m : Mem) (a b : ℕ) : Mem :=
  match type with
  | .ptrSwap => swapUnit sizeofPtr a b m
  | .bulkLong => swapUnits sizeofLong (esize / sizeofLong) a b m
  | .bulkByte => swapUnits 1 esize a b m

/-! ## Exchanging two elements -/

variable {m : Mem} {a b w n x esize : ℕ}

@[simp] theorem load_length (m : Mem) (p w : ℕ) : (load m p w).length = w := by simp [load]

theorem load_getElem? (h : x < w) : (load m a w)[x]? = some (m (a + x)) := by simp [load, h]

theorem store_load (m m' : Mem) (p q w x : ℕ) :
    store m p (load m' q w) x = if p ≤ x ∧ x < p + w then m' (q + (x - p)) else m x := by
  unfold store
  by_cases hp : p ≤ x
  · by_cases hw : x < p + w
    · rw [if_pos hp,if_pos ⟨hp,hw⟩,load_getElem? (by omega)]
      rfl
    · rw [if_pos hp,if_neg (fun h => hw h.2),List.getElem?_eq_none (by rw [load_length]; omega)]
      rfl
  · rw [if_neg hp,if_neg (fun h => hp h.1)]

/-- Two blocks of `w` bytes that are the same or do not overlap. -/
def Alike (a b w : ℕ) : Prop := a = b ∨ a + w ≤ b ∨ b + w ≤ a

/-- The second memory has the bytes of the two blocks exchanged. -/
def Exchanged (m m' : Mem) (a b w : ℕ) : Prop :=
  ∀ x, m' x = if a ≤ x ∧ x < a + w then m (b + (x - a)) else if b ≤ x ∧ x < b + w then m (a + (x - b)) else m x

theorem swapUnit_exchanged (h : Alike a b w) : Exchanged m (swapUnit w a b m) a b w := by
  intro x
  simp only [swapUnit, store_load]
  rcases h with rfl | h | h
  · by_cases hx : a ≤ x ∧ x < a + w
    · simp [hx]
    · simp only [hx, if_false]
  · by_cases hxa : a ≤ x ∧ x < a + w
    · rw [if_neg (by omega),if_pos hxa,if_pos hxa]
    · rw [if_neg hxa,if_neg hxa]
  · by_cases hxa : a ≤ x ∧ x < a + w
    · rw [if_neg (by omega),if_pos hxa,if_pos hxa]
    · rw [if_neg hxa,if_neg hxa]

theorem swapUnits_exchanged (h : Alike a b (n * w)) : Exchanged m (swapUnits w n a b m) a b (n * w) := by
  induction n generalizing a b m with
  | zero =>
    intro x
    rw [Nat.zero_mul,swapUnits,if_neg (by lia),if_neg (by lia)]
  | succ n ih =>
    have hw : (n + 1) * w = w + n * w := by rw [Nat.succ_mul,Nat.add_comm]
    rw [hw] at h ⊢
    have h1 : Alike a b w := by unfold Alike at h ⊢; lia
    have h2 : Alike (a + w) (b + w) (n * w) := by unfold Alike at h ⊢; lia
    intro x
    rw [swapUnits,ih h2 x]
    have hu := fun y => swapUnit_exchanged (m := m) h1 y
    generalize n * w = k at h h2 ⊢
    unfold Alike at h
    by_cases hxa : a + w ≤ x ∧ x < a + w + k
    · rw [if_pos hxa,if_pos (by lia),hu,if_neg (by lia)]
      rcases h with rfl | h | h
      · rw [if_neg (by lia)]
        congr 1
        lia
      · rw [if_neg (by lia)]
        congr 1
        lia
      · rw [if_neg (by lia)]
        congr 1
        lia
    · rw [if_neg hxa]
      by_cases hxb : b + w ≤ x ∧ x < b + w + k
      · rw [if_pos hxb,hu,if_neg (by lia),if_neg (by lia),if_neg (by lia),if_pos (by lia)]
        congr 1
        lia
      · rw [if_neg hxb,hu]
        by_cases hx1 : a ≤ x ∧ x < a + w
        · rw [if_pos hx1,if_pos (by lia)]
        · rw [if_neg hx1,if_neg (show ¬(a ≤ x ∧ x < a + (w + k)) by lia)]
          by_cases hx2 : b ≤ x ∧ x < b + w
          · rw [if_pos hx2,if_pos (by lia)]
          · rw [if_neg hx2,if_neg (by lia)]

theorem swapElem_exchanged (arr : ℕ) (h : Alike a b esize) :
    Exchanged m (swapElem esize (swapType arr esize) m a b) a b esize := by
  unfold swapType
  split
  · rename_i hs
    rw [hs.1] at h ⊢
    exact swapUnit_exchanged h
  · split
    · rename_i hs
      have he : esize / sizeofLong * sizeofLong = esize := Nat.div_mul_cancel (Nat.dvd_of_mod_eq_zero hs.1)
      have hx := swapUnits_exchanged (m := m) (show Alike a b (esize / sizeofLong * sizeofLong) by rwa [he])
      rwa [he] at hx
    · have hx := swapUnits_exchanged (m := m) (show Alike a b (esize * 1) by rwa [Nat.mul_one])
      rwa [Nat.mul_one] at hx

theorem load_congr {m' : Mem} {p q : ℕ} (h : ∀ k < w, m' (p + k) = m (q + k)) : load m' p w = load m q w := by
  refine List.map_congr_left (fun k hk => ?_)
  exact h k (List.mem_range.mp hk)

theorem elements_alike (arr i j esize : ℕ) : Alike (arr + i * esize) (arr + j * esize) esize := by
  rcases lt_trichotomy i j with h | rfl | h
  · have := Nat.mul_le_mul_right esize (Nat.succ_le_of_lt h)
    rw [Nat.succ_mul] at this
    exact Or.inr (Or.inl (by omega))
  · exact Or.inl rfl
  · have := Nat.mul_le_mul_right esize (Nat.succ_le_of_lt h)
    rw [Nat.succ_mul] at this
    exact Or.inr (Or.inr (by omega))

/-- The array as elements that `SWAP` exchanges. -/
def cells (arr nelem esize : ℕ) : Cells Mem (List UInt8) where
  elem m i := load m (arr + i * esize) esize
  swap m i j := swapElem esize (swapType arr esize) m (arr + i * esize) (arr + j * esize)
  nelem := nelem
  elem_swap := by
    intro m i j k _ _ _
    have hx := swapElem_exchanged (m := m) arr (elements_alike arr i j esize)
    by_cases hki : k = i
    · subst hki
      rw [if_pos rfl]
      refine load_congr (fun x hx' => ?_)
      rw [hx,if_pos ⟨Nat.le_add_right _ _,by lia⟩]
      congr 1
      lia
    · rw [if_neg hki]
      have hki' := elements_alike arr k i esize
      have hne : ∀ x < esize, ¬(arr + i * esize ≤ arr + k * esize + x ∧ arr + k * esize + x < arr + i * esize + esize) := by
        intro x hx' hh
        rcases hki' with he | he | he
        · exact hki (Nat.eq_of_mul_eq_mul_right (by lia) (Nat.add_left_cancel he))
        · lia
        · lia
      by_cases hkj : k = j
      · subst hkj
        rw [if_pos rfl]
        refine load_congr (fun x hx' => ?_)
        rw [hx,if_neg (hne x hx'),if_pos ⟨Nat.le_add_right _ _,by lia⟩]
        congr 1
        lia
      · rw [if_neg hkj]
        have hkj' := elements_alike arr k j esize
        refine load_congr (fun x hx' => ?_)
        rw [hx,if_neg (hne x hx'),if_neg]
        intro hh
        rcases hkj' with he | he | he
        · exact hkj (Nat.eq_of_mul_eq_mul_right (by lia) (Nat.add_left_cancel he))
        · lia
        · lia

/-! ## The public functions -/

/-- The argument checks that all four functions begin with; `cmp` is a function, hence not null. -/
def guarded (arr nelem esize : ℕ) (m : Mem) (sort : Cells Mem (List UInt8) → Option Mem) : Option Mem :=
  if arr = 0 ∨ nelem ≤ 1 ∨ esize = 0 then some m else sort (cells arr nelem esize)

variable (cmp : List UInt8 → List UInt8 → ℤ) (m : Mem) (arr nelem esize fuel : ℕ)

def isortArray : Option Mem := guarded arr nelem esize m (fun A => isortI A cmp m 0 nelem fuel)
def ssortArray : Option Mem := guarded arr nelem esize m (fun A => ssortI A cmp m nelem fuel)
def hsortArray : Option Mem := guarded arr nelem esize m (fun A => hsortI A cmp m 0 nelem fuel)
def qsortArray : Option Mem := guarded arr nelem esize m (fun A => qsortI A cmp m nelem fuel)

/-- The elements of the array, as the comparison function sees them. -/
def contents : List (List UInt8) := (cells arr nelem esize).toList m

/-- The second memory has the elements of the first in non-decreasing order, and no other
byte has changed. -/
structure Sorted (m' : Mem) : Prop where
  perm : (contents m' arr nelem esize).Perm (contents m arr nelem esize)
  sorted : (contents m' arr nelem esize).Pairwise (fun a b => cmp a b ≤ 0)
  frame : ∀ x, x < arr ∨ arr + nelem * esize ≤ x → m' x = m x

variable {cmp m arr nelem esize fuel} {m' : Mem}

theorem Swaps.frame (h : Swaps (cells arr nelem esize) 0 nelem m m') (hx : x < arr ∨ arr + nelem * esize ≤ x) :
    m' x = m x := by
  induction h with
  | refl => rfl
  | @swap m₁ i j _ hi hj ih =>
    have hend : ∀ k, k < nelem → arr + k * esize + esize ≤ arr + nelem * esize := by
      intro k hk
      have := Nat.mul_le_mul_right esize (Nat.succ_le_of_lt hk)
      rw [Nat.succ_mul] at this
      omega
    have hei := hend i hi.2
    have hej := hend j hj.2
    have he := swapElem_exchanged (m := m₁) arr (elements_alike arr i j esize) x
    rw [if_neg (by omega),if_neg (by omega)] at he
    exact he.trans ih

theorem sorted_of_sortsTo (h : SortsTo (cells arr nelem esize) cmp m 0 nelem m') : Sorted cmp m arr nelem esize m' := by
  have hsw : Swaps (cells arr nelem esize) 0 nelem m m' := by simpa using h.1
  exact ⟨hsw.perm le_rfl,h.2.pairwise,fun x hx => hsw.frame hx⟩

theorem sorted_trivial (hc : IsCmp cmp) (h : nelem ≤ 1 ∨ esize = 0) : Sorted cmp m arr nelem esize m := by
  refine ⟨List.Perm.refl _,SortedOn.pairwise (fun i j _ hij hj => ?_),fun _ _ => rfl⟩
  rcases h with h | rfl
  · rw [Nat.zero_add] at hj
    have : j < nelem := hj
    omega
  · exact (hc.refl []).le

theorem guarded_spec {sort : Cells Mem (List UInt8) → Option Mem} (hc : IsCmp cmp) (ha : arr ≠ 0)
    (hs : ∃ m', sort (cells arr nelem esize) = some m' ∧ SortsTo (cells arr nelem esize) cmp m 0 nelem m') :
    ∃ m', guarded arr nelem esize m sort = some m' ∧ Sorted cmp m arr nelem esize m' := by
  unfold guarded
  split
  · rename_i h
    exact ⟨m,rfl,sorted_trivial hc (by tauto)⟩
  · obtain ⟨m',hm,h⟩ := hs
    exact ⟨m',hm,sorted_of_sortsTo h⟩

/-- All four sorts come back, never leave the array, and sort it; the stack of the quick
sort stays below its capacity in every state the loop goes through. -/
theorem sort_arrays (hc : IsCmp cmp) (ha : arr ≠ 0) (hf : nelem < fuel) :
    (∃ m', isortArray cmp m arr nelem esize fuel = some m' ∧ Sorted cmp m arr nelem esize m') ∧
    (∃ m', ssortArray cmp m arr nelem esize fuel = some m' ∧ Sorted cmp m arr nelem esize m') ∧
    (∃ m', hsortArray cmp m arr nelem esize fuel = some m' ∧ Sorted cmp m arr nelem esize m') ∧
    (∃ m', qsortArray cmp m arr nelem esize fuel = some m' ∧ Sorted cmp m arr nelem esize m') ∧
    ∀ B x, isortThresh < nelem → bailoutDepth nelem fuel = some B →
      Reaches (qsBody (cells arr nelem esize) cmp B fuel) ⟨0,nelem,1,[],m⟩ x → x.stack.length < qsMaxdepth := by
  have hn : 0 + nelem ≤ (cells arr nelem esize).nelem := (Nat.zero_add nelem).le
  have hn' : nelem ≤ (cells arr nelem esize).nelem := le_rfl
  refine ⟨?_,?_,?_,?_,(qsortI_spec hc hn' hf).2⟩
  · exact guarded_spec hc ha (isortI_spec hc hn hf)
  · exact guarded_spec hc ha (ssortI_spec hc hn' hf)
  · exact guarded_spec hc ha (hsortI_spec hc hn hf)
  · exact guarded_spec hc ha (qsortI_spec hc hn' hf).1

/-- Compare elements by their first byte. -/
def cmpByte (a b : List UInt8) : ℤ := ((a.headD 0).toNat : ℤ) - (b.headD 0).toNat

theorem isCmp_cmpByte : IsCmp cmpByte := by
  constructor <;> intros <;> unfold cmpByte at * <;> omega

theorem sort_arrays_sample :
    ∃ m', qsortArray cmpByte (fun x => if x = 16 then 7 else 3) 16 2 1 3 = some m' ∧
      Sorted cmpByte (fun x => if x = 16 then 7 else 3) 16 2 1 m' :=
  (sort_arrays isCmp_cmpByte (by decide) (by decide)).2.2.2.1

end Catlib.Sort
