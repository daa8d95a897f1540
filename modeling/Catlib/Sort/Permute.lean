import Catlib.Sort.Bytes

/-! # Sorting through pointers

`array_to_voidp` writes the addresses of the elements of an array to a vector of pointers, and
`permute_array` puts the elements in the order of such a vector, one cycle after the other. The
vector is an object of its own, apart from the array and from the buffer for one element.
-/
namespace Catlib.Sort
open Function

/-- `memcpy`, which is not defined on objects that overlap. -/
def memcpy (m : Mem) (dst src n : ℕ) : Option Mem :=
  if dst + n ≤ src ∨ src + n ≤ dst then some (store m dst (load m src n)) else none

/-- The difference of two pointers to bytes, as a `size_t`. -/
def ptrDiff (p q : ℕ) : ℕ := (p + (2 ^ 64 - q)) % 2 ^ 64

/-- The loop of `array_to_voidp`, with `k` elements to come. -/
def fillFrom (esize : ℕ) : ℕ → ℕ → ℕ → (ℕ → ℕ) → ℕ → ℕ
  | 0, _, _, varr => varr
  | k + 1, i, p, varr => fillFrom esize k (i + 1) (p + esize) (update varr i p)

def arrayToVoidp (varr : ℕ → ℕ) (arr nelem esize : ℕ) : ℕ → ℕ :=
  if nelem < 1 ∨ esize = 0 ∨ (2 ^ 64 - 1) / esize < nelem then varr else fillFrom esize nelem 0 arr varr

/-- Memory, vector, `to` and `lastp`. -/
abbrev PermState := Mem × (ℕ → ℕ) × ℕ × ℕ

/-- One turn of the inner loop of `permute_array`; a place outside the vector is no result. -/
def permBody (arr nelem esize phi : ℕ) : PermState → Option (Turn PermState PermState)
  | (m,varr,tgt,lastp) =>
    if nelem ≤ tgt then none
    else do
      let m ← memcpy m lastp (varr tgt) esize
      let hold := lastp
      let lastp := varr tgt
      let varr := update varr tgt hold
      let tgt := ptrDiff lastp arr / esize
      if nelem ≤ tgt then none
      else if varr tgt ≠ phi then return .again (m,varr,tgt,lastp)
      else return .leave (m,varr,tgt,lastp)

/-- The outer loop with `k` places to come. -/
def permuteFrom (arr tmp nelem esize fuel : ℕ) : ℕ → ℕ → ℕ → Mem × (ℕ → ℕ) → Option (Mem × (ℕ → ℕ))
  | 0, _, _, s => some s
  | k + 1, hi, phi, (m,varr) =>
    if varr hi = phi then permuteFrom arr tmp nelem esize fuel k (hi + 1) (phi + esize) (m,varr)
    else do
      let m ← memcpy m tmp phi esize
      let (m,varr,tgt,lastp) ← loop (permBody arr nelem esize phi) fuel (m,varr,hi,phi)
      let m ← memcpy m lastp tmp esize
      permuteFrom arr tmp nelem esize fuel k (hi + 1) (phi + esize) (m,update varr tgt lastp)

def permuteArray (m : Mem) (arr tmp : ℕ) (varr : ℕ → ℕ) (nelem esize fuel : ℕ) : Option (Mem × (ℕ → ℕ)) :=
  if nelem < 2 ∨ esize = 0 ∨ (2 ^ 64 - 1) / esize < nelem then some (m,varr)
  else permuteFrom arr tmp nelem esize fuel nelem 0 arr (m,varr)

/-! ## Copies -/

variable {m m' m₀ : Mem} {varr : ℕ → ℕ} {arr tmp nelem esize i j hi tgt p q w : ℕ}

theorem memcpy_spec (h : p + w ≤ q ∨ q + w ≤ p) : ∃ m', memcpy m p q w = some m' ∧ load m' p w = load m q w ∧
    (∀ r, r + w ≤ p ∨ p + w ≤ r → load m' r w = load m r w) ∧ ∀ x, x < p ∨ p + w ≤ x → m' x = m x := by
  refine ⟨_,if_pos h,?_,fun r hr => ?_,fun x hx => ?_⟩
  · refine load_congr fun k hk => ?_
    rw [store_load,if_pos (by omega),Nat.add_sub_cancel_left]
  · refine load_congr fun k hk => ?_
    rw [store_load,if_neg (by omega)]
  · rw [store_load,if_neg (by omega)]

theorem ptrDiff_add (hq : q ≤ 2 ^ 64) (hw : w < 2 ^ 64) : ptrDiff (q + w) q = w := by
  rw [ptrDiff,show q + w + (2 ^ 64 - q) = w + 2 ^ 64 by omega,Nat.add_mod_right,Nat.mod_eq_of_lt hw]

/-- The array and the buffer are objects in the address space. -/
structure Objects (arr tmp nelem esize : ℕ) : Prop where
  pos : 0 < arr
  fits : arr + nelem * esize ≤ 2 ^ 64
  apart : tmp + esize ≤ arr ∨ arr + nelem * esize ≤ tmp

theorem elem_within (arr esize : ℕ) (hi : i < nelem) : arr ≤ arr + i * esize ∧ arr + i * esize + esize ≤ arr + nelem * esize := by
  have := Nat.mul_le_mul_right esize (Nat.succ_le_of_lt hi)
  rw [Nat.succ_mul] at this
  omega

theorem elems_apart (hij : i ≠ j) (he : 0 < esize) :
    arr + i * esize + esize ≤ arr + j * esize ∨ arr + j * esize + esize ≤ arr + i * esize := by
  rcases elements_alike arr i j esize with h | h
  · exact absurd (Nat.eq_of_mul_eq_mul_right he (Nat.add_left_cancel h)) hij
  · exact h

theorem elem_inj (he : 0 < esize) (h : arr + i * esize = arr + j * esize) : i = j :=
  Nat.eq_of_mul_eq_mul_right he (Nat.add_left_cancel h)

theorem Objects.index (ho : Objects arr tmp nelem esize) (he : 0 < esize) (hj : j < nelem) :
    ptrDiff (arr + j * esize) arr / esize = j := by
  have h1 := elem_within arr esize hj
  have h2 := ho.fits
  have h3 := ho.pos
  rw [ptrDiff_add (by omega) (by omega),Nat.mul_div_cancel _ he]

/-! ## Following a cycle -/

/-- A permutation of the first places. -/
structure Shuffle (π : ℕ → ℕ) (nelem : ℕ) : Prop where
  maps : ∀ i < nelem, π i < nelem
  inj : ∀ i < nelem, ∀ j < nelem, π i = π j → i = j

variable {π : ℕ → ℕ} {E : ℕ → List UInt8} {T S : Finset ℕ}

/-- The places of `T` have the element that they should have, and a pointer to it; the others
have their old element and the pointer to the one that they should have. -/
structure Seated (E : ℕ → List UInt8) (π : ℕ → ℕ) (arr nelem esize : ℕ) (T : Finset ℕ) (m : Mem) (varr : ℕ → ℕ) : Prop where
  seat : ∀ i < nelem, i ∈ T → varr i = arr + i * esize ∧ load m (arr + i * esize) esize = E (π i)
  rest : ∀ i < nelem, i ∉ T → varr i = arr + π i * esize ∧ load m (arr + i * esize) esize = E i

theorem Seated.seatOne (h : Seated E π arr nelem esize T m varr) (hl : load m' (arr + tgt * esize) esize = E (π tgt))
    (hm : ∀ i < nelem, i ≠ tgt → load m' (arr + i * esize) esize = load m (arr + i * esize) esize) :
    Seated E π arr nelem esize (insert tgt T) m' (update varr tgt (arr + tgt * esize)) := by
  refine ⟨fun i hi hiT => ?_,fun i hi hiT => ?_⟩
  · by_cases hit : i = tgt
    · rw [hit,update_self]
      exact ⟨rfl,hl⟩
    · rw [update_of_ne hit,hm i hi hit]
      exact h.seat i hi (Finset.mem_of_mem_insert_of_ne hiT hit)
  · rw [Finset.mem_insert,not_or] at hiT
    rw [update_of_ne hiT.1,hm i hi hiT.1]
    exact h.rest i hi hiT.2

/-- The bytes outside the array and the buffer. -/
def Frame (arr tmp nelem esize : ℕ) (m m' : Mem) : Prop :=
  ∀ x, (x < arr ∨ arr + nelem * esize ≤ x) → (x < tmp ∨ tmp + esize ≤ x) → m' x = m x

/-- On the way through the cycle of `hi`: the places of `T` are done, and every one of them but
`hi` is the target of another, as is the place reached. -/
structure OnCycle (E : ℕ → List UInt8) (π : ℕ → ℕ) (arr tmp nelem esize hi : ℕ) (S : Finset ℕ) (m₀ : Mem) (T : Finset ℕ)
    (st : PermState) : Prop where
  seated : Seated E π arr nelem esize T st.1 st.2.1
  sub : T ⊆ Finset.range nelem
  lt : st.2.2.1 < nelem
  new : st.2.2.1 ∉ T
  last : st.2.2.2 = arr + st.2.2.1 * esize
  kept : S ⊆ T
  start : hi ∈ insert st.2.2.1 T
  met : ∀ x ∈ insert st.2.2.1 T, x ≠ hi → ∃ y ∈ T, π y = x
  saved : load st.1 tmp esize = E hi
  frame : Frame arr tmp nelem esize m₀ st.1

theorem OnCycle.fresh {st : PermState} (h : OnCycle E π arr tmp nelem esize hi S m₀ T st) (hp : Shuffle π nelem)
    (hne : π st.2.2.1 ≠ hi) : π st.2.2.1 ∉ insert st.2.2.1 T := by
  intro hm
  obtain ⟨y,hy,he⟩ := h.met _ hm hne
  exact h.new (hp.inj y (Finset.mem_range.mp (h.sub hy)) _ h.lt he ▸ hy)

theorem permBody_spec (ho : Objects arr tmp nelem esize) (he : 0 < esize) (hp : Shuffle π nelem) {st : PermState}
    (h : OnCycle E π arr tmp nelem esize hi S m₀ T st) (hne : π st.2.2.1 ≠ hi) :
    ∃ st', OnCycle E π arr tmp nelem esize hi S m₀ (insert st.2.2.1 T) st' ∧ st'.2.2.1 = π st.2.2.1 ∧
      permBody arr nelem esize (arr + hi * esize) st = some (if π st'.2.2.1 ≠ hi then .again st' else .leave st') := by
  have hfresh := h.fresh hp hne
  obtain ⟨m,varr,tgt,lastp⟩ := st
  obtain ⟨hs,hsub,hlt,hnew,hlast,hkept,hstart,hmet,htmp,hframe⟩ := h
  simp only at hs hsub hlt hnew hlast hkept hstart hmet htmp hframe hfresh hne ⊢
  subst hlast
  have hplt := hp.maps tgt hlt
  rw [Finset.mem_insert,not_or] at hfresh
  obtain ⟨hv,-⟩ := hs.rest tgt hlt hnew
  obtain ⟨hv',hE⟩ := hs.rest (π tgt) hplt hfresh.2
  have hend := elem_within arr esize hlt
  obtain ⟨m',hm',hl,hother,hout⟩ := memcpy_spec (m := m) (elems_apart (Ne.symm hfresh.1) he)
  refine ⟨(m',update varr tgt (arr + tgt * esize),π tgt,arr + π tgt * esize),⟨?_,?_,hplt,?_,rfl,?_,?_,?_,?_,?_⟩,rfl,?_⟩
  · refine hs.seatOne (hl.trans hE) fun i hi hit => hother _ ?_
    exact (elems_apart hit he)
  · exact Finset.insert_subset (Finset.mem_range.mpr hlt) hsub
  · rw [Finset.mem_insert,not_or]
    exact hfresh
  · exact hkept.trans (Finset.subset_insert _ _)
  · exact Finset.mem_insert_of_mem hstart
  · intro x hx hxi
    rcases Finset.mem_insert.mp hx with rfl | hx
    · exact ⟨tgt,Finset.mem_insert_self _ _,rfl⟩
    · obtain ⟨y,hy,hyx⟩ := hmet x hx hxi
      exact ⟨y,Finset.mem_insert_of_mem hy,hyx⟩
  · refine (hother _ ?_).trans htmp
    have := ho.apart
    omega
  · intro x hx hxt
    refine (hout x ?_).trans (hframe x hx hxt)
    omega
  · have hidx : ptrDiff (arr + π tgt * esize) arr / esize = π tgt := ho.index he hplt
    have hvt : update varr tgt (arr + tgt * esize) (π tgt) = arr + π (π tgt) * esize := (update_of_ne hfresh.1 _ _).trans hv'
    have htest : arr + π (π tgt) * esize ≠ arr + hi * esize ↔ π (π tgt) ≠ hi := not_congr ⟨elem_inj he,fun h => by rw [h]⟩
    simp only [permBody, if_neg (Nat.not_le.mpr hlt), hv, hm', Option.bind_eq_bind, Option.bind_some, hidx, if_neg (Nat.not_le.mpr hplt),
      hvt, htest]
    split <;> rfl

theorem permLoop_spec (ho : Objects arr tmp nelem esize) (he : 0 < esize) (hp : Shuffle π nelem) {st : PermState}
    (h : OnCycle E π arr tmp nelem esize hi S m₀ T st) (hne : π st.2.2.1 ≠ hi) {fuel : ℕ} (hf : nelem < fuel) :
    ∃ st', loop (permBody arr nelem esize (arr + hi * esize)) fuel st = some st' ∧ π st'.2.2.1 = hi ∧
      ∃ T', OnCycle E π arr tmp nelem esize hi S m₀ T' st' := by
  refine loop_total (I := fun n st => ∃ T, OnCycle E π arr tmp nelem esize hi S m₀ T st ∧ π st.2.2.1 ≠ hi ∧ n = nelem - T.card)
    (fun n st => ?_) ⟨T,h,hne,rfl⟩ (Nat.lt_of_le_of_lt (Nat.sub_le _ _) hf)
  rintro ⟨T,h,hne,rfl⟩
  obtain ⟨st',h',-,hbody⟩ := permBody_spec ho he hp h hne
  by_cases hclose : π st'.2.2.1 = hi
  · exact Or.inr ⟨st',by rw [hbody,if_neg (not_not.mpr hclose)],hclose,_,h'⟩
  · refine Or.inl ⟨st',_,by rw [hbody,if_pos hclose],?_,_,h',hclose,rfl⟩
    have hcard := Finset.card_le_card h'.sub
    rw [Finset.card_range] at hcard
    rw [Finset.card_insert_of_notMem h.new] at hcard ⊢
    omega

/-- The places of `S` are done, and every one of them is the target of another. -/
structure Settled (E : ℕ → List UInt8) (π : ℕ → ℕ) (arr tmp nelem esize : ℕ) (m₀ : Mem) (S : Finset ℕ) (m : Mem) (varr : ℕ → ℕ) :
    Prop where
  seated : Seated E π arr nelem esize S m varr
  sub : S ⊆ Finset.range nelem
  met : ∀ x ∈ S, ∃ y ∈ S, π y = x
  frame : Frame arr tmp nelem esize m₀ m

theorem Settled.skip (h : Settled E π arr tmp nelem esize m₀ S m varr) (he : 0 < esize) (hhi : hi < nelem)
    (hv : varr hi = arr + hi * esize) : Settled E π arr tmp nelem esize m₀ (insert hi S) m varr := by
  by_cases hS : hi ∈ S
  · rwa [Finset.insert_eq_of_mem hS]
  · obtain ⟨hp,hl⟩ := h.seated.rest hi hhi hS
    have hfix : π hi = hi := elem_inj he (hp.symm.trans hv)
    refine ⟨?_,Finset.insert_subset (Finset.mem_range.mpr hhi) h.sub,fun x hx => ?_,h.frame⟩
    · have hone : Seated E π arr nelem esize (insert hi S) m (update varr hi (arr + hi * esize)) :=
        h.seated.seatOne (by rw [hl,hfix]) fun _ _ _ => rfl
      rwa [← hv,update_eq_self] at hone
    · rcases Finset.mem_insert.mp hx with rfl | hx
      · exact ⟨x,Finset.mem_insert_self _ _,hfix⟩
      · obtain ⟨y,hy,hyx⟩ := h.met x hx
        exact ⟨y,Finset.mem_insert_of_mem hy,hyx⟩

theorem Settled.cycle (ho : Objects arr tmp nelem esize) (he : 0 < esize) (hp : Shuffle π nelem)
    (h : Settled E π arr tmp nelem esize m₀ S m varr) (hhi : hi < nelem) (hv : varr hi ≠ arr + hi * esize) {fuel : ℕ}
    (hf : nelem < fuel) :
    ∃ m₁ m₂ varr₂ tgt lastp m₃ S', memcpy m tmp (arr + hi * esize) esize = some m₁ ∧
      loop (permBody arr nelem esize (arr + hi * esize)) fuel (m₁,varr,hi,arr + hi * esize) = some (m₂,varr₂,tgt,lastp) ∧
      memcpy m₂ lastp tmp esize = some m₃ ∧ insert hi S ⊆ S' ∧
      Settled E π arr tmp nelem esize m₀ S' m₃ (update varr₂ tgt lastp) := by
  have hapart := ho.apart
  have hend := elem_within arr esize hhi
  have hnew : hi ∉ S := fun hS => hv (h.seated.seat hi hhi hS).1
  obtain ⟨hvp,hl⟩ := h.seated.rest hi hhi hnew
  have hne : π hi ≠ hi := fun hfix => hv (hvp.trans (by rw [hfix]))
  obtain ⟨m₁,hm₁,hl₁,hother₁,hout₁⟩ := memcpy_spec (m := m) (p := tmp) (q := arr + hi * esize) (w := esize) (by omega)
  have hseated : Seated E π arr nelem esize S m₁ varr := by
    refine ⟨fun i hi' hS => ?_,fun i hi' hS => ?_⟩
    · have := elem_within arr esize hi'
      rw [hother₁ _ (by omega)]
      exact h.seated.seat i hi' hS
    · have := elem_within arr esize hi'
      rw [hother₁ _ (by omega)]
      exact h.seated.rest i hi' hS
  have hstart : OnCycle E π arr tmp nelem esize hi S m₀ S (m₁,varr,hi,arr + hi * esize) := by
    refine ⟨hseated,h.sub,hhi,hnew,rfl,subset_rfl,Finset.mem_insert_self _ _,fun x hx hxi => ?_,hl₁.trans hl,fun x hx hxt => ?_⟩
    · exact h.met x (Finset.mem_of_mem_insert_of_ne hx hxi)
    · exact (hout₁ x hxt).trans (h.frame x hx hxt)
  obtain ⟨⟨m₂,varr₂,tgt,lastp⟩,hloop,hclose,T,hT⟩ := permLoop_spec ho he hp hstart hne hf
  obtain ⟨hs,hsub,hlt,hnew₂,hlast,hkept,hsta,hmet,hsaved,hframe⟩ := hT
  simp only at hs hsub hlt hnew₂ hlast hkept hsta hmet hsaved hframe hclose
  subst hlast
  have hend₂ := elem_within arr esize hlt
  obtain ⟨m₃,hm₃,hl₃,hother₃,hout₃⟩ := memcpy_spec (m := m₂) (p := arr + tgt * esize) (q := tmp) (w := esize) (by omega)
  refine ⟨m₁,m₂,varr₂,tgt,_,m₃,insert tgt T,hm₁,hloop,hm₃,?_,?_,?_,fun x hx => ?_,fun x hx hxt => ?_⟩
  · exact Finset.insert_subset hsta (hkept.trans (Finset.subset_insert _ _))
  · refine hs.seatOne (by rw [hl₃,hsaved,hclose]) fun i hi' hit => hother₃ _ ?_
    exact elems_apart hit he
  · exact Finset.insert_subset (Finset.mem_range.mpr hlt) hsub
  · by_cases hxi : x = hi
    · exact ⟨tgt,Finset.mem_insert_self _ _,hclose.trans hxi.symm⟩
    · obtain ⟨y,hy,hyx⟩ := hmet x hx hxi
      exact ⟨y,Finset.mem_insert_of_mem hy,hyx⟩
  · exact (hout₃ x (by omega)).trans (hframe x hx hxt)

theorem permuteFrom_spec (ho : Objects arr tmp nelem esize) (he : 0 < esize) (hp : Shuffle π nelem) {fuel : ℕ} (hf : nelem < fuel)
    (hi k : ℕ) (hk : hi + k = nelem) (h : Settled E π arr tmp nelem esize m₀ S m varr) (hS : ∀ i < hi, i ∈ S) :
    ∃ m' varr' S', permuteFrom arr tmp nelem esize fuel k hi (arr + hi * esize) (m,varr) = some (m',varr') ∧
      Settled E π arr tmp nelem esize m₀ S' m' varr' ∧ ∀ i < nelem, i ∈ S' := by
  induction k generalizing hi m varr S with
  | zero => exact ⟨m,varr,S,rfl,h,fun i hi' => hS i (by omega)⟩
  | succ k ih =>
    have hnext : arr + hi * esize + esize = arr + (hi + 1) * esize := by rw [Nat.succ_mul,Nat.add_assoc]
    have hmore : ∀ S', insert hi S ⊆ S' → ∀ i < hi + 1, i ∈ S' := by
      intro S' hsub i hi'
      rcases Nat.lt_succ_iff_lt_or_eq.mp hi' with hlt | rfl
      · exact hsub (Finset.mem_insert_of_mem (hS i hlt))
      · exact hsub (Finset.mem_insert_self _ _)
    by_cases hv : varr hi = arr + hi * esize
    · rw [permuteFrom,if_pos hv,hnext]
      exact ih (hi + 1) (by omega) (h.skip he (by omega) hv) (hmore _ subset_rfl)
    · obtain ⟨m₁,m₂,varr₂,tgt,lastp,m₃,S',h₁,h₂,h₃,hsub,h'⟩ := Settled.cycle ho he hp h (by omega) hv hf
      obtain ⟨m',varr',S'',hrun,hdone⟩ := ih (hi + 1) (by omega) h' (hmore _ hsub)
      refine ⟨m',varr',S'',?_,hdone⟩
      rw [permuteFrom,if_neg hv,h₁]
      simp only [Option.bind_eq_bind, Option.bind_some, h₂, h₃, hnext]
      exact hrun

/-! ## The two functions -/

/-- The addresses of the elements. -/
def addresses (arr nelem esize : ℕ) : List ℕ := (List.range nelem).map fun i => arr + i * esize

/-- The vector is a permutation of the addresses of the elements. -/
def Permuted (arr nelem esize : ℕ) (varr : ℕ → ℕ) : Prop := ((List.range nelem).map varr).Perm (addresses arr nelem esize)

theorem Permuted.shuffle (h : Permuted arr nelem esize varr) (he : 0 < esize) :
    Shuffle (fun i => (varr i - arr) / esize) nelem ∧ ∀ i < nelem, varr i = arr + (varr i - arr) / esize * esize := by
  have haddr : ∀ i < nelem, ∃ j < nelem, varr i = arr + j * esize := by
    intro i hi
    obtain ⟨j,hj,hij⟩ := List.mem_map.mp (h.mem_iff.mp (List.mem_map_of_mem (List.mem_range.mpr hi)))
    exact ⟨j,List.mem_range.mp hj,hij.symm⟩
  have hidx : ∀ i < nelem, ∃ j < nelem, varr i = arr + j * esize ∧ (varr i - arr) / esize = j := by
    intro i hi
    obtain ⟨j,hj,hij⟩ := haddr i hi
    exact ⟨j,hj,hij,by rw [hij,Nat.add_sub_cancel_left,Nat.mul_div_cancel _ he]⟩
  have hnodup : ((List.range nelem).map varr).Nodup := by
    rw [h.nodup_iff]
    exact List.Nodup.map_on (fun _ _ _ _ => elem_inj he) List.nodup_range
  refine ⟨⟨fun i hi => ?_,fun i hi j hj hij => ?_⟩,fun i hi => ?_⟩
  · obtain ⟨j,hj,-,he'⟩ := hidx i hi
    exact he'.trans_lt hj
  · obtain ⟨a,-,ha,ha'⟩ := hidx i hi
    obtain ⟨b,-,hb,hb'⟩ := hidx j hj
    refine List.inj_on_of_nodup_map hnodup (List.mem_range.mpr hi) (List.mem_range.mpr hj) ?_
    rw [ha,hb,← ha',← hb',hij]
  · obtain ⟨j,-,hij,hj⟩ := hidx i hi
    rw [hj,hij]

theorem Objects.no_overflow (ho : Objects arr tmp nelem esize) (he : 0 < esize) : ¬(2 ^ 64 - 1) / esize < nelem := by
  have h1 := ho.pos
  have h2 := ho.fits
  rw [Nat.not_lt,Nat.le_div_iff_mul_le he]
  omega

theorem permuteArray_spec (ho : Objects arr tmp nelem esize) (h : Permuted arr nelem esize varr) (m : Mem) :
    ∃ m' varr', permuteArray m arr tmp varr nelem esize (nelem + 1) = some (m',varr') ∧
      (∀ i < nelem, load m' (arr + i * esize) esize = load m (varr i) esize ∧ varr' i = arr + i * esize) ∧
      Frame arr tmp nelem esize m m' := by
  by_cases hsmall : nelem < 2 ∨ esize = 0 ∨ (2 ^ 64 - 1) / esize < nelem
  · -- no element, one, or elements without bytes: nothing has to move
    have hself : ∀ i < nelem, varr i = arr + i * esize := by
      intro i hi
      obtain ⟨j,hj,hij⟩ := List.mem_map.mp (h.mem_iff.mp (List.mem_map_of_mem (List.mem_range.mpr hi)))
      rw [List.mem_range] at hj
      rcases hsmall with h2 | rfl | hov
      · rw [← hij,show j = i by omega]
      · rw [← hij,Nat.mul_zero,Nat.mul_zero]
      · rcases Nat.eq_zero_or_pos esize with rfl | he
        · rw [← hij,Nat.mul_zero,Nat.mul_zero]
        · exact absurd hov (ho.no_overflow he)
    exact ⟨m,varr,if_pos hsmall,fun i hi => ⟨by rw [hself i hi],hself i hi⟩,fun _ _ _ => rfl⟩
  · have he : 0 < esize := by omega
    obtain ⟨hp,hv⟩ := h.shuffle he
    have hstart : Settled (fun i => load m (arr + i * esize) esize) (fun i => (varr i - arr) / esize) arr tmp nelem esize m ∅ m varr :=
      ⟨⟨fun i _ hi => absurd hi (Finset.notMem_empty i),fun i hi _ => ⟨hv i hi,rfl⟩⟩,Finset.empty_subset _,
        fun x hx => absurd hx (Finset.notMem_empty x),fun _ _ _ => rfl⟩
    obtain ⟨m',varr',S,hrun,hS,hall⟩ := permuteFrom_spec ho he hp (Nat.lt_succ_self nelem) 0 nelem (Nat.zero_add _) hstart
      (fun i hi => absurd hi (Nat.not_lt_zero i))
    rw [Nat.zero_mul,Nat.add_zero] at hrun
    refine ⟨m',varr',(if_neg hsmall).trans hrun,fun i hi => ?_,hS.frame⟩
    obtain ⟨h1,h2⟩ := hS.seated.seat i hi (hall i hi)
    exact ⟨h2.trans (by rw [← hv i hi]),h1⟩

theorem fillFrom_spec (esize k i p : ℕ) (varr : ℕ → ℕ) :
    (∀ j < i, fillFrom esize k i p varr j = varr j) ∧ ∀ j < k, fillFrom esize k i p varr (i + j) = p + j * esize := by
  induction k generalizing i p varr with
  | zero => exact ⟨fun _ _ => rfl,fun j hj => absurd hj (Nat.not_lt_zero j)⟩
  | succ k ih =>
    obtain ⟨h1,h2⟩ := ih (i + 1) (p + esize) (update varr i p)
    refine ⟨fun j hj => ?_,fun j hj => ?_⟩
    · rw [fillFrom,h1 j (by omega),update_of_ne (by omega)]
    · rw [fillFrom]
      cases j with
      | zero => simp only [Nat.add_zero, h1 _ (Nat.lt_succ_self i), update_self, Nat.zero_mul]
      | succ j =>
        rw [show i + (j + 1) = i + 1 + j by omega,h2 j (by omega),Nat.succ_mul]
        omega

theorem arrayToVoidp_spec (ho : Objects arr tmp nelem esize) (he : 0 < esize) (varr : ℕ → ℕ) :
    (List.range nelem).map (arrayToVoidp varr arr nelem esize) = addresses arr nelem esize := by
  refine List.map_congr_left fun i hi => ?_
  rw [List.mem_range] at hi
  have h0 : ¬(nelem < 1 ∨ esize = 0 ∨ (2 ^ 64 - 1) / esize < nelem) := by
    have := ho.no_overflow he
    omega
  have hfill := (fillFrom_spec esize nelem 0 arr varr).2 i hi
  rw [Nat.zero_add] at hfill
  rw [arrayToVoidp,if_neg h0,hfill]

theorem contents_eq_map (m : Mem) (arr nelem esize : ℕ) :
    contents m arr nelem esize = (List.range nelem).map fun i => load m (arr + i * esize) esize := by
  refine List.ext_getElem (by simp [contents, Cells.toList, cells]) fun i h1 h2 => ?_
  simp [contents, Cells.toList, cells]

/-- The elements in the order of the vector, and then an array that is sorted by any sort of its
pointers in between. -/
theorem permute_sorts (ho : Objects arr tmp nelem esize) (m : Mem) :
    (∀ varr, Permuted arr nelem esize varr → ∃ fuel m' varr', permuteArray m arr tmp varr nelem esize fuel = some (m',varr') ∧
      ∀ i < nelem, load m' (arr + i * esize) esize = load m (varr i) esize ∧ varr' i = arr + i * esize) ∧
    ∀ (cmp : List UInt8 → List UInt8 → ℤ) (varr sorted : ℕ → ℕ),
      ((List.range nelem).map sorted).Perm ((List.range nelem).map (arrayToVoidp varr arr nelem esize)) →
      (∀ i j, i < j → j < nelem → cmp (load m (sorted i) esize) (load m (sorted j) esize) ≤ 0) →
      ∃ fuel m' varr', permuteArray m arr tmp sorted nelem esize fuel = some (m',varr') ∧
        (contents m' arr nelem esize).Perm (contents m arr nelem esize) ∧
        (contents m' arr nelem esize).Pairwise fun a b => cmp a b ≤ 0 := by
  refine ⟨fun varr hv => ?_,fun cmp varr sorted hperm hsorted => ?_⟩
  · obtain ⟨m',varr',hrun,hall,-⟩ := permuteArray_spec ho hv m
    exact ⟨_,m',varr',hrun,hall⟩
  · have hrun : ∃ fuel m' varr', permuteArray m arr tmp sorted nelem esize fuel = some (m',varr') ∧
        contents m' arr nelem esize = (List.range nelem).map fun i => load m (sorted i) esize := by
      rcases Nat.eq_zero_or_pos esize with rfl | he
      · exact ⟨0,m,sorted,if_pos (.inr (.inl rfl)),contents_eq_map ..⟩
      · rw [arrayToVoidp_spec ho he] at hperm
        obtain ⟨m',varr',hrun,hall,-⟩ := permuteArray_spec ho hperm m
        refine ⟨_,m',varr',hrun,(contents_eq_map ..).trans ?_⟩
        exact List.map_congr_left fun i hi => (hall i (List.mem_range.mp hi)).1
    obtain ⟨fuel,m',varr',hrun,hcont⟩ := hrun
    refine ⟨fuel,m',varr',hrun,?_,?_⟩
    · rcases Nat.eq_zero_or_pos esize with rfl | he
      · rw [hcont,contents_eq_map]
        exact .refl _
      · rw [arrayToVoidp_spec ho he] at hperm
        have hmap := hperm.map fun p => load m p esize
        rw [List.map_map,addresses,List.map_map] at hmap
        rw [hcont,contents_eq_map]
        exact hmap
    · rw [hcont,List.pairwise_map]
      refine List.pairwise_lt_range.imp_of_mem fun {i j} _ hj hij => hsorted i j hij (List.mem_range.mp hj)

/-- Three bytes at 16, and pointers to the last, the first and the second of them. -/
theorem permute_sorts_three : ∃ fuel m' varr',
    permuteArray (fun x => if x = 16 then 7 else 3) 16 32 (fun i => if i = 0 then 18 else 15 + i) 3 1 fuel = some (m',varr') ∧
      load m' 17 1 = [7] := by
  have hv : Permuted 16 3 1 fun i => if i = 0 then 18 else 15 + i :=
    (by decide : [18,16,17].Perm [16,17,18])
  obtain ⟨fuel,m',varr',hrun,hall⟩ :=
    (permute_sorts (⟨by decide,by decide,by decide⟩ : Objects 16 32 3 1) fun x => if x = 16 then 7 else 3).1 _ hv
  exact ⟨fuel,m',varr',hrun,(hall 1 (by decide)).1⟩

end Catlib.Sort
