import Mathlib.Data.List.Range
import Mathlib.Algebra.Group.Nat.Defs

/-! # The edge arrays of graph.c

A node keeps its edges in arrays with holes: a deleted edge leaves a null pointer behind,
the next edge takes the first hole, and an array grows by doubling. The length is an
unsigned int, so doubling 2³¹ gives 0.
-/
namespace Catlib.Graph

/-- The array memory: the entry at an index behind a pointer. -/
abbrev Mem := ℕ → ℕ → Option ℕ

/-- `struct gr_edge_arr`. -/
structure EdgeArr where
  arr : ℕ
  fill : ℕ
  len : ℕ
  deriving DecidableEq

def Mem.store (mem : Mem) (p i : ℕ) (e : Option ℕ) : Mem := fun q j => if q = p ∧ j = i then e else mem q j

/-- `mem_resize`, which may move the block. -/
def memResize (mem : Mem) (old new len : ℕ) : Mem := fun q j => if q = new ∧ j < len then mem old j else mem q j

/-- `CAT_GRAPH_INIT_EDGE_LEN`. -/
def initEdgeLen : ℕ := 16

/-- The first loop of `add_edge_help`. -/
def firstHole (mem : Mem) (ea : EdgeArr) : Option ℕ := (List.range ea.fill).find? fun i => mem ea.arr i = none

/-- The growth in `add_edge_help`; the new block is at `new`. -/
def growArr (mem : Mem) (ea : EdgeArr) (new : ℕ) : Mem × EdgeArr :=
  if ea.fill = ea.len then (memResize mem ea.arr new ea.len,{ ea with arr := new, len := ea.len * 2 % 2 ^ 32 })
  else (mem,ea)

/-- `add_edge_help`, with the two arrays it leaves behind. -/
def addEdgeHelp (mem : Mem) (edge : ℕ) (ea : EdgeArr) (ea2 : Option EdgeArr) (new : ℕ) :
    Option (Mem × EdgeArr × Option EdgeArr) :=
  match firstHole mem ea with
  | some i => some (mem.store ea.arr i (some edge),ea,ea2)
  | none =>
    let (mem,ea) := growArr mem ea new
    if ea.fill < ea.len then
      let ea' := { ea with fill := ea.fill + 1 }
      some (mem.store ea.arr ea.fill (some edge),ea',ea2.map fun _ => ea')
    else none

/-- The loop at the end of `del_edge_help`. -/
def trim (a : ℕ → Option ℕ) : ℕ → ℕ
  | 0 => 0
  | n + 1 => if a n = none then trim a n else n + 1

/-- The removal from one array in `del_edge_help`, and whether the last entry went. -/
def clearEntry (mem : Mem) (edge : ℕ) (ea : EdgeArr) : Option (Mem × EdgeArr × Bool) :=
  match (List.range ea.fill).find? fun i => mem ea.arr i = some edge with
  | none => none
  | some i =>
    let mem := mem.store ea.arr i none
    if i = ea.fill - 1 then some (mem,{ ea with fill := trim (mem ea.arr) ea.fill },true) else some (mem,ea,false)

/-! ## What an array holds -/

/-- The array has every edge of the set once, and no other edge. -/
structure Holds (mem : Mem) (ea : EdgeArr) (S : ℕ → Prop) : Prop where
  fits : ea.fill ≤ ea.len
  len : ∃ k ≤ 27, ea.len = initEdgeLen * 2 ^ k
  live : ∀ i < ea.fill, ∀ e, mem ea.arr i = some e → S e
  found : ∀ e, S e → ∃ i < ea.fill, mem ea.arr i = some e
  once : ∀ i < ea.fill, ∀ j < ea.fill, ∀ e, mem ea.arr i = some e → mem ea.arr j = some e → i = j

/-- The array has 2³¹ entries, and all of them are in use. -/
def Full (mem : Mem) (ea : EdgeArr) : Prop := ea.fill = 2 ^ 31 ∧ ∀ i < ea.fill, mem ea.arr i ≠ none

variable {mem mem' : Mem} {ea : EdgeArr} {S S' : ℕ → Prop} {edge new : ℕ}

@[simp] theorem Mem.store_self {p i : ℕ} {e : Option ℕ} : mem.store p i e p i = e := if_pos ⟨rfl,rfl⟩

theorem Mem.store_index {p i j : ℕ} {e : Option ℕ} (h : j ≠ i) : mem.store p i e p j = mem p j := if_neg fun h' => h h'.2

theorem Mem.store_other {p q i : ℕ} {e : Option ℕ} (h : q ≠ p) : mem.store p i e q = mem q := by
  funext j
  exact if_neg fun h' => h h'.1

theorem Holds.congr (h : Holds mem ea S) (hm : ∀ i < ea.fill, mem' ea.arr i = mem ea.arr i) (hS : ∀ e, S' e ↔ S e) :
    Holds mem' ea S' := by
  refine ⟨h.fits,h.len,fun i hi e he => ?_,fun e he => ?_,fun i hi j hj e h1 h2 => ?_⟩
  · rw [hm i hi] at he
    exact (hS e).2 (h.live i hi e he)
  · obtain ⟨i,hi,hie⟩ := h.found e ((hS e).1 he)
    exact ⟨i,hi,by rw [hm i hi,hie]⟩
  · rw [hm i hi] at h1
    rw [hm j hj] at h2
    exact h.once i hi j hj e h1 h2

theorem Holds.store {i : ℕ} (h : Holds mem ea S) (hi : i < ea.fill) (hn : mem ea.arr i = none) (he : ¬S edge) :
    Holds (mem.store ea.arr i (some edge)) ea fun e => e = edge ∨ S e := by
  have hget : ∀ {j e}, j < ea.fill → mem.store ea.arr i (some edge) ea.arr j = some e →
      j = i ∧ e = edge ∨ j ≠ i ∧ mem ea.arr j = some e := by
    intro j e hj hje
    by_cases hji : j = i
    · rw [hji,Mem.store_self] at hje
      cases hje
      exact Or.inl ⟨hji,rfl⟩
    · rw [Mem.store_index hji] at hje
      exact Or.inr ⟨hji,hje⟩
  refine ⟨h.fits,h.len,fun j hj e hje => ?_,fun e hS => ?_,fun j hj k hk e h1 h2 => ?_⟩
  · exact (hget hj hje).imp (fun h => h.2) fun h' => h.live j hj e h'.2
  · rcases hS with rfl | hS
    · exact ⟨i,hi,Mem.store_self⟩
    · obtain ⟨j,hj,hje⟩ := h.found e hS
      have hji : j ≠ i := fun hji => by rw [hji,hn] at hje; cases hje
      exact ⟨j,hj,by rw [Mem.store_index hji,hje]⟩
  · rcases hget hj h1 with ⟨rfl,rfl⟩ | ⟨hj',g1⟩ <;> rcases hget hk h2 with ⟨rfl,hek⟩ | ⟨hk',g2⟩
    · rfl
    · exact absurd (h.live k hk e g2) he
    · exact absurd (h.live j hj e g1) (hek ▸ he)
    · exact h.once j hj k hk e g1 g2

theorem Holds.push (h : Holds mem ea S) (hlt : ea.fill < ea.len) (he : ¬S edge) :
    Holds (mem.store ea.arr ea.fill (some edge)) { ea with fill := ea.fill + 1 } fun e => e = edge ∨ S e := by
  have hget : ∀ {j e}, j < ea.fill + 1 → mem.store ea.arr ea.fill (some edge) ea.arr j = some e →
      j = ea.fill ∧ e = edge ∨ j < ea.fill ∧ mem ea.arr j = some e := by
    intro j e hj hje
    by_cases hji : j = ea.fill
    · rw [hji,Mem.store_self] at hje
      cases hje
      exact Or.inl ⟨hji,rfl⟩
    · rw [Mem.store_index hji] at hje
      exact Or.inr ⟨by omega,hje⟩
  refine ⟨hlt,h.len,fun j hj e hje => ?_,fun e hS => ?_,fun j hj k hk e h1 h2 => ?_⟩
  · exact (hget hj hje).imp (fun h => h.2) fun h' => h.live j h'.1 e h'.2
  · rcases hS with rfl | hS
    · exact ⟨ea.fill,Nat.lt_succ_self _,Mem.store_self⟩
    · obtain ⟨j,hj,hje⟩ := h.found e hS
      exact ⟨j,Nat.lt_succ_of_lt hj,by rw [Mem.store_index hj.ne,hje]⟩
  · rcases hget hj h1 with ⟨rfl,rfl⟩ | ⟨hj',g1⟩ <;> rcases hget hk h2 with ⟨rfl,hek⟩ | ⟨hk',g2⟩
    · rfl
    · exact absurd (h.live k hk' e g2) he
    · exact absurd (h.live j hj' e g1) (hek ▸ he)
    · exact h.once j hj' k hk' e g1 g2

theorem firstHole_none (h : firstHole mem ea = none) : ∀ i < ea.fill, mem ea.arr i ≠ none := by
  intro i hi hn
  have := List.find?_eq_none.1 h i (List.mem_range.2 hi)
  simp [hn] at this

theorem firstHole_some {i : ℕ} (h : firstHole mem ea = some i) : i < ea.fill ∧ mem ea.arr i = none :=
  ⟨List.mem_range.1 (List.mem_of_find?_eq_some h),by simpa using List.find?_some h⟩

theorem growArr_spec (h : Holds mem ea S) (hfull : ¬Full mem ea) (hno : firstHole mem ea = none) (new : ℕ) :
    Holds (growArr mem ea new).1 (growArr mem ea new).2 S ∧ (growArr mem ea new).2.fill = ea.fill ∧
      (growArr mem ea new).2.fill < (growArr mem ea new).2.len ∧
      ((growArr mem ea new).2.arr = ea.arr ∨ (growArr mem ea new).2.arr = new) ∧
      ∀ p, p ≠ (growArr mem ea new).2.arr → (growArr mem ea new).1 p = mem p := by
  obtain ⟨k,hk,hlen⟩ := h.len
  rw [growArr]
  split
  · rename_i hfill
    -- a full array of the largest length is excluded
    have hk' : k < 27 := by
      rcases Nat.lt_or_ge k 27 with hk' | hk'
      · exact hk'
      · have : k = 27 := le_antisymm hk hk'
        subst this
        exact absurd ⟨by rw [hfill,hlen]; rfl,firstHole_none hno⟩ hfull
    have hpow : 2 ^ k ≤ 2 ^ 26 := Nat.pow_le_pow_right (by decide) (by omega)
    have hdouble : ea.len * 2 % 2 ^ 32 = ea.len * 2 := by
      rw [hlen,initEdgeLen]
      omega
    have hpos : 0 < ea.len := by
      rw [hlen]
      exact Nat.mul_pos (by decide) (Nat.pow_pos (by decide))
    have hold : ∀ i < ea.fill, memResize mem ea.arr new ea.len new i = mem ea.arr i :=
      fun i hi => if_pos ⟨rfl,lt_of_lt_of_le hi h.fits⟩
    refine ⟨⟨?_,⟨k + 1,hk',?_⟩,fun i hi e he => h.live i hi e (hold i hi ▸ he),fun e he => ?_,
      fun i hi j hj e h1 h2 => h.once i hi j hj e (hold i hi ▸ h1) (hold j hj ▸ h2)⟩,rfl,?_,Or.inr rfl,fun p hp => ?_⟩
    · dsimp only
      omega
    · dsimp only
      rw [hdouble,hlen,Nat.pow_succ,Nat.mul_assoc]
    · obtain ⟨i,hi,hie⟩ := h.found e he
      exact ⟨i,hi,(hold i hi).trans hie⟩
    · dsimp only
      omega
    · funext j
      exact if_neg fun h' => hp h'.1
  · rename_i hfill
    exact ⟨h,rfl,lt_of_le_of_ne h.fits hfill,Or.inl rfl,fun _ _ => rfl⟩

/-- What `add_edge_help` does to an array, and to the view that shares it. -/
structure Added (mem : Mem) (ea : EdgeArr) (ea2 : Option EdgeArr) (S : ℕ → Prop) (edge new : ℕ)
    (r : Mem × EdgeArr × Option EdgeArr) : Prop where
  holds : Holds r.1 r.2.1 fun e => e = edge ∨ S e
  arr : r.2.1.arr = ea.arr ∨ r.2.1.arr = new
  other : ∀ p, p ≠ r.2.1.arr → r.1 p = mem p
  shared : ea2 = some ea → r.2.2 = some r.2.1
  alone : ea2 = none → r.2.2 = none

theorem addEdgeHelp_spec (h : Holds mem ea S) (hfull : ¬Full mem ea) (he : ¬S edge) (ea2 : Option EdgeArr) (new : ℕ) :
    ∃ r, addEdgeHelp mem edge ea ea2 new = some r ∧ Added mem ea ea2 S edge new r := by
  rw [addEdgeHelp]
  cases hhole : firstHole mem ea with
  | some i =>
    obtain ⟨hi,hn⟩ := firstHole_some hhole
    exact ⟨_,rfl,h.store hi hn he,Or.inl rfl,fun p hp => Mem.store_other hp,id,id⟩
  | none =>
    obtain ⟨hg,-,hlt,harr,hother⟩ := growArr_spec h hfull hhole new
    dsimp only
    rw [if_pos hlt]
    refine ⟨_,rfl,hg.push hlt he,harr,fun p hp => ?_,fun h2 => ?_,fun h2 => ?_⟩
    · dsimp only at hp ⊢
      rw [Mem.store_other hp,hother p hp]
    · rw [h2]
      rfl
    · rw [h2]
      rfl

theorem addEdgeHelp_dense (h : Holds mem ea S) (hno : firstHole mem ea = none) {ea2 : Option EdgeArr}
    {r : Mem × EdgeArr × Option EdgeArr} (hfull : ¬Full mem ea) (hr : addEdgeHelp mem edge ea ea2 new = some r) :
    r.2.1.fill = ea.fill + 1 ∧ firstHole r.1 r.2.1 = none := by
  obtain ⟨hg,hfill,hlt,-,-⟩ := growArr_spec h hfull hno new
  have hdense : ∀ i < ea.fill, (growArr mem ea new).1 (growArr mem ea new).2.arr i ≠ none := by
    intro i hi
    rw [growArr]
    split
    · change memResize mem ea.arr new ea.len new i ≠ none
      rw [memResize,if_pos ⟨rfl,lt_of_lt_of_le hi h.fits⟩]
      exact firstHole_none hno i hi
    · exact firstHole_none hno i hi
  rw [addEdgeHelp,hno] at hr
  dsimp only at hr
  rw [if_pos hlt] at hr
  cases hr
  refine ⟨congrArg (· + 1) hfill,List.find?_eq_none.2 fun i hi => ?_⟩
  have hi : i < (growArr mem ea new).2.fill + 1 := List.mem_range.1 hi
  simp only [decide_eq_true_eq]
  by_cases hif : i = (growArr mem ea new).2.fill
  · rw [hif,Mem.store_self]
    nofun
  · rw [Mem.store_index hif]
    exact hdense i (by omega)

theorem addEdgeHelp_full (h : Holds mem ea S) (hno : firstHole mem ea = none) (hfill : ea.fill = 2 ^ 31)
    (ea2 : Option EdgeArr) : addEdgeHelp mem edge ea ea2 new = none := by
  obtain ⟨k,hk,hlen⟩ := h.len
  have hpow : 2 ^ k ≤ 2 ^ 27 := Nat.pow_le_pow_right (by decide) hk
  have hfits := h.fits
  have hfl : ea.fill = ea.len := by
    rw [hlen,initEdgeLen] at hfits ⊢
    omega
  rw [addEdgeHelp,hno]
  dsimp only
  rw [growArr,if_pos hfl,if_neg]
  dsimp only
  rw [← hfl,hfill]
  decide

/-! ## Removal -/

theorem trim_le (a : ℕ → Option ℕ) (n : ℕ) : trim a n ≤ n := by
  induction n with
  | zero => exact le_rfl
  | succ n ih =>
    rw [trim]
    split
    · exact ih.trans (Nat.le_succ n)
    · exact le_rfl

theorem trim_none {a : ℕ → Option ℕ} {n i : ℕ} (h : trim a n ≤ i) (hi : i < n) : a i = none := by
  induction n with
  | zero => exact absurd hi (Nat.not_lt_zero i)
  | succ n ih =>
    rw [trim] at h
    split at h
    · rename_i hn
      rcases Nat.lt_succ_iff_lt_or_eq.1 hi with hi | rfl
      · exact ih h hi
      · exact hn
    · omega

/-- What a removal does to an array: one entry becomes null, and only null entries are cut
off. -/
structure Cleared (mem : Mem) (ea : EdgeArr) (S : ℕ → Prop) (edge : ℕ) (r : Mem × EdgeArr × Bool) : Prop where
  holds : Holds r.1 r.2.1 fun e => S e ∧ e ≠ edge
  arr : r.2.1.arr = ea.arr
  fill : r.2.1 = { ea with fill := r.2.1.fill }
  le : r.2.1.fill ≤ ea.fill
  kept : r.2.2 = false → r.2.1 = ea
  other : ∀ p, p ≠ ea.arr → r.1 p = mem p
  entry : ∀ i, r.1 ea.arr i = mem ea.arr i ∨ r.1 ea.arr i = none

theorem clearEntry_spec (h : Holds mem ea S) (he : S edge) :
    ∃ r, clearEntry mem edge ea = some r ∧ Cleared mem ea S edge r := by
  obtain ⟨i₀,hi₀,hie₀⟩ := h.found edge he
  rw [clearEntry]
  cases hfind : (List.range ea.fill).find? fun i => mem ea.arr i = some edge with
  | none =>
    have := List.find?_eq_none.1 hfind i₀ (List.mem_range.2 hi₀)
    simp [hie₀] at this
  | some i =>
    have hi : i < ea.fill := List.mem_range.1 (List.mem_of_find?_eq_some hfind)
    have hie : mem ea.arr i = some edge := by simpa using List.find?_some hfind
    -- the entries that the new fill counts
    have hmain : ∀ {f}, f ≤ ea.fill → (∀ j, f ≤ j → j < ea.fill → mem.store ea.arr i none ea.arr j = none) →
        Holds (mem.store ea.arr i none) { ea with fill := f } fun e => S e ∧ e ≠ edge := by
      intro f hf hcut
      have hget : ∀ {j e}, mem.store ea.arr i none ea.arr j = some e → j ≠ i ∧ mem ea.arr j = some e := by
        intro j e hje
        have hji : j ≠ i := fun hji => by rw [hji,Mem.store_self] at hje; cases hje
        exact ⟨hji,by rw [← hje,Mem.store_index hji]⟩
      refine ⟨hf.trans h.fits,h.len,fun j hj e hje => ?_,fun e he' => ?_,fun j hj k hk e h1 h2 => ?_⟩
      · obtain ⟨hji,hje⟩ := hget hje
        have hj' : j < ea.fill := lt_of_lt_of_le hj hf
        refine ⟨h.live j hj' e hje,?_⟩
        rintro rfl
        exact hji (h.once j hj' i hi _ hje hie)
      · obtain ⟨j,hj,hje⟩ := h.found e he'.1
        have hji : j ≠ i := fun hji => by
          rw [hji,hie] at hje
          cases hje
          exact he'.2 rfl
        have hst : mem.store ea.arr i none ea.arr j = some e := by rw [Mem.store_index hji,hje]
        refine ⟨j,?_,hst⟩
        by_contra hge
        rw [hcut j (not_lt.1 hge) hj] at hst
        cases hst
      · exact h.once j (lt_of_lt_of_le hj hf) k (lt_of_lt_of_le hk hf) e (hget h1).2 (hget h2).2
    have hentry : ∀ j, mem.store ea.arr i none ea.arr j = mem ea.arr j ∨ mem.store ea.arr i none ea.arr j = none := by
      intro j
      by_cases hji : j = i
      · exact Or.inr (by rw [hji,Mem.store_self])
      · exact Or.inl (Mem.store_index hji)
    dsimp only
    split
    · exact ⟨_,rfl,hmain (trim_le _ _) fun j hj hj' => trim_none hj hj',rfl,rfl,trim_le _ _,nofun,
        fun p hp => Mem.store_other hp,hentry⟩
    · exact ⟨_,rfl,hmain le_rfl fun j hj hj' => absurd hj (not_le.2 hj'),rfl,rfl,le_rfl,fun _ => rfl,
        fun p hp => Mem.store_other hp,hentry⟩

end Catlib.Graph
