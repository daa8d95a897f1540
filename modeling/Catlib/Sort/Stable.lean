import Catlib.Sort.Bytes

/-! # The insertion sort is stable

`isort` moves an element down past those that compare greater only, and elements change places with their
neighbours alone, so that those that compare equal stay in their order.
-/
namespace Catlib.Sort

section stable

variable {M α : Type} {A : Cells M α} {cmp : α → α → ℤ} {m m' m'' : M} {s n p fuel i : ℕ}

/-- The elements that compare equal to `k` are the same ones in the same order. -/
def SameOrder (A : Cells M α) (cmp : α → α → ℤ) (m m' : M) : Prop :=
  ∀ k, (A.toList m').filter (fun a => cmp k a = 0) = (A.toList m).filter fun a => cmp k a = 0

theorem toList_split (A : Cells M α) (m : M) (hi : i + 1 < A.nelem) :
    A.toList m = (List.range' 0 i).map (A.elem m) ++ A.elem m i :: A.elem m (i + 1) ::
      (List.range' (i + 2) (A.nelem - (i + 2))).map (A.elem m) := by
  have hlist : A.toList m = (List.range' 0 A.nelem).map (A.elem m) := by
    rw [Cells.toList,List.ofFn_eq_map,← List.range_eq_range',← List.map_coe_finRange_eq_range,List.map_map]
    rfl
  have hrange : List.range' 0 A.nelem = List.range' 0 i ++ i :: (i + 1) :: List.range' (i + 2) (A.nelem - (i + 2)) := by
    obtain ⟨r,hr⟩ : ∃ r, A.nelem = i + (r + 2) := ⟨A.nelem - (i + 2),by omega⟩
    rw [hr,← List.range'_append_1,Nat.zero_add,show i + (r + 2) - (i + 2) = r by omega]
    rfl
  rw [hlist,hrange,List.map_append]
  rfl

/-- Neighbours that change places do not compare equal. -/
theorem sameOrder_swap (hc : IsCmp cmp) (hi : i + 1 < A.nelem) (hgt : 0 < cmp (A.elem m i) (A.elem m (i + 1))) :
    SameOrder A cmp m (A.swap m i (i + 1)) := by
  intro k
  have hsame : ∀ j < A.nelem, j ≠ i → j ≠ i + 1 → A.elem (A.swap m i (i + 1)) j = A.elem m j := fun j hj h1 h2 =>
    elem_swap_ne (by omega) hi hj h1 h2
  have hlow : (List.range' 0 i).map (A.elem (A.swap m i (i + 1))) = (List.range' 0 i).map (A.elem m) := by
    refine List.map_congr_left fun j hj => ?_
    have := List.mem_range'_1.mp hj
    exact hsame j (by omega) (by omega) (by omega)
  have hhigh : (List.range' (i + 2) (A.nelem - (i + 2))).map (A.elem (A.swap m i (i + 1))) =
      (List.range' (i + 2) (A.nelem - (i + 2))).map (A.elem m) := by
    refine List.map_congr_left fun j hj => ?_
    have := List.mem_range'_1.mp hj
    exact hsame j (by omega) (by omega) (by omega)
  have hne : ¬(cmp k (A.elem m i) = 0 ∧ cmp k (A.elem m (i + 1)) = 0) := by
    rintro ⟨h1,h2⟩
    have := hc.eq_trans (hc.eq_swap h1) h2
    omega
  rw [toList_split A m hi,toList_split A _ hi,hlow,hhigh,elem_swap_left (by omega) hi,elem_swap_right (by omega) hi]
  simp only [List.filter_append, List.filter_cons, decide_eq_true_eq]
  split
  · split
    · exact absurd ⟨‹_›,‹_›⟩ hne
    · rfl
  · rfl

theorem isortInner_sameOrder (hc : IsCmp cmp) (hs : SameOrder A cmp m m') :
    Post (SameOrder A cmp m) (loop (isortInner A cmp s) fuel (p,m')) := by
  refine Post.loop (I := fun x => SameOrder A cmp m x.2) ?_ hs fuel
  rintro ⟨p2,m₁⟩ hs
  refine Post.ite ?_ (Post.some hs)
  intro t ht
  obtain ⟨c,hcmp,ht⟩ := Option.bind_eq_some_iff.mp ht
  obtain ⟨⟨-,hlt⟩,hc'⟩ := Option.ite_none_right_eq_some.mp hcmp
  obtain rfl := Option.some.inj hc'
  split at ht
  · rename_i hgt
    obtain ⟨m₂,hswap,ht⟩ := Option.bind_eq_some_iff.mp ht
    cases ht
    obtain ⟨-,hm⟩ := Option.ite_none_right_eq_some.mp hswap
    obtain rfl := Option.some.inj hm
    cases p2 with
    | zero => exact absurd hgt (by rw [hc.refl]; exact lt_irrefl _)
    | succ i => exact fun k => (sameOrder_swap hc hlt hgt k).trans (hs k)
  · cases ht
    exact hs

theorem isortI_sameOrder (hc : IsCmp cmp) (m : M) (s n fuel : ℕ) : Post (SameOrder A cmp m) (isortI A cmp m s n fuel) := by
  refine Post.loop (I := fun x => SameOrder A cmp m x.2) ?_ (fun _ => rfl) fuel
  rintro ⟨p1,m₁⟩ hs
  exact Post.ite (Post.bind (isortInner_sameOrder hc hs) fun m₂ hs => Post.some hs) (Post.some hs)

end stable

variable {cmp : List UInt8 → List UInt8 → ℤ} {m m' : Mem} {arr nelem esize fuel : ℕ}

/-- The insertion sort of an array is stable: it sorts, and elements that compare equal stay in their order. -/
theorem isortArray_stable (hc : IsCmp cmp) (ha : arr ≠ 0) (hf : nelem < fuel) :
    ∃ m', isortArray cmp m arr nelem esize fuel = some m' ∧ Sorted cmp m arr nelem esize m' ∧
      ∀ k, (contents m' arr nelem esize).filter (fun a => cmp k a = 0) = (contents m arr nelem esize).filter fun a => cmp k a = 0 := by
  obtain ⟨m',hrun,hsorted⟩ : ∃ m', isortArray cmp m arr nelem esize fuel = some m' ∧ Sorted cmp m arr nelem esize m' :=
    guarded_spec hc ha (isortI_spec hc (Nat.zero_add nelem).le hf)
  refine ⟨m',hrun,hsorted,?_⟩
  rw [isortArray,guarded] at hrun
  split at hrun
  · cases hrun
    exact fun _ => rfl
  · exact isortI_sameOrder hc m 0 nelem fuel m' hrun

theorem isortArray_stable_sample :
    ∃ m', isortArray cmpByte (fun x => if x = 16 then 7 else 3) 16 2 1 3 = some m' ∧
      Sorted cmpByte (fun x => if x = 16 then 7 else 3) 16 2 1 m' ∧
        ∀ k, (contents m' 16 2 1).filter (fun a => cmpByte k a = 0) =
          (contents (fun x => if x = 16 then 7 else 3) 16 2 1).filter fun a => cmpByte k a = 0 :=
  isortArray_stable isCmp_cmpByte (by decide) (by decide)

end Catlib.Sort
