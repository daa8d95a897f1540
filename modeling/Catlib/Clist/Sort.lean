import Catlib.Clist.Merge

/-! # `l_sort` carries runs

The array of heads on the stack of `l_sort` holds the entries of the merge sort by carrying runs, and every turn
of the main loop inserts one element.
-/
namespace Catlib.Clist
open Function MergeRuns

variable {cmp : ℕ → ℕ → ℤ} {st : Stack} {h : Links} {A : Set ℕ} {L : ℕ → List ℕ} {l x i k n f : ℕ} {s acc : List ℕ}
  {ts : List (List ℕ)}

/-- The heads on the stack are no nodes and no heads of other lists. -/
structure Stack.Fits (st : Stack) (A : Set ℕ) (L : ℕ → List ℕ) : Prop where
  arr : ∀ i < arrayLength, Free A L (st.arr i)
  mlist : Free A L st.mlist
  inj : ∀ i < arrayLength, ∀ j < arrayLength, st.arr i = st.arr j → i = j
  ne : ∀ i < arrayLength, st.arr i ≠ st.mlist

/-- The first entries of the array. -/
def Stack.heads (st : Stack) (n : ℕ) : Set ℕ := {c | ∃ i < n, c = st.arr i}

/-- `n` entries from `i` on. -/
def slots (st : Stack) (L : ℕ → List ℕ) (i n : ℕ) : List (List ℕ) := (List.range' i n).map fun j => L (st.arr j)

theorem slots_succ : slots st L i (n + 1) = L (st.arr i) :: slots st L (i + 1) n := by
  simp [slots, List.range'_succ]

theorem slots_congr {L' : ℕ → List ℕ} (he : ∀ j, i ≤ j → j < i + n → L' (st.arr j) = L (st.arr j)) :
    slots st L' i n = slots st L i n := by
  refine List.map_congr_left fun j hj => ?_
  rw [List.mem_range'_1] at hj
  exact he j hj.1 hj.2

/-- What the loops of `l_sort` work on: all lists, and the entries of the array as lists of their own. -/
structure Sorting (st : Stack) (A : Set ℕ) (L : ℕ → List ℕ) (h : Links) : Prop where
  rings : Rings h (A ∪ st.heads arrayLength) L
  mlist : Free (A ∪ st.heads arrayLength) L st.mlist
  inj : ∀ i < arrayLength, ∀ j < arrayLength, st.arr i = st.arr j → i = j
  off : ∀ i < arrayLength, st.arr i ∉ A

namespace Sorting

theorem mem (_ : Sorting st A L h) (hi : i < arrayLength) : st.arr i ∈ A ∪ st.heads arrayLength := .inr ⟨i,hi,rfl⟩

theorem arr_ne (hs : Sorting st A L h) {j : ℕ} (hi : i < arrayLength) (hj : j < arrayLength) (hij : i ≠ j) : st.arr i ≠ st.arr j :=
  fun he => hij (hs.inj i hi j hj he)

theorem ne_arr (hs : Sorting st A L h) {c : ℕ} (hc : c ∈ A) (hi : i < arrayLength) : c ≠ st.arr i := fun he => hs.off i hi (he ▸ hc)

theorem next {h' : Links} {a b : ℕ} {ys zs : List ℕ} (hs : Sorting st A L h) (ha : a ∈ A ∪ st.heads arrayLength)
    (hb : b ∈ A ∪ st.heads arrayLength) (hr : Rings h' (A ∪ st.heads arrayLength) (update (update L b ys) a zs))
    (hy : ∀ y ∈ ys, y ∈ L b) (hz : ∀ z ∈ zs, z ∈ L a ∨ z ∈ L b) : Sorting st A (update (update L b ys) a zs) h' := by
  have hoff : ∀ c ∈ A ∪ st.heads arrayLength, st.mlist ∉ L c := fun c hc hm => hs.mlist.off c hc (List.mem_cons_of_mem _ hm)
  refine ⟨hr,⟨hs.mlist.pos,fun c hc hm => ?_⟩,hs.inj,hs.off⟩
  rcases List.mem_cons.1 hm with he | hm
  · exact hs.mlist.off c hc (he ▸ List.mem_cons_self)
  · simp only [update_apply] at hm
    split_ifs at hm
    · exact (hz _ hm).elim (hoff a ha) (hoff b hb)
    · exact hoff b hb (hy _ hm)
    · exact hoff c hc hm

theorem slots_two {z : List ℕ} (hs : Sorting st A L h) (hk : k + 2 + n ≤ arrayLength) :
    slots st (update (update L (st.arr k) []) (st.arr (k + 1)) z) k (n + 2) = [] :: z :: slots st L (k + 1 + 1) n := by
  have hne := hs.arr_ne (i := k) (j := k + 1) (by omega) (by omega) (by omega)
  rw [slots_succ,slots_succ,update_of_ne hne,update_self,update_self,slots_congr fun j h1 h2 => ?_]
  rw [update_of_ne (hs.arr_ne (by omega) (by omega) (by omega)),update_of_ne (hs.arr_ne (by omega) (by omega) (by omega))]

end Sorting

theorem carryRun_spec (hc : IsCmp cmp) (hs : Sorting st A L h) (hk : k + 1 + n ≤ arrayLength) (h0 : L (st.arr k) ≠ [])
    (hf : (L (st.arr k) ++ (slots st L (k + 1) n).flatten).length < f) :
    ∃ h' L', carryRun cmp st f h (k + 1) n = some h' ∧ Sorting st A L' h' ∧
      slots st L' k (n + 1) = carry (leBy cmp) (L (st.arr k)) (slots st L (k + 1) n) ∧
      ∀ c, (∀ j, k ≤ j → j < k + 1 + n → c ≠ st.arr j) → L' c = L c := by
  induction n generalizing h L k with
  | zero => exact ⟨h,L,rfl,hs,by simp [slots, carry],fun _ _ => rfl⟩
  | succ n ih =>
    have hm1 := hs.mem (i := k) (by lia)
    have hm2 := hs.mem (i := k + 1) (by lia)
    have hne := hs.arr_ne (i := k + 1) (j := k) (by lia) (by lia) (by lia)
    have he := hs.rings.isempty hm2
    rw [slots_succ] at hf ⊢
    cases ht : L (st.arr (k + 1)) with
    | nil =>
      obtain ⟨h1,e1,r1⟩ := hs.rings.lMove hm2 hm1 hne h0
      refine ⟨h1,_,?_,hs.next hm2 hm1 r1 (by simp) fun z hz => .inr hz,hs.slots_two (by lia),fun c hc => ?_⟩
      · rw [ht] at he
        simp [carryRun, he, e1]
      · rw [update_of_ne (hc _ (by lia) (by lia)),update_of_ne (hc _ (by lia) (by lia))]
    | cons a t =>
      rw [ht] at he hf
      simp only [List.flatten_cons, List.length_append] at hf
      obtain ⟨h1,e1,r1⟩ := lMerge_spec (f := f) hc hs.rings hm2 hm1 hne hs.mlist (.inr h0) (by rw [ht]; lia)
      rw [ht] at r1
      have hs1 := hs.next hm2 hm1 r1 (by simp) fun z hz => by
        rw [ht,or_comm]
        exact List.mem_merge.1 hz
      have htwo := hs.slots_two (z := (L (st.arr k)).merge (a :: t) (leBy cmp)) (k := k) (n := n) (by lia)
      have hfar : ∀ c, c ≠ st.arr k → c ≠ st.arr (k + 1) →
          update (update L (st.arr k) []) (st.arr (k + 1)) ((L (st.arr k)).merge (a :: t) (leBy cmp)) c = L c :=
        fun c h1 h2 => by rw [update_of_ne h2,update_of_ne h1]
      generalize update (update L (st.arr k) []) (st.arr (k + 1)) ((L (st.arr k)).merge (a :: t) (leBy cmp)) = L1 at *
      rw [slots_succ,slots_succ] at htwo
      simp only [List.cons.injEq] at htwo
      obtain ⟨g1,g2,g3⟩ := htwo
      obtain ⟨h2,L2,e2,hs2,hslots,hfr⟩ := ih (k := k + 1) hs1 (by lia) (by rw [g2]; exact fun h0 => by simpa using congrArg List.length h0)
        (by rw [g2,g3]; simp only [List.length_append, List.length_merge]; lia)
      refine ⟨h2,L2,?_,hs2,?_,fun c hc => ?_⟩
      · simp [carryRun, he, e1, e2]
      · rw [slots_succ,hslots,g2,g3,hfr (st.arr k) fun j h1 h2 => hs.arr_ne (i := k) (by lia) (by lia) (by lia),g1]
        rfl
      · rw [hfr c fun j h1 h2 => hc j (by lia) (by lia),hfar c (hc _ (by lia) (by lia)) (hc _ (by lia) (by lia))]

theorem sortBody_step (hc : IsCmp cmp) (hs : Sorting st A L h) (hl : l ∈ A) {rest : List ℕ} (hL : L l = x :: rest)
    (hf : (x :: (slots st L 0 arrayLength).flatten).length < f) :
    ∃ h' L', sortBody cmp st l f h = some (.again h') ∧ Sorting st A L' h' ∧ L' l = rest ∧
      slots st L' 0 arrayLength = MergeRuns.insert (leBy cmp) x (slots st L 0 arrayLength) ∧ ∀ c ∈ A, c ≠ l → L' c = L c := by
  have hla : l ∈ A ∪ st.heads arrayLength := .inl hl
  have h48 : 0 < arrayLength := by decide
  have hm0 := hs.mem h48
  have hoff : ∀ c ∈ A, ∀ j < arrayLength, c ≠ st.arr j := fun c hc j hj => hs.ne_arr hc hj
  have hl0 := (hoff l hl 0 h48).symm
  have el := hs.rings.isempty hla
  have nl := (hs.rings.ring l hla).next_head
  rw [hL] at el
  simp only [hL, List.cons_append, List.head_cons] at nl
  obtain ⟨h1,e1,r1,f1⟩ := hs.rings.lRem (s := []) (t := rest) hla hL
  rw [List.nil_append] at r1 f1
  have hL0 : update L l rest (st.arr 0) = L (st.arr 0) := update_of_ne hl0 _ _
  have e0 := r1.isempty hm0
  have n0 := (r1.ring _ hm0).next_head
  rw [hL0] at e0
  simp only [hL0] at n0
  -- the first entry after the node went there
  obtain ⟨h2,e2,r2⟩ : ∃ h2, Clist.place cmp st h1 x (decide (L (st.arr 0) = [])) = some h2 ∧
      Rings h2 (A ∪ st.heads arrayLength) (update (update L l rest) (st.arr 0) (MergeRuns.place (leBy cmp) x (L (st.arr 0)))) := by
    cases ht : L (st.arr 0) with
    | nil =>
      obtain ⟨h2,e2,r2⟩ := r1.lIns (s := []) (t := []) hm0 (by rw [hL0,ht]; rfl) rfl f1
      exact ⟨h2,by simpa [Clist.place] using e2,r2⟩
    | cons y t =>
      simp only [ht, List.cons_append, List.head_cons] at n0
      by_cases hlt : cmp x y < 0
      · obtain ⟨h2,e2,r2⟩ := r1.lIns (s := []) (t := y :: t) hm0 (by rw [hL0,ht]; rfl) rfl f1
        have hle : leBy cmp y x = false := by simpa [leBy] using (hc.swap x y).1 hlt
        exact ⟨h2,by simpa [Clist.place, n0, hlt] using e2,by simpa [MergeRuns.place, hle] using r2⟩
      · obtain ⟨h2,e2,r2⟩ := r1.lIns (s := [y]) (t := t) (p := y) hm0 (by rw [hL0,ht]; rfl) rfl f1
        have hle : leBy cmp y x = true := by simpa [leBy] using hc.le_swap.1 (not_lt.1 hlt)
        exact ⟨h2,by simpa [Clist.place, n0, hlt] using e2,by simpa [MergeRuns.place, hle] using r2⟩
  have hs2 := hs.next hm0 hla r2 (fun y hy => by rw [hL]; exact List.mem_cons_of_mem _ hy) fun z hz => by
    rw [(MergeRuns.place_perm _).mem_iff,List.mem_cons] at hz
    rcases hz with rfl | hz
    · exact .inr (by simp [hL])
    · exact .inl hz
  have hslots : slots st L 0 arrayLength = L (st.arr 0) :: slots st L 1 47 := slots_succ
  have hfar : ∀ j, 1 ≤ j → j < 1 + 47 →
      update (update L l rest) (st.arr 0) (MergeRuns.place (leBy cmp) x (L (st.arr 0))) (st.arr j) = L (st.arr j) := fun j h1 h2 => by
    rw [update_of_ne (hs.arr_ne (i := j) (j := 0) h2 h48 (by omega)),update_of_ne (hoff l hl j h2).symm]
  have hA : ∀ c ∈ A, c ≠ l → update (update L l rest) (st.arr 0) (MergeRuns.place (leBy cmp) x (L (st.arr 0))) c = L c := fun c hc hcl => by
    rw [update_of_ne (hoff c hc 0 h48),update_of_ne hcl]
  have hl' : update (update L l rest) (st.arr 0) (MergeRuns.place (leBy cmp) x (L (st.arr 0))) l = rest := by
    rw [update_of_ne hl0.symm,update_self]
  have h0' : update (update L l rest) (st.arr 0) (MergeRuns.place (leBy cmp) x (L (st.arr 0))) (st.arr 0) = _ := update_self _ _ _
  generalize update (update L l rest) (st.arr 0) (MergeRuns.place (leBy cmp) x (L (st.arr 0))) = L2 at *
  have hslots2 : slots st L2 1 47 = slots st L 1 47 := slots_congr hfar
  cases ht : L (st.arr 0) with
  | nil =>
    refine ⟨h2,L2,?_,hs2,hl',?_,hA⟩
    · rw [ht,decide_eq_true rfl] at e0 e2
      simp [sortBody, el, nl, e1, e0, e2]
    · rw [hslots,ht,show slots st L2 0 arrayLength = L2 (st.arr 0) :: slots st L2 1 47 from slots_succ,h0',ht,hslots2]
      rfl
  | cons y t =>
    have hlen := (MergeRuns.place_perm (r := leBy cmp) (x := x) (L (st.arr 0))).length_eq
    obtain ⟨h3,L3,e3,hs3,hslots3,hfr⟩ := carryRun_spec (n := 47) (f := f) hc hs2 (k := 0) (by decide)
      (fun h0 => by rw [← h0',h0,ht] at hlen; simp at hlen) (by
        rw [hslots] at hf
        simp only [List.flatten_cons, List.length_append, List.length_cons] at hf hlen ⊢
        rw [hslots2,h0',hlen]
        omega)
    refine ⟨h3,L3,?_,hs3,?_,?_,fun c hc hcl => ?_⟩
    · rw [ht] at e0 e2
      simp only [sortBody, el, nl, e1, e0, e2, Option.bind_eq_bind, Option.bind_some, arrayLength]
      simp [e3]
    · rw [hfr l fun j _ hj => hoff l hl j (by simpa [arrayLength, Nat.add_comm] using hj),hl']
    · have hs48 : slots st L3 0 arrayLength = slots st L3 0 (47 + 1) := rfl
      rw [hs48,hslots3,hslots2,h0',hslots,ht]
      rfl
    · rw [hfr c fun j _ hj => hoff c hc j (by simpa [arrayLength, Nat.add_comm] using hj),hA c hc hcl]

theorem gatherRuns_spec (hc : IsCmp cmp) (hs : Sorting st A L h) {m : ℕ} (hlast : m < i) (hi : i + n ≤ arrayLength)
    (hf : (L (st.arr m) ++ (slots st L i n).flatten).length < f) :
    ∃ h' L' j, gatherRuns cmp st f h m i n = some (h',j) ∧ Sorting st A L' h' ∧ j < arrayLength ∧
      L' (st.arr j) = gather (leBy cmp) (L (st.arr m)) (slots st L i n) ∧ ∀ c ∈ A, L' c = L c := by
  induction n generalizing h L m i with
  | zero => exact ⟨h,L,m,rfl,hs,by lia,rfl,fun _ _ => rfl⟩
  | succ n ih =>
    have hi' : i < arrayLength := by lia
    have hl' : m < arrayLength := by lia
    have hm1 := hs.mem hi'
    have he := hs.rings.isempty hm1
    rw [slots_succ] at hf ⊢
    cases ht : L (st.arr i) with
    | nil =>
      rw [ht] at he
      rw [ht,List.flatten_cons,List.nil_append] at hf
      obtain ⟨h',L',j,e,hs',hj,hg,hA⟩ := ih (i := i + 1) hs (by lia) (by lia) hf
      exact ⟨h',L',j,by simpa [gatherRuns, he] using e,hs',hj,hg,hA⟩
    | cons a t =>
      rw [ht] at he hf
      simp only [List.flatten_cons, List.length_append] at hf
      have hne := hs.arr_ne hi' hl' (by lia)
      have hm2 := hs.mem hl'
      obtain ⟨h1,e1,r1⟩ := lMerge_spec (f := f) hc hs.rings hm1 hm2 hne hs.mlist (.inl (by simp [ht])) (by rw [ht]; lia)
      rw [ht] at r1
      have hs1 := hs.next hm1 hm2 r1 (by simp) fun z hz => by
        rw [ht,or_comm]
        exact List.mem_merge.1 hz
      have hslots : slots st (update (update L (st.arr m) []) (st.arr i) ((L (st.arr m)).merge (a :: t) (leBy cmp))) (i + 1) n =
          slots st L (i + 1) n := slots_congr fun j h1 h2 => by
        rw [update_of_ne (hs.arr_ne (by lia) hi' (by lia)),update_of_ne (hs.arr_ne (by lia) hl' (by lia))]
      have hA1 : ∀ c ∈ A, update (update L (st.arr m) []) (st.arr i) ((L (st.arr m)).merge (a :: t) (leBy cmp)) c = L c :=
        fun c hc => by rw [update_of_ne (hs.ne_arr hc hi'),update_of_ne (hs.ne_arr hc hl')]
      obtain ⟨h',L',j,e,hs',hj,hg,hA⟩ := ih (i := i + 1) (m := i) hs1 (by lia) (by lia) (by
        rw [hslots,update_self]
        simp only [List.length_append, List.length_merge]
        lia)
      rw [hslots,update_self] at hg
      refine ⟨h',L',j,?_,hs',hj,hg,fun c hc => (hA c hc).trans (hA1 c hc)⟩
      simp [gatherRuns, he, e1, e]

theorem replicate_ne : List.replicate arrayLength ([] : List ℕ) ≠ [] := by
  simp [arrayLength]

/-- All but `k` nodes of the list are in the entries. -/
def Progress (cmp : ℕ → ℕ → ℤ) (st : Stack) (A : Set ℕ) (L : ℕ → List ℕ) (l k : ℕ) (h : Links) : Prop :=
  ∃ L' done, Sorting st A L' h ∧ done ++ L' l = L l ∧ (L' l).length = k ∧
    slots st L' 0 arrayLength = insertAll (leBy cmp) done (List.replicate arrayLength []) ∧ ∀ c ∈ A, c ≠ l → L' c = L c

theorem sortBody_spec (hc : IsCmp cmp) (hl : l ∈ A) (hf : (L l).length < f) (hp : Progress cmp st A L l k h) :
    (∃ h' j, sortBody cmp st l f h = some (.again h') ∧ j < k ∧ Progress cmp st A L l j h') ∨
      ∃ h', sortBody cmp st l f h = some (.leave h') ∧ Progress cmp st A L l 0 h' := by
  obtain ⟨L1,done,hs,hd,rfl,hslots,hfr⟩ := hp
  cases hL : L1 l with
  | nil =>
    have el := hs.rings.isempty (.inl hl : l ∈ A ∪ st.heads arrayLength)
    rw [hL,decide_eq_true rfl] at el
    exact .inr ⟨h,by simp [sortBody, el],L1,done,hs,hd,by rw [hL]; rfl,hslots,hfr⟩
  | cons x rest =>
    have hlen := (insertAll_spec (r := leBy cmp) done replicate_ne).2.length_eq
    have hall := congrArg List.length hd
    rw [hL,List.length_append,List.length_cons] at hall
    obtain ⟨h2,L2,e2,hs2,hl2,hslots2,hfr2⟩ := sortBody_step (f := f) hc hs hl hL (by
      rw [hslots,List.length_cons,hlen]
      simp only [List.flatten_replicate_nil, List.append_nil]
      omega)
    refine .inl ⟨h2,(L2 l).length,e2,by simp [hl2],L2,done ++ [x],hs2,by rw [← hd,hL,hl2]; simp,rfl,?_,fun c hc hcl => ?_⟩
    · rw [hslots2,hslots,insertAll,insertAll,List.foldl_append]
      rfl
    · rw [hfr2 c hc hcl,hfr c hc hcl]

theorem sortLoop_spec (hc : IsCmp cmp) (hs : Sorting st A L h) (hl : l ∈ A) (h0 : slots st L 0 arrayLength = List.replicate arrayLength [])
    (hf : (L l).length < f) :
    ∃ h' L', loop (sortBody cmp st l f) f h = some h' ∧ Sorting st A L' h' ∧ L' l = [] ∧
      slots st L' 0 arrayLength = insertAll (leBy cmp) (L l) (List.replicate arrayLength []) ∧ ∀ c ∈ A, c ≠ l → L' c = L c := by
  have hp : Progress cmp st A L l (L l).length h := ⟨L,[],hs,rfl,rfl,h0,fun _ _ _ => rfl⟩
  obtain ⟨h',he,L',done,hs',hd,hlen,hslots,hfr⟩ := loop_total (fun _ _ hp => sortBody_spec hc hl hf hp) hp hf
  rw [List.length_eq_zero_iff] at hlen
  rw [hlen,List.append_nil] at hd
  exact ⟨h',L',he,hs',hlen,hd ▸ hslots,hfr⟩

theorem initAll_spec {L₀ : ℕ → List ℕ} (hst : st.Fits A L₀) (hl : ∀ j < arrayLength, L (st.arr j) = []) (hA : ∀ a ∈ A, L a = L₀ a)
    (hr : Rings h (A ∪ st.heads i) L) (hi : i + n ≤ arrayLength) :
    ∃ h', initAll st h i n = some h' ∧ Rings h' (A ∪ st.heads (i + n)) L := by
  induction n generalizing h i with
  | zero => exact ⟨h,rfl,hr⟩
  | succ n ih =>
    have hi' : i < arrayLength := by omega
    have hfree : Free (A ∪ st.heads i) L (st.arr i) := by
      refine ⟨(hst.arr i hi').pos,fun a ha => ?_⟩
      rcases ha with ha | ⟨j,hj,rfl⟩
      · rw [hA a ha]
        exact (hst.arr i hi').off a ha
      · rw [hl j (by omega),List.mem_singleton]
        exact fun he => absurd (hst.inj i hi' j (by omega) he) (by omega)
    obtain ⟨h1,e1,r1⟩ := hr.lInit hfree
    have hset : Insert.insert (st.arr i) (A ∪ st.heads i) = A ∪ st.heads (i + 1) := by
      ext c
      simp only [Stack.heads, Set.mem_insert_iff, Set.mem_union, Set.mem_ofPred_eq, Nat.lt_succ_iff_lt_or_eq]
      grind
    obtain ⟨h2,e2,r2⟩ := ih (i := i + 1) (hset ▸ r1.congr fun c _ => by
      by_cases hci : c = st.arr i
      · rw [hci,update_self,hl i hi']
      · rw [update_of_ne hci]) (by omega)
    refine ⟨h2,by simp [initAll, e1, e2],?_⟩
    rwa [Nat.add_right_comm,Nat.add_assoc] at r2

theorem lSort_runs (hc : IsCmp cmp) (hr : Rings h A L) (hst : st.Fits A L) (hl : l ∈ A) (hf : (L l).length < f) :
    ∃ h' L' j, lSort cmp st h l f = lMove h' l (st.arr j) ∧ Sorting st A L' h' ∧ j < arrayLength ∧
      L' (st.arr j) = MergeRuns.sort (leBy cmp) 47 (L l) ∧ L' l = [] ∧ ∀ c ∈ A, c ≠ l → L' c = L c := by
  classical
  obtain ⟨L₀,hL₀⟩ : ∃ L₀ : ℕ → List ℕ, L₀ = fun c => if c ∈ A then L c else [] := ⟨_,rfl⟩
  have hA : ∀ a ∈ A, L₀ a = L a := fun a ha => by rw [hL₀]; exact if_pos ha
  have harr : ∀ j < arrayLength, st.arr j ∉ A := fun j hj ha => (hst.arr j hj).off _ ha List.mem_cons_self
  have hnil : ∀ j < arrayLength, L₀ (st.arr j) = [] := fun j hj => by rw [hL₀]; exact if_neg (harr j hj)
  have hheads : A ∪ st.heads 0 = A := by simp [Stack.heads]
  obtain ⟨h1,e1,r1⟩ := initAll_spec (i := 0) (n := arrayLength) hst hnil hA (by rw [hheads]; exact hr.congr hA) le_rfl
  rw [Nat.zero_add] at r1
  have hs1 : Sorting st A L₀ h1 := by
    refine ⟨r1,⟨hst.mlist.pos,?_⟩,hst.inj,harr⟩
    rintro c (hcA | ⟨j,hj,rfl⟩)
    · rw [hA c hcA]
      exact hst.mlist.off c hcA
    · rw [hnil j hj,List.mem_singleton]
      exact (hst.ne j hj).symm
  have hslots : slots st L₀ 0 arrayLength = List.replicate arrayLength [] := by
    rw [slots,List.map_congr_left (g := fun _ => ([] : List ℕ)) fun j hj => hnil j (by simpa [List.mem_range'_1] using hj)]
    simp
  obtain ⟨h2,L2,e2,hs2,hl2,hslots2,hfr2⟩ := sortLoop_spec (f := f) hc hs1 hl hslots (by rwa [hA l hl])
  rw [hA l hl] at hslots2
  have hperm := insertAll_spec (r := leBy cmp) (L l) replicate_ne
  have hslots3 : slots st L2 0 arrayLength = L2 (st.arr 0) :: slots st L2 1 47 := slots_succ
  obtain ⟨h3,L3,j,e3,hs3,hj,hg,hfr3⟩ := gatherRuns_spec (m := 0) (i := 1) (n := 47) (f := f) hc hs2 (by decide) (by decide) (by
    have hlen := hperm.2.length_eq
    rw [← hslots2,hslots3] at hlen
    simp only [List.flatten_replicate_nil, List.append_nil, List.flatten_cons] at hlen
    rwa [hlen])
  have hsort : gather (leBy cmp) (L2 (st.arr 0)) (slots st L2 1 47) = MergeRuns.sort (leBy cmp) 47 (L l) := by
    rw [MergeRuns.sort,← show insertAll (leBy cmp) (L l) (List.replicate arrayLength []) =
      insertAll (leBy cmp) (L l) (List.replicate (47 + 1) []) from rfl,← hslots2,hslots3]
  rw [hsort] at hg
  refine ⟨h3,L3,j,?_,hs3,hj,hg,(hfr3 l hl).trans hl2,fun c hcA hcl => by rw [hfr3 c hcA,hfr2 c hcA hcl,hA c hcA]⟩
  have e3' : gatherRuns cmp st f h2 0 1 (arrayLength - 1) = some (h3,j) := e3
  simp [lSort, hr.layout.ne_zero hl, e1, e2, e3']

theorem lSort_spec (hc : IsCmp cmp) (hr : Rings h A L) (hst : st.Fits A L) (hl : l ∈ A) (h0 : L l ≠ []) (hf : (L l).length < f) :
    ∃ h', lSort cmp st h l f = some h' ∧ Rings h' A (update L l (MergeRuns.sort (leBy cmp) 47 (L l))) := by
  obtain ⟨h1,L1,j,e1,hs,hj,hg,-,hfr⟩ := lSort_runs (f := f) hc hr hst hl hf
  have hne : L1 (st.arr j) ≠ [] := fun hn => h0 (by
    have := (MergeRuns.sort_perm (r := leBy cmp) 47 (L l)).length_eq
    rw [← hg,hn] at this
    exact List.length_eq_zero_iff.1 this.symm)
  obtain ⟨h2,e2,r2⟩ := hs.rings.lMove (.inl hl) (hs.mem hj) (hs.ne_arr hl hj) hne
  refine ⟨h2,e1.trans e2,(r2.mono Set.subset_union_left).congr fun c hcA => ?_⟩
  by_cases hcl : c = l
  · rw [hcl,update_self,update_self,hg]
  · rw [update_of_ne hcl,update_of_ne hcl,update_of_ne (hs.ne_arr hcA hj),hfr c hcA hcl]

end Catlib.Clist

/-! # What the list calls leave behind

`l_sort` and `l_merge` sort. A list that has no nodes is the head that leads to itself: `l_move` of such a list
leaves the receiving head with a link back to the source.
-/
namespace Catlib.Clist
open Function

variable {cmp : ℕ → ℕ → ℤ} {st : Stack} {h h' : Links} {A : Set ℕ} {L : ℕ → List ℕ} {a b p fuel : ℕ} {xs zs s t : List ℕ}

/-! ## Sorting -/

/-- In the order of the comparison, equal ones next to each other. -/
def NonDecreasing (cmp : ℕ → ℕ → ℤ) (xs : List ℕ) : Prop := xs.Pairwise fun x y => cmp x y ≤ 0

theorem nonDecreasing_iff : NonDecreasing cmp xs ↔ MergeRuns.Sorted (leBy cmp) xs := by
  simp [NonDecreasing, MergeRuns.Sorted, leBy]

theorem leBy_trans (hc : IsCmp cmp) (x y z : ℕ) (h1 : leBy cmp x y) (h2 : leBy cmp y z) : leBy cmp x z := by
  simp only [leBy, decide_eq_true_eq] at *
  exact hc.trans x y z h1 h2

theorem leBy_total (hc : IsCmp cmp) (x y : ℕ) : leBy cmp x y || leBy cmp y x := by
  have := hc.swap x y
  simp only [leBy, Bool.or_eq_true, decide_eq_true_eq]
  omega

/-- `l_sort` of a list with nodes and `l_merge` of two sorted lists, not both empty, come back with the lists
linked in both directions and the same nodes in order. No other list changes. -/
theorem sort_merge_spec (hc : IsCmp cmp) (hr : Rings h A L) (hst : st.Fits A L) :
    (∀ l ∈ A, L l ≠ [] → ∀ fuel, (L l).length < fuel → ∃ h' zs, lSort cmp st h l fuel = some h' ∧
      Rings h' A (update L l zs) ∧ zs.Perm (L l) ∧ NonDecreasing cmp zs) ∧
    ∀ a ∈ A, ∀ b ∈ A, a ≠ b → NonDecreasing cmp (L a) → NonDecreasing cmp (L b) → L a ≠ [] ∨ L b ≠ [] →
      ∀ fuel, (L a).length + (L b).length < fuel → ∃ h' zs, lMerge cmp st.mlist h a b fuel = some h' ∧
        Rings h' A (update (update L b []) a zs) ∧ zs.Perm (L a ++ L b) ∧ NonDecreasing cmp zs := by
  refine ⟨fun l hl h0 fuel hf => ?_,fun a ha b hb hab hsa hsb h0 fuel hf => ?_⟩
  · obtain ⟨h',e,r⟩ := lSort_spec hc hr hst hl h0 hf
    refine ⟨h',_,e,r,MergeRuns.sort_perm 47 (L l),?_⟩
    rw [nonDecreasing_iff]
    exact MergeRuns.sort_sorted (leBy_trans hc) (leBy_total hc) (by decide) (L l)
  · obtain ⟨h',e,r⟩ := lMerge_spec hc hr ha hb hab hst.mlist h0 hf
    refine ⟨h',_,e,r,(List.merge_perm_append (leBy cmp)).trans List.perm_append_comm,?_⟩
    rw [nonDecreasing_iff] at *
    exact List.pairwise_merge (leBy_trans hc) (leBy_total hc) _ _ hsb hsa

/-- A list of three nodes, its head at 1. -/
def sampleLinks : Links where
  next x := if x = 1 then 20 else if x = 20 then 30 else if x = 30 then 10 else if x = 10 then 1 else x
  prev x := if x = 1 then 10 else if x = 10 then 30 else if x = 30 then 20 else if x = 20 then 1 else x

def sampleStack : Stack := ⟨fun i => 100 + i,99⟩

theorem sampleLinks_rings : Rings sampleLinks {1} fun _ => [20,30,10] := by
  refine ⟨⟨?_,?_,?_⟩,?_⟩
  · rintro a rfl
    decide
  · rintro a rfl b rfl hab
    exact absurd rfl hab
  · rintro a rfl
    decide
  · rintro a rfl
    simp [Ring, Seg, Adj, sampleLinks]

theorem sampleStack_fits : sampleStack.Fits {1} fun _ => [20,30,10] := by
  refine ⟨fun i _ => ⟨by simp [sampleStack],?_⟩,⟨by decide,?_⟩,fun i _ j _ he => ?_,fun i _ => ?_⟩
  · rintro a rfl
    simp [sampleStack]
    omega
  · rintro a rfl
    decide
  · exact Nat.add_left_cancel he
  · simp [sampleStack]
    omega

theorem sort_merge_spec_three : ∃ h' zs, lSort (fun x y => (x : ℤ) - y) sampleStack sampleLinks 1 4 = some h' ∧
    Rings h' {1} (update (fun _ => [20,30,10]) 1 zs) ∧ zs.Perm [20,30,10] ∧ NonDecreasing (fun x y => (x : ℤ) - y) zs :=
  (sort_merge_spec ⟨fun x y => by omega,fun x y z h1 h2 => by omega⟩ sampleLinks_rings sampleStack_fits).1 1 rfl (by simp) 4
    (by decide)

/-! ## Moving nodes around -/

theorem Ring.not_of_back (hn : h.next a = a) (hp : h.prev a ≠ a) (hd : (a :: zs).Nodup) : ¬Ring h a zs := fun hr => by
  obtain rfl := (hr.next_eq_iff hd).1 hn
  exact hp (ring_nil.1 hr).2

theorem Rings.lMove_nil (hr : Rings h A L) (ha : a ∈ A) (hb : b ∈ A) (hab : a ≠ b) (hL : L b = []) :
    ∃ h', Clist.lMove h a b = some h' ∧ h'.next a = a ∧ h'.prev a = b := by
  have hr' := hr.ring b hb
  rw [hL,ring_nil] at hr'
  refine ⟨(((((h.setNext a b).setPrev a b).setPrev b a).setNext a a).setPrev b b).setNext b b,?_,?_,?_⟩
  · simp [Clist.lMove, hr.layout.ne_zero ha, hr.layout.ne_zero hb, setNext_next, setPrev_prev, hr'.1, hr'.2, hab.symm]
  · simp [setNext_next, hab]
  · simp [setPrev_prev, hab]

/-- The calls that relink whole lists. `splice` says what the receiving list has before and behind the place. -/
inductive Call where
  | move (dst src : ℕ)
  | append (list1 list2 : ℕ)
  | splice (list : ℕ) (s t : List ℕ) (list2 : ℕ)
  | sort (l : ℕ)

namespace Call

/-- The lists of a call are two different ones, and a place is in the list it says. -/
def Legal (A : Set ℕ) (L : ℕ → List ℕ) : Call → Prop
  | move dst src => dst ∈ A ∧ src ∈ A ∧ dst ≠ src
  | append l1 l2 => l1 ∈ A ∧ l2 ∈ A ∧ l1 ≠ l2
  | splice l s t l2 => l ∈ A ∧ l2 ∈ A ∧ l ≠ l2 ∧ L l = s ++ t
  | sort l => l ∈ A

def run (cmp : ℕ → ℕ → ℤ) (st : Stack) (h : Links) (fuel : ℕ) : Call → Option Links
  | move dst src => lMove h dst src
  | append l1 l2 => lAppend h l1 l2
  | splice l s _ l2 => lSplice h ((l :: s).getLast (by simp)) l2
  | sort l => lSort cmp st h l fuel

/-- How many turns a loop of the call takes at most. -/
def turns (L : ℕ → List ℕ) : Call → ℕ
  | sort l => (L l).length + 1
  | _ => 0

/-- The lists the call should leave: all well formed, with the nodes that were moved at their place and the source empty. -/
def Good (A : Set ℕ) (L : ℕ → List ℕ) (h : Links) : Call → Prop
  | move dst src => Rings h A (update (update L src []) dst (L src))
  | append l1 l2 => Rings h A (update (update L l2 []) l1 (L l1 ++ L l2))
  | splice l s t l2 => Rings h A (update (update L l2 []) l (s ++ L l2 ++ t))
  | sort l => ∃ zs, Rings h A (update L l zs)

/-- The list whose nodes `l_move` takes, here or at the end of `l_sort`, has some. -/
def Filled (L : ℕ → List ℕ) : Call → Prop
  | move _ src => L src ≠ []
  | sort l => L l ≠ []
  | _ => True

end Call

/-- Every call comes back, and it leaves the lists as it should if and only if it is neither `l_move` from an empty
list nor `l_sort` of one. -/
theorem call_good_iff (hc : IsCmp cmp) (hr : Rings h A L) (hst : st.Fits A L) {c : Call} (hl : c.Legal A L) (hf : c.turns L ≤ fuel) :
    ∃ h', c.run cmp st h fuel = some h' ∧ (c.Good A L h' ↔ c.Filled L) := by
  cases c with
  | move dst src =>
    obtain ⟨hd,hs,hne⟩ := hl
    by_cases hsrc : L src = []
    · obtain ⟨h',e,e1,e2⟩ := hr.lMove_nil hd hs hne hsrc
      refine ⟨h',e,iff_of_false (fun hg => ?_) (not_not.2 hsrc)⟩
      exact Ring.not_of_back e1 (by rw [e2]; exact hne.symm) (hg.layout.nodup dst hd) (hg.ring dst hd)
    · obtain ⟨h',e,r⟩ := hr.lMove hd hs hne hsrc
      exact ⟨h',e,iff_of_true r hsrc⟩
  | append l1 l2 =>
    obtain ⟨h1,h2,hne⟩ := hl
    obtain ⟨h',e,r⟩ := hr.lAppend h1 h2 hne
    exact ⟨h',e,iff_of_true r trivial⟩
  | splice l s t l2 =>
    obtain ⟨h1,h2,hne,hL⟩ := hl
    obtain ⟨h',e,r⟩ := hr.lSplice h1 h2 hne hL rfl
    exact ⟨h',e,iff_of_true r trivial⟩
  | sort l =>
    have hl : l ∈ A := hl
    have hf : (L l).length < fuel := hf
    by_cases h0 : L l = []
    · obtain ⟨h1,L1,j,e1,hs,hj,hg,-⟩ := lSort_runs (f := fuel) hc hr hst hl hf
      rw [h0,(MergeRuns.sort_perm 47 []).eq_nil] at hg
      obtain ⟨h',e,e2,e3⟩ := hs.rings.lMove_nil (.inl hl) (hs.mem hj) (hs.ne_arr hl hj) hg
      refine ⟨h',e1.trans e,iff_of_false ?_ (not_not.2 h0)⟩
      rintro ⟨zs,hg⟩
      exact Ring.not_of_back e2 (by rw [e3]; exact (hs.ne_arr hl hj).symm) (hg.layout.nodup l hl) (hg.ring l hl)
    · obtain ⟨h',e,r⟩ := lSort_spec hc hr hst hl h0 hf
      exact ⟨h',e,iff_of_true ⟨_,r⟩ h0⟩

theorem call_good_iff_three : ∃ h', lSort (fun x y => (x : ℤ) - y) sampleStack sampleLinks 1 4 = some h' ∧
    (∃ zs, Rings h' {1} (update (fun _ => [20,30,10]) 1 zs)) := by
  have hc : IsCmp fun x y : ℕ => (x : ℤ) - y := ⟨fun x y => by omega,fun x y z h1 h2 => by omega⟩
  have hf : Call.turns (fun _ => [20,30,10]) (.sort 1) ≤ 4 := by decide
  obtain ⟨h',e,hg⟩ := call_good_iff hc sampleLinks_rings sampleStack_fits (c := .sort 1) rfl hf
  exact ⟨h',e,hg.2 (by simp [Call.Filled])⟩

/-- Two empty lists. -/
def emptyLinks : Links := ⟨id,id⟩

theorem emptyLinks_rings (A : Set ℕ) (h0 : 0 ∉ A) : Rings emptyLinks A fun _ => [] := by
  refine ⟨⟨fun _ _ => by simp,fun a _ b _ hab x hx hx' => hab ?_,fun a ha hm => h0 ?_⟩,fun a _ => ring_nil.2 ⟨rfl,rfl⟩⟩
  · rw [List.mem_singleton] at hx hx'
    exact hx.symm.trans hx'
  · rw [List.mem_singleton] at hm
    rwa [hm]

/-- `l_move` from an empty list. -/
theorem call_bad_move : ¬∀ (h : Links) (A : Set ℕ) (L : ℕ → List ℕ) (c : Call), Rings h A L → sampleStack.Fits A L → c.Legal A L →
    ∃ fuel h', c.run (fun x y => (x : ℤ) - y) sampleStack h fuel = some h' ∧ c.Good A L h' := by
  intro hall
  have hr := emptyLinks_rings {1,2} (by simp)
  obtain ⟨fuel,h',e,hg⟩ := hall emptyLinks {1,2} (fun _ => []) (.move 1 2) hr (by
    refine ⟨fun i _ => ⟨by simp [sampleStack],?_⟩,⟨by decide,?_⟩,fun i _ j _ he => Nat.add_left_cancel he,fun i _ => ?_⟩
    · rintro a (rfl | rfl) <;> simp [sampleStack] <;> omega
    · rintro a (rfl | rfl) <;> simp [sampleStack]
    · simp [sampleStack]
      omega) ⟨by simp,by simp,by decide⟩
  obtain ⟨h'',e',e1,e2⟩ := hr.lMove_nil (a := 1) (b := 2) (by simp) (by simp) (by decide) rfl
  obtain rfl := Option.some.inj (e.symm.trans e')
  exact Ring.not_of_back e1 (by rw [e2]; decide) (hg.layout.nodup 1 (by simp)) (hg.ring 1 (by simp))

end Catlib.Clist
