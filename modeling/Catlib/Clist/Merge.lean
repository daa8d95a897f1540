import Catlib.Clist.Family
import Catlib.Logic.Compare

/-! # Merging two lists

`l_merge` moves the smaller of two first nodes to a list on its stack until one list is out of nodes, then what
the other one has left, and at the end the nodes back into the first list.
-/
namespace Catlib.Clist
open Function

variable {cmp : ℕ → ℕ → ℤ} {h : Links} {A : Set ℕ} {L : ℕ → List ℕ} {a b m x : ℕ} {xs ys zs t : List ℕ} {f : ℕ}

/-- Not greater. -/
def leBy (cmp : ℕ → ℕ → ℤ) (x y : ℕ) : Bool := cmp x y ≤ 0

theorem Rings.shift (hr : Rings h A L) (ha : a ∈ A) (hm : m ∈ A) (ham : a ≠ m) (hL : L a = x :: t) :
    ∃ h1 h2, Clist.lRem h x = some h1 ∧ Clist.lIns h1 (h1.prev m) x = some h2 ∧
      Rings h2 A (update (update L a t) m (L m ++ [x])) := by
  obtain ⟨h1,e1,r1,f1⟩ := hr.lRem (s := []) (t := t) ha hL
  rw [List.nil_append] at r1 f1
  have hLm : update L a t m = L m := update_of_ne ham.symm _ _
  have hp := (r1.ring m hm).prev_head
  obtain ⟨h2,e2,r2⟩ := r1.lIns (s := L m) (t := []) (p := h1.prev m) hm (by rw [hLm,List.append_nil]) (by rw [hp]; congr; exact hLm.symm) f1
  exact ⟨h1,h2,e1,e2,r2⟩

/-- Three lists of a family. -/
def three (L : ℕ → List ℕ) (a b m : ℕ) (xs ys zs : List ℕ) : ℕ → List ℕ := update (update (update L m zs) b ys) a xs

theorem three_a : three L a b m xs ys zs a = xs := update_self _ _ _

theorem three_b (hab : a ≠ b) : three L a b m xs ys zs b = ys := by
  rw [three,update_of_ne hab.symm,update_self]

theorem three_m (ham : a ≠ m) (hbm : b ≠ m) : three L a b m xs ys zs m = zs := by
  rw [three,update_of_ne ham.symm,update_of_ne hbm.symm,update_self]

/-- The two lists of a merge hold the rest of what the third one will hold. -/
def Merging (cmp : ℕ → ℕ → ℤ) (L : ℕ → List ℕ) (A : Set ℕ) (a b m : ℕ) (out : List ℕ) (k : ℕ) (h : Links) : Prop :=
  ∃ xs ys zs, Rings h A (three L a b m xs ys zs) ∧ zs ++ ys.merge xs (leBy cmp) = out ∧ xs.length + ys.length = k

section
variable (hab : a ≠ b) (ham : a ≠ m) (hbm : b ≠ m) (ha : a ∈ A) (hb : b ∈ A) (hm : m ∈ A)
include hab ham hbm ha hb hm

omit hab hb in
theorem shift_a (hr : Rings h A (three L a b m (x :: xs) ys zs)) : ∃ h1 h2, lRem h x = some h1 ∧
    lIns h1 (h1.prev m) x = some h2 ∧ Rings h2 A (three L a b m xs ys (zs ++ [x])) := by
  obtain ⟨h1,h2,e1,e2,r⟩ := hr.shift ha hm ham three_a
  refine ⟨h1,h2,e1,e2,r.congr fun c _ => ?_⟩
  simp only [three, update_apply]
  grind

omit ha in
theorem shift_b (hr : Rings h A (three L a b m xs (x :: ys) zs)) : ∃ h1 h2, lRem h x = some h1 ∧
    lIns h1 (h1.prev m) x = some h2 ∧ Rings h2 A (three L a b m xs ys (zs ++ [x])) := by
  obtain ⟨h1,h2,e1,e2,r⟩ := hr.shift hb hm hbm (three_b hab)
  refine ⟨h1,h2,e1,e2,r.congr fun c _ => ?_⟩
  simp only [three, update_apply]
  grind

theorem mergeBody_spec (hc : IsCmp cmp) {out : List ℕ} {k : ℕ} (hi : Merging cmp L A a b m out k h) :
    (∃ h' j, mergeBody cmp a b m h = some (.again h') ∧ j < k ∧ Merging cmp L A a b m out j h') ∨
      ∃ h', mergeBody cmp a b m h = some (.leave h') ∧ ∃ xs ys zs, Rings h' A (three L a b m xs ys zs) ∧
        zs ++ ys.merge xs (leBy cmp) = out ∧ (xs = [] ∨ ys = []) := by
  obtain ⟨xs,ys,zs,hr,ho,rfl⟩ := hi
  have ea := hr.isempty ha
  have eb := hr.isempty hb
  rw [three_a] at ea
  rw [three_b hab] at eb
  have na := (hr.ring a ha).next_head
  have nb := (hr.ring b hb).next_head
  simp only [three_a] at na
  simp only [three_b hab] at nb
  cases xs with
  | nil => exact .inr ⟨h,by simp [mergeBody, ea, eb],[],ys,zs,hr,ho,.inl rfl⟩
  | cons x xs =>
    cases ys with
    | nil => exact .inr ⟨h,by simp [mergeBody, ea, eb],x :: xs,[],zs,hr,ho,.inr rfl⟩
    | cons y ys =>
      simp only [List.cons_append, List.head_cons] at na nb
      left
      by_cases hlt : cmp x y < 0
      · obtain ⟨h1,h2,e1,e2,r⟩ := shift_a ham hbm ha hm hr
        refine ⟨h2,_,?_,?_,xs,y :: ys,zs ++ [x],r,?_,rfl⟩
        · simp [mergeBody, ea, eb, na, nb, hlt, e1, e2]
        · simp only [List.length_cons]
          omega
        · have hle : ¬leBy cmp y x := by simpa [leBy] using (hc.swap x y).1 hlt
          rw [← ho,List.cons_merge_cons_neg _ _ _ hle]
          simp
      · obtain ⟨h1,h2,e1,e2,r⟩ := shift_b hab ham hbm hb hm hr
        refine ⟨h2,_,?_,?_,x :: xs,ys,zs ++ [y],r,?_,rfl⟩
        · simp [mergeBody, ea, eb, na, nb, hlt, e1, e2]
        · simp only [List.length_cons]
          omega
        · have hle : leBy cmp y x := by simpa [leBy] using hc.le_swap.1 (not_lt.1 hlt)
          rw [← ho,List.cons_merge_cons_pos _ _ _ hle]
          simp

end

theorem drain_spec (hr : Rings h A L) (ha : a ∈ A) (hm : m ∈ A) (ham : a ≠ m) (hf : (L a).length < f) :
    ∃ h', loop (drainBody a m) f h = some h' ∧ Rings h' A (update (update L a []) m (L m ++ L a)) := by
  refine loop_total (I := fun k h => ∃ xs zs, Rings h A (update (update L a xs) m zs) ∧ zs ++ xs = L m ++ L a ∧ xs.length = k)
    ?_ ⟨L a,L m,?_,rfl,rfl⟩ hf
  · rintro k h ⟨xs,zs,hr,ho,rfl⟩
    have hLa : update (update L a xs) m zs a = xs := by rw [update_of_ne ham,update_self]
    have ea := hr.isempty ha
    have na := (hr.ring a ha).next_head
    rw [hLa] at ea
    simp only [hLa] at na
    cases xs with
    | nil =>
      refine .inr ⟨h,by simp [drainBody, ea],?_⟩
      rw [← ho,List.append_nil]
      exact hr
    | cons x xs =>
      obtain ⟨h1,h2,e1,e2,r⟩ := hr.shift ha hm ham hLa
      refine .inl ⟨h2,xs.length,?_,by simp,xs,zs ++ [x],?_,by rw [← ho]; simp,rfl⟩
      · simp only [List.cons_append, List.head_cons] at na
        simp [drainBody, ea, na, e1, e2]
      · refine r.congr fun c _ => ?_
        simp only [update_apply]
        grind
  · simpa using hr

theorem lMerge_spec (hc : IsCmp cmp) (hr : Rings h A L) (ha : a ∈ A) (hb : b ∈ A) (hab : a ≠ b) (hm : Free A L m)
    (hne : L a ≠ [] ∨ L b ≠ []) (hf : (L a).length + (L b).length < f) :
    ∃ h', lMerge cmp m h a b f = some h' ∧
      Rings h' A (update (update L b []) a ((L b).merge (L a) (leBy cmp))) := by
  have ham : a ≠ m := fun he => hm.off a ha (he ▸ List.mem_cons_self)
  have hbm : b ≠ m := fun he => hm.off b hb (he ▸ List.mem_cons_self)
  have ha' : a ∈ insert m A := Set.mem_insert_of_mem m ha
  have hb' : b ∈ insert m A := Set.mem_insert_of_mem m hb
  have hm' : m ∈ insert m A := Set.mem_insert m A
  obtain ⟨h1,e1,r1⟩ := hr.lInit hm
  have hi : Merging cmp L (insert m A) a b m ((L b).merge (L a) (leBy cmp)) ((L a).length + (L b).length) h1 := by
    refine ⟨L a,L b,[],r1.congr fun c _ => ?_,rfl,rfl⟩
    simp only [three, update_apply]
    grind
  obtain ⟨h2,e2,xs,ys,zs,r2,ho,hout⟩ := loop_total (fun _ _ hi => mergeBody_spec hab ham hbm ha' hb' hm' hc hi) hi hf
  have hlen : xs.length + ys.length ≤ (L a).length + (L b).length := by
    have hl := congrArg List.length ho
    simp only [List.length_append, List.length_merge] at hl
    omega
  have hout0 : (L b).merge (L a) (leBy cmp) ≠ [] := fun h0 => by
    have hl := congrArg List.length h0
    simp only [List.length_merge, List.length_nil, Nat.add_eq_zero_iff, List.length_eq_zero_iff] at hl
    tauto
  have ea := r2.isempty ha'
  rw [three_a] at ea
  -- the rest of one list
  obtain ⟨h3,e3,r3⟩ : ∃ h3, loop (drainBody (if xs = [] then b else a) m) f h2 = some h3 ∧
      Rings h3 (insert m A) (three L a b m [] [] ((L b).merge (L a) (leBy cmp))) := by
    by_cases hxs : xs = []
    · subst hxs
      obtain ⟨h3,e3,r3⟩ := drain_spec (f := f) r2 hb' hm' hbm (by rw [three_b hab]; simp at hlen; omega)
      refine ⟨h3,by simpa using e3,r3.congr fun c _ => ?_⟩
      rw [three_b hab,three_m ham hbm,← ho,List.merge_right]
      simp only [three, update_apply]
      grind
    · obtain rfl : ys = [] := hout.resolve_left hxs
      obtain ⟨h3,e3,r3⟩ := drain_spec (f := f) r2 ha' hm' ham (by rw [three_a]; simp at hlen; omega)
      refine ⟨h3,by simpa [hxs] using e3,r3.congr fun c _ => ?_⟩
      rw [three_a,three_m ham hbm,← ho,List.nil_merge]
      simp only [three, update_apply]
      grind
  obtain ⟨h4,e4,r4⟩ := r3.lMove ha' hm' ham (by rwa [three_m ham hbm])
  refine ⟨h4,?_,(r4.mono (Set.subset_insert m A)).congr fun c hc => ?_⟩
  · simp only [lMerge, e1, e2, ea, e3, e4, Option.bind_eq_bind, Option.bind_some, decide_eq_true_eq]
  · have hcm : c ≠ m := fun he => hm.off c hc (he ▸ List.mem_cons_self)
    rw [three_m ham hbm]
    simp only [three, update_apply]
    grind

end Catlib.Clist

/-! # Merge sort by carrying runs

Sorted runs stand in entries that are filled like the digits of a binary number: an element that meets a full
first entry makes a run of two, and as long as the next entry is full the run is merged with it and carried on.
The last entry takes whatever comes. At the end all the runs are merged.
-/
namespace Catlib.MergeRuns

variable {α : Type*} (r : α → α → Bool)

/-- Carry the run `s` on into the entries; what is left in its own place comes first. -/
def carry : List α → List (List α) → List (List α)
  | s, [] => [s]
  | s, [] :: ts => [] :: s :: ts
  | s, (a :: t) :: ts => [] :: carry (s.merge (a :: t) r) ts

/-- Put an element into the first entry, in front of its first element or behind it. -/
def place (x : α) : List α → List α
  | [] => [x]
  | y :: t => if r y x then y :: x :: t else x :: y :: t

def insert (x : α) : List (List α) → List (List α)
  | [] => []
  | [] :: ts => [x] :: ts
  | (y :: t) :: ts => carry r (place r x (y :: t)) ts

/-- Merge the runs of the entries with the run so far. -/
def gather : List α → List (List α) → List α
  | acc, [] => acc
  | acc, [] :: ts => gather acc ts
  | acc, (a :: t) :: ts => gather (acc.merge (a :: t) r) ts

def insertAll (xs : List α) (ts : List (List α)) : List (List α) := xs.foldl (fun ts x => insert r x ts) ts

/-- Sort with `n + 1` entries. -/
def sort (n : ℕ) (xs : List α) : List α :=
  match insertAll r xs (List.replicate (n + 1) []) with
  | [] => []
  | s :: ts => gather r s ts

variable {r} {s acc : List α} {ts : List (List α)} {x : α}

/-! ## Nothing gets lost -/

theorem carry_length : (carry r s ts).length = ts.length + 1 := by
  induction ts generalizing s with
  | nil => rfl
  | cons t ts ih =>
    cases t with
    | nil => rfl
    | cons a t => simp [carry, ih]

theorem carry_perm : (carry r s ts).flatten.Perm (s ++ ts.flatten) := by
  induction ts generalizing s with
  | nil => rfl
  | cons t ts ih =>
    cases t with
    | nil => rfl
    | cons a t =>
      simp only [carry, List.flatten_cons, List.nil_append]
      refine ih.trans ?_
      rw [← List.append_assoc]
      exact (List.merge_perm_append r).append_right _

theorem place_perm (t : List α) : (place r x t).Perm (x :: t) := by
  cases t with
  | nil => rfl
  | cons y t =>
    rw [place]
    split
    · exact .swap x y t
    · rfl

theorem insert_length (hn : ts ≠ []) : (insert r x ts).length = ts.length := by
  match ts, hn with
  | [] :: ts, _ => rfl
  | (y :: t) :: ts, _ => exact carry_length

theorem insert_perm (hn : ts ≠ []) : (insert r x ts).flatten.Perm (x :: ts.flatten) := by
  match ts, hn with
  | [] :: ts, _ => rfl
  | (y :: t) :: ts, _ => exact carry_perm.trans ((place_perm (y :: t)).append_right _)

theorem gather_perm : (gather r acc ts).Perm (acc ++ ts.flatten) := by
  induction ts generalizing acc with
  | nil => simp [gather]
  | cons t ts ih =>
    cases t with
    | nil => exact ih
    | cons a t =>
      refine ih.trans ?_
      rw [List.flatten_cons,← List.append_assoc]
      exact (List.merge_perm_append r).append_right _

theorem insertAll_spec (xs : List α) (hn : ts ≠ []) :
    (insertAll r xs ts).length = ts.length ∧ (insertAll r xs ts).flatten.Perm (xs ++ ts.flatten) := by
  induction xs generalizing ts with
  | nil => exact ⟨rfl,.refl _⟩
  | cons x xs ih =>
    have hlen := insert_length (r := r) (x := x) hn
    have hne : insert r x ts ≠ [] := fun h0 => hn (List.length_eq_zero_iff.1 (by rw [← hlen,h0]; rfl))
    obtain ⟨h1,h2⟩ := ih hne
    exact ⟨h1.trans hlen,h2.trans (((insert_perm hn).append_left xs).trans List.perm_middle)⟩

theorem sort_perm (n : ℕ) (xs : List α) : (sort r n xs).Perm xs := by
  have hne : List.replicate (n + 1) ([] : List α) ≠ [] := by simp
  obtain ⟨h1,h2⟩ := insertAll_spec (r := r) xs hne
  rw [sort]
  generalize insertAll r xs (List.replicate (n + 1) []) = ts at h1 h2 ⊢
  cases ts with
  | nil => simp at h1
  | cons s ts => simpa using gather_perm.trans h2

/-! ## Everything is in order -/

/-- In order by `r`. -/
def Sorted (r : α → α → Bool) (l : List α) : Prop := l.Pairwise fun a b => r a b = true

/-- All runs are in order, and the first entry has at most one element. -/
structure Counter (r : α → α → Bool) (ts : List (List α)) : Prop where
  sorted : ∀ t ∈ ts, Sorted r t
  first : ∀ t ∈ ts.head?, t.length ≤ 1

section
variable (htrans : ∀ a b c, r a b → r b c → r a c) (htotal : ∀ a b, r a b || r b a)
include htrans htotal

theorem carry_sorted (hs : Sorted r s) (ht : ∀ t ∈ ts, Sorted r t) : ∀ t ∈ carry r s ts, Sorted r t := by
  induction ts generalizing s with
  | nil => simpa [carry] using hs
  | cons t ts ih =>
    rw [List.forall_mem_cons] at ht
    cases t with
    | nil =>
      simp only [carry, List.forall_mem_cons]
      exact ⟨.nil,hs,ht.2⟩
    | cons a t =>
      simp only [carry, List.forall_mem_cons]
      exact ⟨.nil,ih (List.pairwise_merge htrans htotal _ _ hs ht.1) ht.2⟩

omit htrans in
theorem place_sorted {t : List α} (ht : t.length ≤ 1) : Sorted r (place r x t) := by
  match t, ht with
  | [], _ => exact List.pairwise_singleton _ _
  | [y], _ =>
    have hxy := htotal x y
    rw [place]
    split
    · rename_i h
      simpa [Sorted] using h
    · rename_i h
      simpa [Sorted, h] using hxy

theorem insert_counter {t : List α} (hne : ts ≠ []) (hc : Counter r (t :: ts)) : Counter r (insert r x (t :: ts)) := by
  obtain ⟨hs,hf⟩ := hc
  rw [List.forall_mem_cons] at hs
  cases t with
  | nil =>
    refine ⟨?_,by simp [insert]⟩
    simp only [insert, List.forall_mem_cons]
    exact ⟨List.pairwise_singleton _ _,hs.2⟩
  | cons y t =>
    refine ⟨carry_sorted htrans htotal (place_sorted htotal (hf _ rfl)) hs.2,?_⟩
    match ts, hne with
    | [] :: ts, _ => simp [insert, carry]
    | (a :: u) :: ts, _ => simp [insert, carry]

theorem insertAll_counter (xs : List α) (hl : 1 < ts.length) (hc : Counter r ts) : Counter r (insertAll r xs ts) := by
  induction xs generalizing ts with
  | nil => exact hc
  | cons x xs ih =>
    match ts, hl with
    | t :: u :: ts, _ =>
      refine ih ?_ (insert_counter htrans htotal (by simp) hc)
      rw [insert_length (by simp)]
      simp

theorem gather_sorted (ha : Sorted r acc) (ht : ∀ t ∈ ts, Sorted r t) : Sorted r (gather r acc ts) := by
  induction ts generalizing acc with
  | nil => exact ha
  | cons t ts ih =>
    rw [List.forall_mem_cons] at ht
    cases t with
    | nil => exact ih ha ht.2
    | cons a t => exact ih (List.pairwise_merge htrans htotal _ _ ha ht.1) ht.2

theorem sort_sorted {n : ℕ} (hn : 0 < n) (xs : List α) : Sorted r (sort r n xs) := by
  have hc : Counter r (List.replicate (n + 1) ([] : List α)) := by
    refine ⟨fun t ht => ?_,by simp [List.replicate_succ]⟩
    rw [List.eq_of_mem_replicate ht]
    exact .nil
  have hall := insertAll_counter htrans htotal xs (by simpa using hn) hc
  rw [sort]
  generalize insertAll r xs (List.replicate (n + 1) []) = ts at hall ⊢
  cases ts with
  | nil => exact .nil
  | cons s ts =>
    have hs := hall.sorted
    rw [List.forall_mem_cons] at hs
    exact gather_sorted htrans htotal hs.1 hs.2

end

end Catlib.MergeRuns
