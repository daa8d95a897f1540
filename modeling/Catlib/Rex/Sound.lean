import Catlib.Rex.Slots

/-! # What a match of rex_match means

A call of the matcher on a node matches the rest of the pattern: from the node to the end of the
group that is open, and through what follows the open groups. The frames say which groups these
are, and how often they have been repeated.
-/
namespace Catlib.Rex

variable {ns : List RexNode} {str : List UInt8} {rec : RexFun} {i j k cur rep p q f : ℕ} {n rxn rgs rge : RexNode} {a : Option ℕ} {es : List ℕ}
  {aux prev : List RexAux} {fr : RexAux} {x y z : RexSlots} {r : RexRet} {s : RexStep} {t u v : List RexStep}

/-- The frames belong to the groups that are open; `es` are the nodes at which these end. -/
inductive Frames (ns : List RexNode) : List ℕ → List RexAux → Prop
  | nil {fr : RexAux} : Frames ns [] [fr]
  | cons {es : List ℕ} {i j : ℕ} {rgs rge : RexNode} {fr : RexAux} {aux : List RexAux} (hg : Group ns i j rgs rge)
      (hb : Seg ns rgs.next (some j)) (hs : Seg ns rge.next es.head?) (hr : rgs.repmax = rexWildcard ∨ fr.grep ≤ rgs.repmax)
      (h1 : 1 ≤ fr.grep) (ha : Frames ns es aux) : Frames ns (j :: es) (fr :: aux)

/-- What follows the node at which a group ends: more repetitions of it, and what is behind it. -/
inductive After (ns : List RexNode) (str : List UInt8) : List ℕ → ℕ → List RexAux → List RexStep → Prop
  | nil {p : ℕ} {fr : RexAux} : After ns str [] p [fr] []
  | cons {es : List ℕ} {i j k p q r : ℕ} {rgs rge : RexNode} {fr : RexAux} {aux : List RexAux} {t u v : List RexStep}
      (hg : Group ns i j rgs rge) (hi : Iters ns str rgs.next j k p q t) (hb : rgs.Bounds (fr.grep + k))
      (h : Trav ns str rge.next es.head? q r u) (ha : After ns str es r aux v) :
      After ns str (j :: es) p (fr :: aux) (t ++ ⟨i,fr.gstart,q⟩ :: (u ++ v))

/-- The rest of the pattern has a traversal, which the slots agree with. -/
def Meant (ns : List RexNode) (str : List UInt8) (a : Option ℕ) (es : List ℕ) (cur : ℕ) (aux : List RexAux)
    (x y : RexSlots) : Prop :=
  ∃ q t u, Trav ns str a es.head? cur q t ∧ After ns str es q aux u ∧ Captured ns x y (t ++ u)

/-- The same behind a number of repetitions of a string or a class. -/
def MeantRep (ns : List RexNode) (str : List UInt8) (i : ℕ) (n : RexNode) (es : List ℕ) (cur rep : ℕ) (aux : List RexAux)
    (x y : RexSlots) : Prop :=
  ∃ k q r t u v, Reps str i n k cur q t ∧ n.Bounds (rep + k) ∧ Trav ns str n.next es.head? q r u ∧ After ns str es r aux v ∧
    Captured ns x y (t ++ (u ++ v))

theorem Meant.kept (h : Kept x y) (h' : Meant ns str a es cur aux y z) : Meant ns str a es cur aux x z := by
  obtain ⟨q,t,u,ht,ha,hc⟩ := h'
  exact ⟨q,t,u,ht,ha,h.captured hc⟩

theorem Group.unique {i' : ℕ} {rgs' rge' : RexNode} (h : Group ns i j rgs rge) (h' : Group ns i' j rgs' rge') :
    i = i' ∧ rgs = rgs' ∧ rge = rge' := by
  have hs := h'.stop
  rw [h.stop] at hs
  cases hs
  have hb := h'.back
  rw [h.back] at hb
  cases hb
  have hstart := h'.start
  rw [h.start] at hstart
  cases hstart
  exact ⟨rfl,rfl,rfl⟩

theorem After.inv (hg : Group ns i j rgs rge) (h : After ns str (j :: es) p (fr :: aux) t) :
    ∃ k q r t' u v, Iters ns str rgs.next j k p q t' ∧ rgs.Bounds (fr.grep + k) ∧ Trav ns str rge.next es.head? q r u ∧
      After ns str es r aux v ∧ t = t' ++ ⟨i,fr.gstart,q⟩ :: (u ++ v) := by
  cases h with
  | cons hg' hi hb h ha =>
    obtain ⟨rfl,rfl,rfl⟩ := hg.unique hg'
    exact ⟨_,_,_,_,_,_,hi,hb,h,ha,rfl⟩

/-- What the calls of a function mean. -/
structure Sound (ns : List RexNode) (str : List UInt8) (rec : RexFun) : Prop where
  keeps : KeepsAux ns rec
  failed : ∀ a cur rep aux x r, rec a cur rep aux x = some r → r.rv ≠ .matched → Kept x r.slots
  fresh : ∀ a es cur aux x r, Seg ns a es.head? → Frames ns es aux → cur ≤ str.length → rec a cur 0 aux x = some r → r.rv = .matched →
    Meant ns str a es cur aux x r.slots
  again : ∀ i n es cur rep aux x r, ns[i]? = some n → n.type = .string ∨ n.type = .cls → Seg ns n.next es.head? → Frames ns es aux →
    cur ≤ str.length → n.repmax = rexWildcard ∨ rep < n.repmax → rec (some i) cur rep aux x = some r → r.rv = .matched →
    MeantRep ns str i n es cur rep aux x r.slots

/-! ## Strings and classes -/

theorem Meant.stop (h : Meant ns str n.next es cur aux x y) (hb : n.Bounds rep) : MeantRep ns str i n es cur rep aux x y := by
  obtain ⟨q,t,u,ht,ha,hc⟩ := h
  exact ⟨0,cur,q,[],t,u,.zero,hb,ht,ha,hc⟩

theorem MeantRep.succ (hn : ns[i]? = some n) (ht : n.type = .string ∨ n.type = .cls) (hf : Fits str n cur p)
    (h : MeantRep ns str i n es p (rep + 1) aux x y) : MeantRep ns str i n es cur rep aux x y := by
  obtain ⟨k,q,r,t,u,v,hr,hb,htr,ha,hc⟩ := h
  have hplain : ∀ k, ¬Numbered ns i k := not_numbered hn (by rcases ht with ht | ht <;> rw [ht] <;> exact nofun)
  have hb' : n.Bounds (rep + (k + 1)) := by
    rwa [show rep + 1 + k = rep + (k + 1) by omega] at hb
  refine ⟨k + 1,q,r,_,u,v,.succ hf hr,hb',htr,ha,hc.congr (fun s hs => List.mem_cons_of_mem _ hs) fun s hs => ?_⟩
  rcases List.mem_cons.1 hs with rfl | hs
  · exact Or.inr hplain
  · exact Or.inl hs

theorem MeantRep.trav (hn : ns[i]? = some n) (ht : n.type = .string ∨ n.type = .cls) (h : MeantRep ns str i n es cur 0 aux x y) : Meant ns str (some i) es cur aux x y := by
  obtain ⟨k,q,r,t,u,v,hr,hb,htr,ha,hc⟩ := h
  rw [Nat.zero_add] at hb
  exact ⟨r,t ++ u,v,.elem hn ht hr hb htr,ha,by rwa [List.append_assoc]⟩

section Elem

variable (hrec : Sound ns str rec)
include hrec

theorem rexNextRep_failed (h : rexNextRep rec i n cur rep aux x = some r) (hr : r.rv ≠ .matched) : Kept x r.slots := by
  unfold rexNextRep at h
  split at h
  · exact hrec.failed _ _ _ _ _ _ h hr
  · cases h
    exact Kept.refl x

theorem rexNext_failed (h : rexNext rec i n cur rep aux x = some r) (hr : r.rv ≠ .matched) : Kept x r.slots := by
  simp only [rexNext, Option.bind_eq_bind, Option.bind_eq_some_iff] at h
  obtain ⟨r₁,h1,h⟩ := h
  split at h
  · cases h
    exact rexNextRep_failed hrec h1 hr
  · rename_i hnm
    have hk := rexNextRep_failed hrec h1 (by rw [not_not.1 hnm]; rintro ⟨⟩)
    split at h
    · exact hk.trans (hrec.failed _ _ _ _ _ _ h hr)
    · cases h
      exact hk

theorem rexNext_sound (hn : ns[i]? = some n) (ht : n.type = .string ∨ n.type = .cls) (hs : Seg ns n.next es.head?) (hf : Frames ns es aux)
    (hcur : cur ≤ str.length) (hrep : n.repmax = rexWildcard ∨ rep ≤ n.repmax) (h : rexNext rec i n cur rep aux x = some r)
    (hr : r.rv = .matched) : MeantRep ns str i n es cur rep aux x r.slots := by
  simp only [rexNext, Option.bind_eq_bind, Option.bind_eq_some_iff] at h
  obtain ⟨r₁,h1,h⟩ := h
  split at h
  · cases h
    unfold rexNextRep at h1
    split at h1
    · rename_i hlt
      exact hrec.again i n es cur rep aux x r hn ht hs hf hcur hlt h1 hr
    · cases h1
      cases hr
  · rename_i hnm
    have hnm := not_not.1 hnm
    split at h
    · rename_i hmin
      have hk := rexNextRep_failed hrec h1 (by rw [hnm]; rintro ⟨⟩)
      rw [rexNextRep_aux hn ht hrec.keeps h1] at h
      exact (Meant.kept hk (hrec.fresh _ _ _ _ _ _ hs hf hcur h hr)).stop ⟨hmin,hrep⟩
    · cases h
      rw [hnm] at hr
      cases hr

theorem elem_failed {b : Bool} {w : ℕ} (hr : r.rv ≠ .matched) (h : (if b then rexNext rec i n (cur + w) (rep + 1) aux x
    else if n.repmin = 0 ∧ rep = 0 then rec n.next cur 0 aux x else some ⟨.nomatch,aux,x⟩) = some r) : Kept x r.slots := by
  split_ifs at h
  · exact rexNext_failed hrec h hr
  · exact hrec.failed _ _ _ _ _ _ h hr
  · cases h
    exact Kept.refl x

theorem elem_sound {b : Bool} {w : ℕ} (hb : b = true → Fits str n cur (cur + w)) (hn : ns[i]? = some n)
    (ht : n.type = .string ∨ n.type = .cls) (hs : Seg ns n.next es.head?) (hf : Frames ns es aux) (hcur : cur ≤ str.length)
    (hrep : n.repmax = rexWildcard ∨ rep < n.repmax) (hr : r.rv = .matched)
    (h : (if b then rexNext rec i n (cur + w) (rep + 1) aux x
      else if n.repmin = 0 ∧ rep = 0 then rec n.next cur 0 aux x else some ⟨.nomatch,aux,x⟩) = some r) :
    MeantRep ns str i n es cur rep aux x r.slots := by
  split_ifs at h with hb' hmin
  · have hfit := hb hb'
    exact (rexNext_sound hrec hn ht hs hf hfit.le.2 (hrep.imp_right fun hlt => hlt) h hr).succ hn ht hfit
  · obtain ⟨hmin,rfl⟩ := hmin
    exact (hrec.fresh _ _ _ _ _ _ hs hf hcur h hr).stop ⟨hmin.le,hrep.imp_right fun hlt => hlt.le⟩
  · cases h
    cases hr

theorem rexMatchString_sound (hn : ns[i]? = some n) (ht : n.type = .string) (hs : Seg ns n.next es.head?) (hf : Frames ns es aux)
    (hcur : cur ≤ str.length) (hrep : n.repmax = rexWildcard ∨ rep < n.repmax)
    (h : rexMatchString str rec i n cur rep aux x = some r) (hr : r.rv = .matched) : MeantRep ns str i n es cur rep aux x r.slots := by
  refine elem_sound hrec (fun hb => ?_) hn (Or.inl ht) hs hf hcur hrep hr h
  simp only [hasStr, Bool.and_eq_true, decide_eq_true_eq] at hb
  exact .string ht (by omega) hb.2

theorem rexMatchClass_sound (hn : ns[i]? = some n) (ht : n.type = .cls) (hs : Seg ns n.next es.head?) (hf : Frames ns es aux)
    (hcur : cur ≤ str.length) (hrep : n.repmax = rexWildcard ∨ rep < n.repmax)
    (h : rexMatchClass str rec i n cur rep aux x = some r) (hr : r.rv = .matched) : MeantRep ns str i n es cur rep aux x r.slots := by
  refine elem_sound hrec (fun hb => ?_) hn (Or.inr ht) hs hf hcur hrep hr h
  unfold hasClass at hb
  split at hb
  · rename_i c hc
    exact .cls ht hc hb
  · cases hb

end Elem

/-! ## Choices and anchors -/

theorem Meant.step {b : Option ℕ} (h : Meant ns str b es cur aux x y) (hn : ns[i]? = some n) (ht : n.type ≠ .groupS)
    (hs : ∀ q t, Trav ns str b es.head? cur q t → Trav ns str a es.head? cur q (⟨i,cur,cur⟩ :: t)) : Meant ns str a es cur aux x y := by
  obtain ⟨q,t,u,ht',ha,hc⟩ := h
  refine ⟨q,_,u,hs q t ht',ha,hc.congr (fun s hs => List.mem_cons_of_mem _ hs) fun s hs => ?_⟩
  rcases List.mem_cons.1 hs with rfl | hs
  · exact Or.inr (not_numbered hn ht)
  · exact Or.inl hs

section Others

variable (hrec : Sound ns str rec)
include hrec

theorem rexMatchChoice_failed (h : rexMatchChoice rec n cur rep aux x = some r) (hr : r.rv ≠ .matched) : Kept x r.slots := by
  unfold rexMatchChoice at h
  split at h
  · cases h
  simp only [Option.bind_eq_bind, Option.bind_eq_some_iff] at h
  obtain ⟨r₁,h1,h⟩ := h
  split at h
  · cases h
    exact hrec.failed _ _ _ _ _ _ h1 hr
  · rename_i hnm
    exact (hrec.failed _ _ _ _ _ _ h1 (by rw [not_not.1 hnm]; exact nofun)).trans (hrec.failed _ _ _ _ _ _ h hr)

theorem rexMatchChoice_sound (hn : ns[i]? = some n) (ht : n.type = .choice) (h1 : Seg ns n.opt1 es.head?)
    (h2 : Seg ns n.opt2 es.head?) (hf : Frames ns es aux) (hcur : cur ≤ str.length) (h : rexMatchChoice rec n cur rep aux x = some r) (hr : r.rv = .matched) :
    Meant ns str (some i) es cur aux x r.slots := by
  have hne : n.type ≠ .groupS := by
    rw [ht]
    exact nofun
  unfold rexMatchChoice at h
  split at h
  · cases h
  simp only [Option.bind_eq_bind, Option.bind_eq_some_iff] at h
  obtain ⟨r₁,hr1,h⟩ := h
  split at h
  · cases h
    exact (hrec.fresh _ _ _ _ _ _ h1 hf hcur hr1 hr).step hn hne fun q t h => .opt1 hn ht h
  · rename_i hnm
    have hk := hrec.failed _ _ _ _ _ _ hr1 (by rw [not_not.1 hnm]; exact nofun)
    rw [hrec.keeps.fresh hr1] at h
    exact (Meant.kept hk (hrec.fresh _ _ _ _ _ _ h2 hf hcur h hr)).step hn hne fun q t h => .opt2 hn ht h

/-! ## Groups -/

theorem rexMatchGroupS_failed (h : rexMatchGroupS ns rec rgs cur rep aux x = some r) (hr : r.rv ≠ .matched) : Kept x r.slots := by
  simp only [rexMatchGroupS, Option.bind_eq_bind, Option.bind_eq_some_iff] at h
  obtain ⟨r₁,h1,h⟩ := h
  split at h
  · rename_i hskip
    have hk := hrec.failed _ _ _ _ _ _ h1 (by rw [hskip.1]; rintro ⟨⟩)
    simp only [Option.bind_eq_some_iff] at h
    obtain ⟨o,-,rge,-,q,hq,h⟩ := h
    have hqr : q.rv ≠ .matched := by
      split at h
      · cases h
        exact hr
      · cases h
        exact hr
    have hk' := kept_record (hrec.failed _ _ _ _ _ _ hq hqr)
    simp only [hqr, ne_eq, not_false_eq_true, true_and] at h
    split at h
    · rename_i hfree
      rw [if_pos hfree] at hk'
      cases h
      exact hk.trans hk'
    · rename_i hfree
      rw [if_neg hfree] at hk'
      cases h
      exact hk.trans hk'
  · cases h
    exact hrec.failed _ _ _ _ _ r₁ h1 hr

theorem body_sound (hg : Group ns i j rgs rge) (hb : Seg ns rgs.next (some j)) (hf : Frames ns (j :: es) (fr :: aux))
    (hcur : cur ≤ str.length) (h : rec rgs.next cur 0 (fr :: aux) x = some r) (hr : r.rv = .matched) :
    ∃ k q p t u v, Iters ns str rgs.next j (k + 1) cur q t ∧ rgs.Bounds (fr.grep + k) ∧ Trav ns str rge.next es.head? q p u ∧
      After ns str es p aux v ∧ Captured ns x r.slots (t ++ ⟨i,fr.gstart,q⟩ :: (u ++ v)) := by
  obtain ⟨q,t,w,ht,ha,hc⟩ := hrec.fresh _ (j :: es) _ _ _ _ hb hf hcur h hr
  obtain ⟨k,q',p,t',u,v,hi,hb',hu,hv,rfl⟩ := ha.inv hg
  exact ⟨k,q',p,t ++ t',u,v,.succ ht hi,hb',hu,hv,by rwa [List.append_assoc]⟩

theorem rexMatchGroupS_sound (hg : Group ns i j rgs rge) (hb : Seg ns rgs.next (some j)) (hs : Seg ns rge.next es.head?)
    (hf : Frames ns es aux) (hcur : cur ≤ str.length) (h : rexMatchGroupS ns rec rgs cur 0 aux x = some r)
    (hr : r.rv = .matched) : Meant ns str (some i) es cur aux x r.slots := by
  simp only [rexMatchGroupS, Option.bind_eq_bind, Option.bind_eq_some_iff, if_true, setGrep_cons, Nat.zero_add] at h
  obtain ⟨r₁,h1,h⟩ := h
  have hone : rgs.repmax = rexWildcard ∨ 1 ≤ rgs.repmax := Nat.eq_zero_or_pos rgs.repmax
  have hf' : Frames ns (j :: es) (⟨cur,1⟩ :: aux) := .cons hg hb hs hone le_rfl hf
  split at h
  · -- the group is skipped
    rename_i hskip
    have hk := hrec.failed _ _ _ _ _ _ h1 (by rw [hskip.1]; rintro ⟨⟩)
    simp only [Option.bind_eq_some_iff] at h
    obtain ⟨o,ho,m,hm,q,hq,h⟩ := h
    rw [hg.forth] at ho
    cases ho
    rw [hg.stop] at hm
    cases hm
    rw [hrec.keeps.fresh h1] at hq
    have hqr : q.rv = .matched ∧ r.slots = q.slots := by
      split at h
      · rename_i hne
        cases h
        exact absurd hr hne.1
      · cases h
        exact ⟨hr,rfl⟩
    obtain ⟨p,t,u,ht,ha,hc⟩ := hrec.fresh _ es _ _ _ _ hs hf hcur hq hqr.1
    have hc' : Captured ns r₁.slots q.slots (⟨i,cur,cur⟩ :: (t ++ u)) :=
      Captured.recordFirst (by simpa using hc) hg.numbered fun k hk => (hk.eq_num hg).symm
    rw [hqr.2]
    exact ⟨p,_,u,.group hg .zero ⟨hskip.2.1.le,hone.imp_right fun h => Nat.zero_le _⟩ ht,ha,hk.captured hc'⟩
  · cases h
    obtain ⟨k,q,p,t,u,v,hi,hb',hu,hv,hc⟩ := body_sound hrec hg hb hf' hcur h1 hr
    exact ⟨p,t ++ ⟨i,cur,q⟩ :: u,v,.group hg hi (by rwa [Nat.add_comm]) hu,hv,by simpa using hc⟩

theorem rexGroupRep_failed (h : rexGroupRep ns rec rge cur fr prev x = some r) (hr : r.rv ≠ .matched) : Kept x r.slots := by
  unfold rexGroupRep at h
  split at h
  · simp only [Option.bind_eq_bind, Option.bind_eq_some_iff] at h
    obtain ⟨o,-,m,-,q,hq,h⟩ := h
    cases h
    exact rexMatchGroupS_failed (r := q) hrec hq hr
  · cases h
    exact Kept.refl x

theorem rexGroupRep_sound (hg : Group ns i j rgs rge) (hf : Frames ns (j :: es) (fr :: prev)) (hcur : cur ≤ str.length)
    (h : rexGroupRep ns rec rge cur fr prev x = some r) (hr : r.rv = .matched) :
    Meant ns str (some j) (j :: es) cur (fr :: prev) x r.slots := by
  cases hf with
  | cons hg' hb hs hmax hmin ha =>
    obtain ⟨rfl,rfl,rfl⟩ := hg.unique hg'
    unfold rexGroupRep at h
    split at h
    · rename_i hrep
      simp only [Option.bind_eq_bind, Option.bind_eq_some_iff] at h
      obtain ⟨o,ho,m,hm,q,hq,h⟩ := h
      cases h
      rw [hg.back] at ho
      cases ho
      rw [hg.start] at hm
      cases hm
      have hne : fr.grep ≠ 0 := by omega
      simp only [rexMatchGroupS, Option.bind_eq_bind, Option.bind_eq_some_iff, setGrep_cons, hne, and_false, if_false] at hq
      obtain ⟨r₁,h1,hq⟩ := hq
      cases hq
      rw [hg.repmax] at hrep
      have hf' : Frames ns (j :: es) ({ fr with grep := fr.grep + 1 } :: prev) := .cons hg hb hs hrep (Nat.le_add_left 1 _) ha
      obtain ⟨k,q,p,t,u,v,hi,hb',hu,hv,hc⟩ := body_sound hrec hg hb hf' hcur h1 hr
      have hb'' : rgs.Bounds (fr.grep + (k + 1)) := by
        rwa [show fr.grep + (k + 1) = fr.grep + 1 + k by omega]
      exact ⟨cur,[],_,.done,.cons hg hi hb'' hu hv,hc⟩
    · cases h
      cases hr

theorem rexMatchGroupE_failed (h : rexMatchGroupE ns rec rge cur fr prev x = some r) (hr : r.rv ≠ .matched) : Kept x r.slots := by
  simp only [rexMatchGroupE, Option.bind_eq_bind, Option.bind_eq_some_iff] at h
  obtain ⟨r₁,h1,h⟩ := h
  split at h
  · cases h
    exact rexGroupRep_failed hrec h1 hr
  · rename_i hnm
    have hk := rexGroupRep_failed hrec h1 (by rw [not_not.1 hnm]; rintro ⟨⟩)
    split at h
    · simp only [Option.bind_eq_some_iff] at h
      obtain ⟨q,hq,h⟩ := h
      cases h
      have hr' : q.rv ≠ .matched := hr
      simp only [if_neg hr']
      exact hk.trans (hrec.failed _ _ _ _ _ _ hq hr')
    · cases h
      exact hk

theorem rexMatchGroupE_sound (hg : Group ns i j rgs rge) (hf : Frames ns (j :: es) (fr :: prev)) (hcur : cur ≤ str.length)
    (h : rexMatchGroupE ns rec rge cur fr prev x = some r) (hr : r.rv = .matched) :
    Meant ns str (some j) (j :: es) cur (fr :: prev) x r.slots := by
  simp only [rexMatchGroupE, Option.bind_eq_bind, Option.bind_eq_some_iff] at h
  obtain ⟨r₁,h1,h⟩ := h
  split at h
  · cases h
    exact rexGroupRep_sound hrec hg hf hcur h1 hr
  · rename_i hnm
    have hnm := not_not.1 hnm
    have hk := rexGroupRep_failed hrec h1 (by rw [hnm]; rintro ⟨⟩)
    rw [rexGroupRep_aux hrec.keeps h1] at h
    split at h
    · rename_i hmin
      simp only [Option.bind_eq_some_iff] at h
      obtain ⟨q,hq,h⟩ := h
      cases h
      have hr' : q.rv = .matched := hr
      cases hf with
      | cons hg' hb hs hmax _ ha =>
        obtain ⟨rfl,rfl,rfl⟩ := hg.unique hg'
        obtain ⟨p,t,u,ht,hu,hc⟩ := hrec.fresh _ es _ _ _ _ hs ha hcur hq hr'
        have hb' : rgs.Bounds (fr.grep + 0) := ⟨by rw [← hg.repmin]; exact hmin,hmax⟩
        simp only [if_pos hr', hg.num]
        exact ⟨cur,[],_,.done,.cons hg .zero hb' ht hu,
          (hk.captured hc).record (s := ⟨i,fr.gstart,cur⟩) hg.numbered fun k hk => (hk.eq_num hg).symm⟩
    · cases h
      rw [hnm] at hr
      cases hr

end Others

/-! ## Whole matches -/

theorem anchor_sound (hrec : Sound ns str rec) {b : Prop} [Decidable b] (hn : ns[i]? = some n)
    (ht : n.type = .banchor ∨ n.type = .eanchor) (hb : b → Anchored str n cur) (hs : Seg ns n.next es.head?)
    (hf : Frames ns es aux) (hcur : cur ≤ str.length)
    (h : (if b then rec n.next cur 0 aux x else some ⟨.nomatch,aux,x⟩) = some r) (hr : r.rv = .matched) :
    Meant ns str (some i) es cur aux x r.slots := by
  split at h
  · rename_i hb'
    have hne : n.type ≠ .groupS := by rcases ht with ht | ht <;> rw [ht] <;> exact nofun
    exact (hrec.fresh _ _ _ _ _ _ hs hf hcur h hr).step hn hne fun q t h => .anchor hn ht (hb hb') h
  · cases h
    cases hr

theorem sound_zero : Sound ns str (rexMatchRxn ns str 0) :=
  ⟨rexMatchRxn_aux 0,fun _ _ _ _ _ _ h => (nomatch h),fun _ _ _ _ _ _ _ _ _ h => (nomatch h),
    fun _ _ _ _ _ _ _ _ _ _ _ _ _ _ h => (nomatch h)⟩

theorem end_sound (ih : Sound ns str (rexMatchRxn ns str f)) (hf : Frames ns es aux) (hcur : cur ≤ str.length)
    (h : rexMatchRxn ns str (f + 1) es.head? cur 0 aux x = some r) (hr : r.rv = .matched) :
    Meant ns str es.head? es cur aux x r.slots := by
  cases hf with
  | nil =>
    cases h
    exact ⟨cur,[],[],.done,.nil,captured_refl x⟩
  | cons hg hb hs hmax hmin ha =>
    obtain ⟨n,fr,prev,hn,he,h⟩ := rexMatchRxn_some h
    cases he
    rw [hg.stop] at hn
    cases hn
    simp only [hg.groupE] at h
    exact rexMatchGroupE_sound ih hg (.cons hg hb hs hmax hmin ha) hcur h hr

theorem fresh_sound (ih : Sound ns str (rexMatchRxn ns str f)) (hs : Seg ns a es.head?) (hf : Frames ns es aux)
    (hcur : cur ≤ str.length) (h : rexMatchRxn ns str (f + 1) a cur 0 aux x = some r) (hr : r.rv = .matched) :
    Meant ns str a es cur aux x r.slots := by
  generalize he : es.head? = e at hs
  cases hs with
  | done =>
    subst he
    exact end_sound ih hf hcur h hr
  | @elem _ i n hn ht hs =>
    subst he
    obtain ⟨n',fr,prev,hn',rfl,h⟩ := rexMatchRxn_some h
    rw [hn] at hn'
    cases hn'
    have hrep : n.repmax = rexWildcard ∨ 0 < n.repmax := Nat.eq_zero_or_pos n.repmax
    refine MeantRep.trav hn ht ?_
    rcases ht with ht | ht <;> simp only [ht] at h
    · exact rexMatchString_sound ih hn ht hs hf hcur hrep h hr
    · exact rexMatchClass_sound ih hn ht hs hf hcur hrep h hr
  | @anchor _ i n hn ht hs =>
    subst he
    obtain ⟨n',fr,prev,hn',rfl,h⟩ := rexMatchRxn_some h
    rw [hn] at hn'
    cases hn'
    rcases ht with ht | ht <;> simp only [ht] at h
    · exact anchor_sound ih hn (Or.inl ht) (fun hc => ⟨fun _ => hc,fun h => by simp [ht] at h⟩) hs hf hcur h hr
    · exact anchor_sound ih hn (Or.inr ht) (fun hc => ⟨fun h => by simp [ht] at h,fun _ => hc⟩) hs hf hcur h hr
  | @choice _ i n hn ht h1 h2 =>
    subst he
    obtain ⟨n',fr,prev,hn',rfl,h⟩ := rexMatchRxn_some h
    rw [hn] at hn'
    cases hn'
    simp only [ht] at h
    exact rexMatchChoice_sound ih hn ht h1 h2 hf hcur h hr
  | @group _ i j rgs rge hg hb hs =>
    subst he
    obtain ⟨n',fr,prev,hn',rfl,h⟩ := rexMatchRxn_some h
    rw [hg.start] at hn'
    cases hn'
    simp only [hg.groupS] at h
    exact rexMatchGroupS_sound ih hg hb hs hf hcur h hr

theorem sound_succ (ih : Sound ns str (rexMatchRxn ns str f)) : Sound ns str (rexMatchRxn ns str (f + 1)) := by
  refine ⟨rexMatchRxn_aux (f + 1),?_,?_,?_⟩
  · intro a cur rep aux x r h hr
    cases a with
    | none =>
      cases h
      exact absurd rfl hr
    | some i =>
      obtain ⟨n,fr,prev,hn,rfl,h⟩ := rexMatchRxn_some h
      cases ht : n.type <;> simp only [ht] at h
      case string => exact elem_failed ih hr h
      case cls => exact elem_failed ih hr h
      case choice => exact rexMatchChoice_failed ih h hr
      case groupS => exact rexMatchGroupS_failed ih h hr
      case groupE => exact rexMatchGroupE_failed ih h hr
      case banchor =>
        split at h
        · exact ih.failed _ _ _ _ _ _ h hr
        · cases h
          exact Kept.refl x
      case eanchor =>
        split at h
        · exact ih.failed _ _ _ _ _ _ h hr
        · cases h
          exact Kept.refl x
  · exact fun _ _ _ _ _ _ hs hf hcur h hr => fresh_sound ih hs hf hcur h hr
  · intro i n es cur rep aux x r hn ht hs hf hcur hrep h hr
    obtain ⟨n',fr,prev,hn',rfl,h⟩ := rexMatchRxn_some h
    rw [hn] at hn'
    cases hn'
    rcases ht with ht | ht <;> simp only [ht] at h
    · exact rexMatchString_sound ih hn ht hs hf hcur hrep h hr
    · exact rexMatchClass_sound ih hn ht hs hf hcur hrep h hr

theorem sound_all (f : ℕ) : Sound ns str (rexMatchRxn ns str f) := by
  induction f with
  | zero => exact sound_zero
  | succ f ih => exact sound_succ ih

/-- A match from a position on, with what it wrote. -/
structure Found (ns : List RexNode) (str : List UInt8) (x y : RexSlots) : Prop where
  whole : ∃ p q t, Whole ns str p q t ∧ Captured ns x y t

theorem Found.kept (h : Kept x y) (h' : Found ns str y z) : Found ns str x z := by
  obtain ⟨p,q,t,ht,hc⟩ := h'.whole
  exact ⟨p,q,t,ht,h.captured hc⟩

theorem start_whole (hw : WellFormed ns) (hcur : cur ≤ str.length) (h : rexMatchRxn ns str f (some 0) cur 0 [fr] x = some r)
    (hr : r.rv = .matched) : ∃ q t, Whole ns str cur q t ∧ Captured ns x r.slots t := by
  obtain ⟨rgs,rge,hg,hb,hend,-⟩ := hw.pattern
  have hs : Seg ns (some 0) none := .group hg hb (by rw [hend]; exact .done)
  obtain ⟨q,t,u,ht,ha,hc⟩ := (sound_all f).fresh (some 0) [] cur [fr] x r hs .nil hcur h hr
  cases ha
  rw [List.append_nil] at hc
  exact ⟨q,t,ht,hc⟩

theorem start_found (hw : WellFormed ns) (hcur : cur ≤ str.length) (h : rexMatchRxn ns str f (some 0) cur 0 [fr] x = some r)
    (hr : r.rv = .matched) : Found ns str x r.slots :=
  ⟨cur,start_whole hw hcur h hr⟩

theorem rexSearch_found (hw : WellFormed ns) {y : RexSlots} (h : rexSearch ns str f k cur [fr] x = some (.matched,y))
    (hk : cur + k ≤ str.length) : Found ns str x y := by
  induction k generalizing cur fr x with
  | zero => cases h
  | succ k ih =>
    simp only [rexSearch, Option.bind_eq_bind, Option.bind_eq_some_iff] at h
    obtain ⟨r,hr,h⟩ := h
    have haux := (sound_all f).keeps.fresh hr
    split at h
    · obtain ⟨hrv,rfl⟩ := Prod.mk.inj (Option.some.inj h)
      exact start_found hw (by omega) hr hrv
    · rename_i hnm
      rw [haux] at h
      refine Found.kept ((sound_all f).failed _ _ _ _ _ _ hr ?_) (ih h (by omega))
      rw [not_not.1 hnm]
      exact nofun

theorem rexMatch_found (hw : WellFormed ns) {anchor : Bool} {m : List RexMatchLoc} {y : RexSlots}
    (h : rexMatch ns str anchor m f = some (.matched,y)) : Found ns str { locs := m.map fun _ => ⟨false,0,0⟩ } y := by
  simp only [rexMatch, Option.bind_eq_bind, Option.bind_eq_some_iff] at h
  obtain ⟨rgs,-,rge,-,h⟩ := h
  split at h
  · cases h
  simp only [Option.bind_eq_some_iff] at h
  obtain ⟨r,hr,h⟩ := h
  have haux := (sound_all f).keeps.fresh hr
  split at h
  · obtain ⟨hrv,rfl⟩ := Prod.mk.inj (Option.some.inj h)
    exact start_found hw (Nat.zero_le _) hr hrv
  · rename_i hnm
    obtain ⟨hnm,-,hlen⟩ : r.rv = .nomatch ∧ ¬anchor = true ∧ ¬str.length = 0 := by
      simpa only [not_or, not_not, ne_eq] using hnm
    rw [haux] at h
    refine Found.kept ((sound_all f).failed _ _ _ _ _ _ hr ?_) (rexSearch_found hw h (by omega))
    rw [hnm]
    exact nofun

/-- A match of `rex_match` on a well-formed pattern is a traversal of the pattern. -/
theorem rexMatch_sound (hw : WellFormed ns) (anchor : Bool) (m : List RexMatchLoc) {y : RexSlots}
    (h : rexMatch ns str anchor m f = some (.matched,y)) : ∃ p q t, Whole ns str p q t := by
  obtain ⟨p,q,t,ht,-⟩ := (rexMatch_found hw h).whole
  exact ⟨p,q,t,ht⟩

/-- The nodes of `(a)*`. -/
def sampleNodes : List RexNode :=
  [{ type := .groupS, next := some 2, other := some 1 },{ type := .groupE, other := some 0 },
    { type := .groupS, repmin := 0, repmax := 0, next := some 3, num := 1, other := some 4 },
    { type := .string, str := [97], next := some 4 },
    { type := .groupE, repmin := 0, repmax := 0, next := some 1, num := 1, other := some 2 }]

theorem sampleNodes_wellFormed : WellFormed sampleNodes := by
  refine ⟨_,_,⟨rfl,rfl,rfl,rfl,rfl,rfl,rfl,rfl,rfl⟩,?_,rfl,rfl,rfl⟩
  refine .group (j := 4) ⟨rfl,rfl,rfl,rfl,rfl,rfl,rfl,rfl,rfl⟩ ?_ .done
  exact .elem (i := 3) rfl (Or.inl rfl) .done

theorem rexMatch_sound_sample : ∃ p q t, Whole sampleNodes [98,97,97] p q t :=
  rexMatch_sound (f := 20) (y := ⟨[],[]⟩) sampleNodes_wellFormed false [] rfl

end Catlib.Rex
