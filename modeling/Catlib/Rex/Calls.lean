import Catlib.Rex.Slots

/-! # The calls of rex_match

Which calls of `rex_match_rxn` a call makes, when the ones before them have come back. More fuel
does not change a result, and a call comes back only when all calls that it makes do.
-/
namespace Catlib.Rex

variable {ns : List RexNode} {str : List UInt8} {rec rec' : RexFun} {i j cur rep f f' : ℕ} {n rgs rge : RexNode} {a : Option ℕ}
  {aux prev : List RexAux} {fr : RexAux} {x y : RexSlots} {r r' : RexRet}

/-! ## Fuel -/

section Grows

variable (hrec : ∀ a cur rep aux x, Grows (rec a cur rep aux x) (rec' a cur rep aux x))
include hrec

theorem rexNext_grows (i : ℕ) (n : RexNode) (cur rep : ℕ) (aux : List RexAux) (x : RexSlots) :
    Grows (rexNext rec i n cur rep aux x) (rexNext rec' i n cur rep aux x) := by
  refine Grows.bind (Grows.ite (hrec _ _ _ _ _) (Grows.refl _)) fun r => Grows.ite (Grows.refl _) (Grows.ite (hrec _ _ _ _ _) (Grows.refl _))

theorem rexMatchString_grows (i : ℕ) (n : RexNode) (cur rep : ℕ) (aux : List RexAux) (x : RexSlots) :
    Grows (rexMatchString str rec i n cur rep aux x) (rexMatchString str rec' i n cur rep aux x) :=
  Grows.ite (rexNext_grows hrec _ _ _ _ _ _) (Grows.ite (hrec _ _ _ _ _) (Grows.refl _))

theorem rexMatchClass_grows (i : ℕ) (n : RexNode) (cur rep : ℕ) (aux : List RexAux) (x : RexSlots) :
    Grows (rexMatchClass str rec i n cur rep aux x) (rexMatchClass str rec' i n cur rep aux x) :=
  Grows.ite (rexNext_grows hrec _ _ _ _ _ _) (Grows.ite (hrec _ _ _ _ _) (Grows.refl _))

theorem rexMatchChoice_grows (n : RexNode) (cur rep : ℕ) (aux : List RexAux) (x : RexSlots) :
    Grows (rexMatchChoice rec n cur rep aux x) (rexMatchChoice rec' n cur rep aux x) :=
  Grows.ite (Grows.refl _) (Grows.bind (hrec _ _ _ _ _) fun _ => Grows.ite (Grows.refl _) (hrec _ _ _ _ _))

theorem rexMatchGroupS_grows (n : RexNode) (cur rep : ℕ) (aux : List RexAux) (x : RexSlots) :
    Grows (rexMatchGroupS ns rec n cur rep aux x) (rexMatchGroupS ns rec' n cur rep aux x) := by
  refine Grows.bind (hrec _ _ _ _ _) fun r => Grows.ite ?_ (Grows.refl _)
  exact Grows.bind (Grows.refl _) fun o => Grows.bind (Grows.refl _) fun rge => Grows.bind (hrec _ _ _ _ _) fun q => Grows.refl _

theorem rexGroupRep_grows (n : RexNode) (cur : ℕ) (fr : RexAux) (prev : List RexAux) (x : RexSlots) :
    Grows (rexGroupRep ns rec n cur fr prev x) (rexGroupRep ns rec' n cur fr prev x) := by
  refine Grows.ite (Grows.bind (Grows.refl _) fun o => Grows.bind (Grows.refl _) fun rgs => ?_) (Grows.refl _)
  exact Grows.bind (rexMatchGroupS_grows hrec _ _ _ _ _) fun r => Grows.refl _

theorem rexMatchGroupE_grows (n : RexNode) (cur : ℕ) (fr : RexAux) (prev : List RexAux) (x : RexSlots) :
    Grows (rexMatchGroupE ns rec n cur fr prev x) (rexMatchGroupE ns rec' n cur fr prev x) := by
  refine Grows.bind (rexGroupRep_grows hrec _ _ _ _ _) fun r => Grows.ite (Grows.refl _) (Grows.ite ?_ (Grows.refl _))
  exact Grows.bind (hrec _ _ _ _ _) fun q => Grows.refl _

end Grows

theorem rexMatchRxn_grows_succ (f : ℕ) (a : Option ℕ) (cur rep : ℕ) (aux : List RexAux) (x : RexSlots) :
    Grows (rexMatchRxn ns str f a cur rep aux x) (rexMatchRxn ns str (f + 1) a cur rep aux x) := by
  induction f generalizing a cur rep aux x with
  | zero => exact fun _ h => by cases h
  | succ f ih =>
    cases a with
    | none => exact Grows.refl _
    | some i =>
      refine Grows.bind (Grows.refl _) fun n => ?_
      cases aux with
      | nil => exact Grows.refl _
      | cons fr prev =>
        cases n.type
        case string => exact rexMatchString_grows ih _ _ _ _ _ _
        case cls => exact rexMatchClass_grows ih _ _ _ _ _ _
        case choice => exact rexMatchChoice_grows ih _ _ _ _ _
        case groupS => exact rexMatchGroupS_grows ih _ _ _ _ _
        case groupE => exact rexMatchGroupE_grows ih _ _ _ _ _
        case banchor => exact Grows.ite (ih _ _ _ _ _) (Grows.refl _)
        case eanchor => exact Grows.ite (ih _ _ _ _ _) (Grows.refl _)

theorem rexMatchRxn_grows (h : f ≤ f') (a : Option ℕ) (cur rep : ℕ) (aux : List RexAux) (x : RexSlots) :
    Grows (rexMatchRxn ns str f a cur rep aux x) (rexMatchRxn ns str f' a cur rep aux x) := by
  induction h with
  | refl => exact Grows.refl _
  | step _ ih => exact fun r hr => rexMatchRxn_grows_succ _ _ _ _ _ _ r (ih r hr)

/-! ## What a call does -/

/-- The position behind a string or a class, if it comes next. -/
def behind (str : List UInt8) (n : RexNode) (cur : ℕ) : Option ℕ :=
  if n.type = .string then if hasStr str n cur then some (cur + n.str.length) else none
  else if hasClass str n cur then some (cur + 1) else none

variable {p q : ℕ}

section Elem

variable (hn : ns[i]? = some n) (ht : n.type = .string ∨ n.type = .cls)
include hn ht

theorem rexMatchRxn_elem (hp : behind str n cur = some p) : rexMatchRxn ns str (f + 1) (some i) cur rep (fr :: prev) x =
    rexNext (rexMatchRxn ns str f) i n p (rep + 1) (fr :: prev) x := by
  simp only [rexMatchRxn, hn, Option.bind_eq_bind, Option.bind_some]
  unfold behind at hp
  rcases ht with ht | ht <;> simp only [ht, reduceCtorEq, if_true, if_false, Option.ite_none_right_eq_some, Option.some.injEq] at hp ⊢ <;>
    obtain ⟨hp,rfl⟩ := hp
  · exact if_pos hp
  · exact if_pos hp

theorem rexMatchRxn_misfit (hp : behind str n cur = none) : rexMatchRxn ns str (f + 1) (some i) cur rep (fr :: prev) x =
    if n.repmin = 0 ∧ rep = 0 then rexMatchRxn ns str f n.next cur 0 (fr :: prev) x else some ⟨.nomatch,fr :: prev,x⟩ := by
  simp only [rexMatchRxn, hn, Option.bind_eq_bind, Option.bind_some]
  unfold behind at hp
  rcases ht with ht | ht <;> simp only [ht, reduceCtorEq, if_true, if_false, ite_eq_right_iff, imp_false] at hp ⊢
  · exact if_neg hp
  · exact if_neg hp

end Elem

theorem rexMatchRxn_anchor (hn : ns[i]? = some n) (ht : n.type = .banchor ∨ n.type = .eanchor) (ha : Anchored str n cur) :
    rexMatchRxn ns str (f + 1) (some i) cur rep (fr :: prev) x = rexMatchRxn ns str f n.next cur 0 (fr :: prev) x := by
  simp only [rexMatchRxn, hn, Option.bind_eq_bind, Option.bind_some]
  rcases ht with ht | ht <;> simp only [ht]
  · exact if_pos (ha.1 ht)
  · exact if_pos (ha.2 ht)

theorem rexMatchRxn_unanchored (hn : ns[i]? = some n) (ht : n.type = .banchor ∨ n.type = .eanchor) (ha : ¬Anchored str n cur) :
    rexMatchRxn ns str (f + 1) (some i) cur rep (fr :: prev) x = some ⟨.nomatch,fr :: prev,x⟩ := by
  simp only [rexMatchRxn, hn, Option.bind_eq_bind, Option.bind_some]
  rcases ht with ht | ht <;> simp only [ht]
  · exact if_neg fun hc => ha ⟨fun _ => hc,fun h => by cases ht.symm.trans h⟩
  · exact if_neg fun hc => ha ⟨fun h => (by cases ht.symm.trans h),fun _ => hc⟩

theorem rexMatchRxn_choice (hn : ns[i]? = some n) (ht : n.type = .choice) :
    rexMatchRxn ns str (f + 1) (some i) cur 0 (fr :: prev) x =
      (rexMatchRxn ns str f n.opt1 cur 0 (fr :: prev) x).bind fun r =>
        if r.rv ≠ .nomatch then some r else rexMatchRxn ns str f n.opt2 cur 0 r.aux r.slots := by
  simp only [rexMatchRxn, hn, Option.bind_eq_bind, Option.bind_some, ht]
  rfl

section Group

variable (hg : Group ns i j rgs rge)
include hg

theorem rexMatchRxn_groupS : rexMatchRxn ns str (f + 1) (some i) cur 0 (fr :: prev) x =
    (rexMatchRxn ns str f rgs.next cur 0 (⟨cur,1⟩ :: fr :: prev) x).bind fun r =>
      if r.rv = .nomatch ∧ rgs.repmin = 0 then
        (rexMatchRxn ns str f rge.next cur 0 (fr :: prev) (r.slots.record rgs.num cur 0)).map fun q =>
          if q.rv ≠ .matched ∧ r.slots.free rgs.num then { q with slots := { q.slots with vain := rgs.num :: q.slots.vain } } else q
      else some { r with aux := fr :: prev } := by
  simp only [rexMatchRxn, hg.start, Option.bind_eq_bind, Option.bind_some, hg.groupS, rexMatchGroupS, if_true, setGrep_cons, Nat.zero_add,
    hg.forth, hg.stop, and_true]
  cases hr : rexMatchRxn ns str f rgs.next cur 0 (⟨cur,1⟩ :: fr :: prev) x with
  | none => rfl
  | some r =>
    have haux : r.aux = ⟨cur,1⟩ :: fr :: prev := (rexMatchRxn_aux f).fresh hr
    simp only [Option.bind_some, haux, List.tail_cons]
    split
    · rw [Option.map_eq_bind]
      refine congrArg _ (funext fun q => ?_)
      exact (apply_ite some _ _ _).symm
    · rfl

theorem rexGroupRep_eq (hpos : 0 < fr.grep) : rexGroupRep ns (rexMatchRxn ns str f) rge cur fr prev x =
    if rge.repmax = rexWildcard ∨ fr.grep < rge.repmax then
      (rexMatchRxn ns str f rgs.next cur 0 ({ fr with grep := fr.grep + 1 } :: prev) x).map fun r => { r with aux := fr :: prev }
    else some ⟨.nomatch,fr :: prev,x⟩ := by
  unfold rexGroupRep
  split
  · simp only [hg.back, hg.start, Option.bind_eq_bind, Option.bind_some, rexMatchGroupS, if_neg hpos.ne', setGrep_cons]
    cases hr : rexMatchRxn ns str f rgs.next cur 0 ({ fr with grep := fr.grep + 1 } :: prev) x with
    | none => rfl
    | some r =>
      have haux : r.aux = { fr with grep := fr.grep + 1 } :: prev := (rexMatchRxn_aux f).fresh hr
      simp [haux, hpos.ne']
  · rfl

theorem rexMatchRxn_groupE : rexMatchRxn ns str (f + 1) (some j) cur rep (fr :: prev) x =
    (rexGroupRep ns (rexMatchRxn ns str f) rge cur fr prev x).bind fun r =>
      if r.rv ≠ .nomatch then some r
      else if fr.grep ≥ rge.repmin then
        (rexMatchRxn ns str f rge.next cur 0 prev r.slots).map fun q =>
          ⟨q.rv,fr :: prev,if q.rv = .matched then q.slots.record rge.num fr.gstart (cur - fr.gstart) else q.slots⟩
      else some r := by
  simp only [rexMatchRxn, hg.stop, Option.bind_eq_bind, Option.bind_some, hg.groupE, rexMatchGroupE]
  cases hr : rexGroupRep ns (rexMatchRxn ns str f) rge cur fr prev x with
  | none => rfl
  | some r =>
    have haux := rexGroupRep_aux (rexMatchRxn_aux f) hr
    simp only [Option.bind_some, haux, List.tail_cons, List.take_succ_cons, List.take_zero]
    split
    · rfl
    split
    · cases hq : rexMatchRxn ns str f rge.next cur 0 prev r.slots with
      | none => rfl
      | some q =>
        have hq' : q.aux = prev := (rexMatchRxn_aux f).fresh hq
        simp only [Option.bind_some, Option.map_some, hq', List.singleton_append]
        rfl
    · rfl

end Group

/-! ## Calls -/

/-- A call of `rex_match_rxn`. -/
structure RexCall where
  rxn : Option ℕ
  cur : ℕ
  rep : ℕ
  aux : List RexAux
  slots : RexSlots

def RexCall.run (ns : List RexNode) (str : List UInt8) (f : ℕ) (c : RexCall) : Option RexRet :=
  rexMatchRxn ns str f c.rxn c.cur c.rep c.aux c.slots

/-- The call comes back without a match, with the slots `y`. -/
def Fails (ns : List RexNode) (str : List UInt8) (c : RexCall) (y : RexSlots) : Prop := ∃ f, c.run ns str f = some ⟨.nomatch,c.aux,y⟩

/-- A call is made only on a condition, and does not match. -/
def Tried (ns : List RexNode) (str : List UInt8) (p : Prop) (c : RexCall) (y : RexSlots) : Prop :=
  p ∧ Fails ns str c y ∨ ¬p ∧ y = c.slots

/-- The calls that a call makes. What comes after another call is made only when that one comes back without a match. -/
inductive Calls (ns : List RexNode) (str : List UInt8) : RexCall → RexCall → Prop
  | again {i cur p rep : ℕ} {aux : List RexAux} {x : RexSlots} {n : RexNode} (hn : ns[i]? = some n)
      (ht : n.type = .string ∨ n.type = .cls) (hp : behind str n cur = some p) (hr : n.repmax = rexWildcard ∨ rep + 1 < n.repmax) :
      Calls ns str ⟨some i,cur,rep,aux,x⟩ ⟨some i,p,rep + 1,aux,x⟩
  | next {i cur p rep : ℕ} {aux : List RexAux} {x y : RexSlots} {n : RexNode} (hn : ns[i]? = some n)
      (ht : n.type = .string ∨ n.type = .cls) (hp : behind str n cur = some p) (hr : rep + 1 ≥ n.repmin)
      (hy : Tried ns str (n.repmax = rexWildcard ∨ rep + 1 < n.repmax) ⟨some i,p,rep + 1,aux,x⟩ y) :
      Calls ns str ⟨some i,cur,rep,aux,x⟩ ⟨n.next,p,0,aux,y⟩
  | none {i cur : ℕ} {aux : List RexAux} {x : RexSlots} {n : RexNode} (hn : ns[i]? = some n)
      (ht : n.type = .string ∨ n.type = .cls) (hp : behind str n cur = none) (hr : n.repmin = 0) :
      Calls ns str ⟨some i,cur,0,aux,x⟩ ⟨n.next,cur,0,aux,x⟩
  | anchor {i cur rep : ℕ} {aux : List RexAux} {x : RexSlots} {n : RexNode} (hn : ns[i]? = some n)
      (ht : n.type = .banchor ∨ n.type = .eanchor) (ha : Anchored str n cur) :
      Calls ns str ⟨some i,cur,rep,aux,x⟩ ⟨n.next,cur,0,aux,x⟩
  | opt1 {i cur : ℕ} {aux : List RexAux} {x : RexSlots} {n : RexNode} (hn : ns[i]? = some n) (ht : n.type = .choice) :
      Calls ns str ⟨some i,cur,0,aux,x⟩ ⟨n.opt1,cur,0,aux,x⟩
  | opt2 {i cur : ℕ} {aux : List RexAux} {x y : RexSlots} {n : RexNode} (hn : ns[i]? = some n) (ht : n.type = .choice)
      (hy : Fails ns str ⟨n.opt1,cur,0,aux,x⟩ y) : Calls ns str ⟨some i,cur,0,aux,x⟩ ⟨n.opt2,cur,0,aux,y⟩
  | body {i j cur : ℕ} {aux : List RexAux} {x : RexSlots} {rgs rge : RexNode} (hg : Group ns i j rgs rge) :
      Calls ns str ⟨some i,cur,0,aux,x⟩ ⟨rgs.next,cur,0,⟨cur,1⟩ :: aux,x⟩
  | skip {i j cur : ℕ} {aux : List RexAux} {x y : RexSlots} {rgs rge : RexNode} (hg : Group ns i j rgs rge) (hr : rgs.repmin = 0)
      (hy : Fails ns str ⟨rgs.next,cur,0,⟨cur,1⟩ :: aux,x⟩ y) :
      Calls ns str ⟨some i,cur,0,aux,x⟩ ⟨rge.next,cur,0,aux,y.record rgs.num cur 0⟩
  | more {i j cur rep : ℕ} {fr : RexAux} {prev : List RexAux} {x : RexSlots} {rgs rge : RexNode} (hg : Group ns i j rgs rge)
      (hpos : 0 < fr.grep) (hr : rge.repmax = rexWildcard ∨ fr.grep < rge.repmax) :
      Calls ns str ⟨some j,cur,rep,fr :: prev,x⟩ ⟨rgs.next,cur,0,{ fr with grep := fr.grep + 1 } :: prev,x⟩
  | leave {i j cur rep : ℕ} {fr : RexAux} {prev : List RexAux} {x y : RexSlots} {rgs rge : RexNode} (hg : Group ns i j rgs rge)
      (hpos : 0 < fr.grep) (hr : fr.grep ≥ rge.repmin)
      (hy : Tried ns str (rge.repmax = rexWildcard ∨ fr.grep < rge.repmax) ⟨rgs.next,cur,0,{ fr with grep := fr.grep + 1 } :: prev,x⟩ y) :
      Calls ns str ⟨some j,cur,rep,fr :: prev,x⟩ ⟨rge.next,cur,0,prev,y⟩

variable {c c' d : RexCall}

theorem RexCall.run_grows (h : f ≤ f') : Grows (c.run ns str f) (c.run ns str f') := rexMatchRxn_grows h _ _ _ _ _

theorem Fails.agree (h : Fails ns str c y) (hr : c.run ns str f = some r) : r = ⟨.nomatch,c.aux,y⟩ := by
  obtain ⟨f',hf⟩ := h
  exact Grows.agree (fun k m hkm => c.run_grows hkm) hr hf

theorem run_cons (h : c.run ns str f = some r) (hc : c.rxn = some i) : ∃ fr prev, c.aux = fr :: prev := by
  cases f with
  | zero => cases h
  | succ f =>
    rw [RexCall.run,hc] at h
    obtain ⟨-,fr,prev,-,haux,-⟩ := rexMatchRxn_some h
    exact ⟨fr,prev,haux⟩

theorem Tried.agree {b : Prop} [Decidable b] (h : Tried ns str b c y)
    (hr : (if b then c.run ns str f else some ⟨.nomatch,c.aux,c.slots⟩) = some r) : r = ⟨.nomatch,c.aux,y⟩ := by
  rcases h with ⟨hb,h⟩ | ⟨hb,rfl⟩
  · rw [if_pos hb] at hr
    exact h.agree hr
  · rw [if_neg hb] at hr
    exact (Option.some.inj hr).symm

theorem Calls.run (h : Calls ns str c d) (hr : c.run ns str (f + 1) = some r) : ∃ s, d.run ns str f = some s := by
  cases h with
  | again hn ht hp hmax =>
    obtain ⟨fr,prev,rfl⟩ := run_cons hr rfl
    rw [RexCall.run,rexMatchRxn_elem hn ht hp,rexNext,Option.bind_eq_bind,Option.bind_eq_some_iff] at hr
    obtain ⟨s,hs,-⟩ := hr
    exact ⟨s,(if_pos hmax).symm.trans hs⟩
  | next hn ht hp hmin hy =>
    obtain ⟨fr,prev,rfl⟩ := run_cons hr rfl
    rw [RexCall.run,rexMatchRxn_elem hn ht hp,rexNext,Option.bind_eq_bind,Option.bind_eq_some_iff] at hr
    obtain ⟨s,hs,hr⟩ := hr
    obtain rfl := hy.agree hs
    rw [if_neg (not_not.2 rfl),if_pos hmin] at hr
    exact ⟨r,hr⟩
  | none hn ht hp hmin =>
    obtain ⟨fr,prev,rfl⟩ := run_cons hr rfl
    rw [RexCall.run,rexMatchRxn_misfit hn ht hp,if_pos ⟨hmin,rfl⟩] at hr
    exact ⟨r,hr⟩
  | anchor hn ht ha =>
    obtain ⟨fr,prev,rfl⟩ := run_cons hr rfl
    rw [RexCall.run,rexMatchRxn_anchor hn ht ha] at hr
    exact ⟨r,hr⟩
  | opt1 hn ht =>
    obtain ⟨fr,prev,rfl⟩ := run_cons hr rfl
    rw [RexCall.run,rexMatchRxn_choice hn ht,Option.bind_eq_some_iff] at hr
    obtain ⟨s,hs,-⟩ := hr
    exact ⟨s,hs⟩
  | opt2 hn ht hy =>
    obtain ⟨fr,prev,rfl⟩ := run_cons hr rfl
    rw [RexCall.run,rexMatchRxn_choice hn ht,Option.bind_eq_some_iff] at hr
    obtain ⟨s,hs,hr⟩ := hr
    obtain rfl := hy.agree hs
    rw [if_neg (not_not.2 rfl)] at hr
    exact ⟨r,hr⟩
  | body hg =>
    obtain ⟨fr,prev,rfl⟩ := run_cons hr rfl
    rw [RexCall.run,rexMatchRxn_groupS hg,Option.bind_eq_some_iff] at hr
    obtain ⟨s,hs,-⟩ := hr
    exact ⟨s,hs⟩
  | skip hg hmin hy =>
    obtain ⟨fr,prev,rfl⟩ := run_cons hr rfl
    rw [RexCall.run,rexMatchRxn_groupS hg,Option.bind_eq_some_iff] at hr
    obtain ⟨s,hs,hr⟩ := hr
    obtain rfl := hy.agree hs
    rw [if_pos ⟨rfl,hmin⟩,Option.map_eq_some_iff] at hr
    obtain ⟨q,hq,-⟩ := hr
    exact ⟨q,hq⟩
  | more hg hpos hmax =>
    rw [RexCall.run,rexMatchRxn_groupE hg,Option.bind_eq_some_iff] at hr
    obtain ⟨s,hs,-⟩ := hr
    rw [rexGroupRep_eq hg hpos,if_pos hmax,Option.map_eq_some_iff] at hs
    obtain ⟨q,hq,-⟩ := hs
    exact ⟨q,hq⟩
  | @leave i j cur rep fr prev x y rgs rge hg hpos hmin hy =>
    rw [RexCall.run,rexMatchRxn_groupE hg,Option.bind_eq_some_iff] at hr
    obtain ⟨s,hs,hr⟩ := hr
    have hs' : s.rv = .nomatch ∧ s.slots = y := by
      rw [rexGroupRep_eq hg hpos] at hs
      rcases hy with ⟨hmax,hy⟩ | ⟨hmax,rfl⟩
      · rw [if_pos hmax,Option.map_eq_some_iff] at hs
        obtain ⟨q,hq,rfl⟩ := hs
        obtain rfl := hy.agree hq
        exact ⟨rfl,rfl⟩
      · rw [if_neg hmax] at hs
        cases hs
        exact ⟨rfl,rfl⟩
    rw [if_neg (not_not.2 hs'.1),if_pos hmin,hs'.2,Option.map_eq_some_iff] at hr
    obtain ⟨q,hq,-⟩ := hr
    exact ⟨q,hq⟩

theorem Calls.inv (h : Calls ns str ⟨some i,cur,rep,aux,x⟩ d) (hn : ns[i]? = some n) :
    match n.type with
    | .string | .cls => (∃ p, behind str n cur = some p ∧ d = ⟨some i,p,rep + 1,aux,x⟩) ∨ ∃ q y, d = ⟨n.next,q,0,aux,y⟩
    | .banchor | .eanchor => ∃ y, d = ⟨n.next,cur,0,aux,y⟩
    | .choice => ∃ y, d = ⟨n.opt1,cur,0,aux,y⟩ ∨ d = ⟨n.opt2,cur,0,aux,y⟩
    | .groupS => ∃ j rge y, Group ns i j n rge ∧ (d = ⟨n.next,cur,0,⟨cur,1⟩ :: aux,y⟩ ∨ d = ⟨rge.next,cur,0,aux,y⟩)
    | .groupE => ∃ i' rgs fr prev y, Group ns i' i rgs n ∧ aux = fr :: prev ∧ 0 < fr.grep ∧
        ((n.repmax = rexWildcard ∨ fr.grep < n.repmax) ∧ d = ⟨rgs.next,cur,0,{ fr with grep := fr.grep + 1 } :: prev,y⟩ ∨
          d = ⟨n.next,cur,0,prev,y⟩) := by
  cases h with
  | again hn' ht hp =>
    obtain rfl := Option.some.inj (hn.symm.trans hn')
    rcases ht with ht | ht <;> simp only [ht] <;> exact Or.inl ⟨_,hp,rfl⟩
  | next hn' ht =>
    obtain rfl := Option.some.inj (hn.symm.trans hn')
    rcases ht with ht | ht <;> simp only [ht] <;> exact Or.inr ⟨_,_,rfl⟩
  | none hn' ht =>
    obtain rfl := Option.some.inj (hn.symm.trans hn')
    rcases ht with ht | ht <;> simp only [ht] <;> exact Or.inr ⟨_,_,rfl⟩
  | anchor hn' ht =>
    obtain rfl := Option.some.inj (hn.symm.trans hn')
    rcases ht with ht | ht <;> simp only [ht] <;> exact ⟨_,rfl⟩
  | opt1 hn' ht =>
    obtain rfl := Option.some.inj (hn.symm.trans hn')
    simp only [ht]
    exact ⟨_,Or.inl rfl⟩
  | opt2 hn' ht =>
    obtain rfl := Option.some.inj (hn.symm.trans hn')
    simp only [ht]
    exact ⟨_,Or.inr rfl⟩
  | body hg =>
    obtain rfl := Option.some.inj (hn.symm.trans hg.start)
    simp only [hg.groupS]
    exact ⟨_,_,_,hg,Or.inl rfl⟩
  | skip hg =>
    obtain rfl := Option.some.inj (hn.symm.trans hg.start)
    simp only [hg.groupS]
    exact ⟨_,_,_,hg,Or.inr rfl⟩
  | more hg hpos hmax =>
    obtain rfl := Option.some.inj (hn.symm.trans hg.stop)
    simp only [hg.groupE]
    exact ⟨_,_,_,_,_,hg,rfl,hpos,Or.inl ⟨hmax,rfl⟩⟩
  | leave hg hpos =>
    obtain rfl := Option.some.inj (hn.symm.trans hg.stop)
    simp only [hg.groupE]
    exact ⟨_,_,_,_,_,hg,rfl,hpos,Or.inr rfl⟩

end Catlib.Rex
