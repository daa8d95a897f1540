import Catlib.Rex.Calls
import Catlib.Rex.Compiled

/-! # When a call of rex_match_rxn comes back

A call comes back when all the calls do that it makes. On a pattern of `rex_init` this is the
case as long as no group without an upper bound is repeated, beyond its lower bound, behind a
repetition that consumed nothing.
-/
namespace Catlib.Rex

variable {ns : List RexNode} {str : List UInt8} {i j cur rep f f' p q : ℕ} {n rgs rge : RexNode} {a e : Option ℕ}
  {aux prev : List RexAux} {fr : RexAux} {x y : RexSlots} {r : RexRet} {c d : RexCall}

/-- The call comes back. -/
def Returns (ns : List RexNode) (str : List UInt8) (c : RexCall) : Prop := ∃ f r, c.run ns str f = some r

/-! ## Progress -/

theorem tried_returns {b : Prop} [Decidable b] (hrep : Repeats ns c.rxn c.rep) (h : b → Returns ns str c) :
    ∃ f r, (∀ f', f ≤ f' → (if b then c.run ns str f' else some ⟨.nomatch,c.aux,c.slots⟩) = some r) ∧ r.aux = c.aux ∧
      (r.rv = .nomatch → Tried ns str b c r.slots) := by
  by_cases hb : b
  · obtain ⟨f,r,hr⟩ := h hb
    have haux : r.aux = c.aux := rexMatchRxn_aux f _ _ _ _ _ _ hrep hr
    refine ⟨f,r,fun f' hf => ?_,haux,fun hnm => Or.inl ⟨hb,f,?_⟩⟩
    · rw [if_pos hb]
      exact c.run_grows hf r hr
    · rw [hr,← hnm,← haux]
  · exact ⟨0,⟨.nomatch,c.aux,c.slots⟩,fun f' _ => if_neg hb,rfl,fun _ => Or.inr ⟨hb,rfl⟩⟩

theorem returns_elem (hn : ns[i]? = some n) (ht : n.type = .string ∨ n.type = .cls)
    (h : ∀ d, Calls ns str ⟨some i,cur,rep,fr :: prev,x⟩ d → Returns ns str d) : Returns ns str ⟨some i,cur,rep,fr :: prev,x⟩ := by
  cases hp : behind str n cur with
  | none =>
    by_cases hr : n.repmin = 0 ∧ rep = 0
    · obtain ⟨hmin,rfl⟩ := hr
      obtain ⟨f,r,hr⟩ := h _ (.none hn ht hp hmin)
      exact ⟨f + 1,r,(rexMatchRxn_misfit hn ht hp).trans ((if_pos ⟨hmin,rfl⟩).trans hr)⟩
    · exact ⟨1,_,(rexMatchRxn_misfit hn ht hp).trans (if_neg hr)⟩
  | some p =>
    have hrep : Repeats ns (some i) (rep + 1) := Or.inr ⟨i,n,rfl,hn,ht⟩
    obtain ⟨f,r,hr,haux,hy⟩ := tried_returns (c := ⟨some i,p,rep + 1,fr :: prev,x⟩) hrep fun hmax => h _ (.again hn ht hp hmax)
    by_cases hnm : r.rv ≠ .nomatch
    · refine ⟨f + 1,r,(rexMatchRxn_elem hn ht hp).trans ?_⟩
      rw [rexNext,show rexNextRep _ i n p (rep + 1) (fr :: prev) x = some r from hr f le_rfl]
      exact if_pos hnm
    by_cases hmin : rep + 1 ≥ n.repmin
    · obtain ⟨f',s,hs⟩ := h _ (.next hn ht hp hmin (hy (not_not.1 hnm)))
      refine ⟨max f f' + 1,s,(rexMatchRxn_elem hn ht hp).trans ?_⟩
      rw [rexNext,show rexNextRep _ i n p (rep + 1) (fr :: prev) x = some r from hr _ (le_max_left _ _)]
      refine (if_neg hnm).trans ((if_pos hmin).trans ?_)
      rw [haux]
      exact RexCall.run_grows (c := ⟨n.next,p,0,fr :: prev,r.slots⟩) (le_max_right _ _) s hs
    · refine ⟨f + 1,r,(rexMatchRxn_elem hn ht hp).trans ?_⟩
      rw [rexNext,show rexNextRep _ i n p (rep + 1) (fr :: prev) x = some r from hr f le_rfl]
      exact (if_neg hnm).trans (if_neg hmin)

theorem returns_anchor (hn : ns[i]? = some n) (ht : n.type = .banchor ∨ n.type = .eanchor)
    (h : ∀ d, Calls ns str ⟨some i,cur,rep,fr :: prev,x⟩ d → Returns ns str d) : Returns ns str ⟨some i,cur,rep,fr :: prev,x⟩ := by
  by_cases ha : Anchored str n cur
  · obtain ⟨f,r,hr⟩ := h _ (.anchor hn ht ha)
    exact ⟨f + 1,r,(rexMatchRxn_anchor hn ht ha).trans hr⟩
  · exact ⟨1,_,rexMatchRxn_unanchored hn ht ha⟩

theorem returns_choice (hn : ns[i]? = some n) (ht : n.type = .choice)
    (h : ∀ d, Calls ns str ⟨some i,cur,0,fr :: prev,x⟩ d → Returns ns str d) : Returns ns str ⟨some i,cur,0,fr :: prev,x⟩ := by
  obtain ⟨f,r,hr⟩ := h _ (.opt1 hn ht)
  have haux : r.aux = fr :: prev := (rexMatchRxn_aux f).fresh hr
  by_cases hnm : r.rv ≠ .nomatch
  · refine ⟨f + 1,r,(rexMatchRxn_choice hn ht).trans ?_⟩
    rw [show rexMatchRxn ns str f n.opt1 cur 0 (fr :: prev) x = some r from hr]
    exact if_pos hnm
  · have hfail : Fails ns str ⟨n.opt1,cur,0,fr :: prev,x⟩ r.slots := ⟨f,by rw [hr,← not_not.1 hnm,← haux]⟩
    obtain ⟨f',s,hs⟩ := h _ (.opt2 hn ht hfail)
    refine ⟨max f f' + 1,s,(rexMatchRxn_choice hn ht).trans ?_⟩
    rw [show rexMatchRxn ns str (max f f') n.opt1 cur 0 (fr :: prev) x = some r from RexCall.run_grows (le_max_left _ _) r hr]
    refine (if_neg hnm).trans ?_
    rw [haux]
    exact RexCall.run_grows (c := ⟨n.opt2,cur,0,fr :: prev,r.slots⟩) (le_max_right _ _) s hs

section Group

variable (hg : Group ns i j rgs rge)
include hg

theorem returns_groupS (h : ∀ d, Calls ns str ⟨some i,cur,0,fr :: prev,x⟩ d → Returns ns str d) :
    Returns ns str ⟨some i,cur,0,fr :: prev,x⟩ := by
  obtain ⟨f,r,hr⟩ := h _ (.body hg)
  have haux : r.aux = ⟨cur,1⟩ :: fr :: prev := (rexMatchRxn_aux f).fresh hr
  by_cases hs : r.rv = .nomatch ∧ rgs.repmin = 0
  · have hfail : Fails ns str ⟨rgs.next,cur,0,⟨cur,1⟩ :: fr :: prev,x⟩ r.slots := ⟨f,by rw [hr,← hs.1,← haux]⟩
    obtain ⟨f',q,hq⟩ := h _ (.skip hg hs.2 hfail)
    have hbody : rexMatchRxn ns str (max f f') rgs.next cur 0 (⟨cur,1⟩ :: fr :: prev) x = some r :=
      RexCall.run_grows (le_max_left _ _) r hr
    have hrest : rexMatchRxn ns str (max f f') rge.next cur 0 (fr :: prev) (r.slots.record rgs.num cur 0) = some q :=
      RexCall.run_grows (le_max_right _ _) q hq
    refine ⟨max f f' + 1,?_⟩
    rw [RexCall.run,rexMatchRxn_groupS hg,hbody,Option.bind_some,if_pos hs,hrest]
    exact ⟨_,rfl⟩
  · have hbody : rexMatchRxn ns str f rgs.next cur 0 (⟨cur,1⟩ :: fr :: prev) x = some r := hr
    refine ⟨f + 1,?_⟩
    rw [RexCall.run,rexMatchRxn_groupS hg,hbody,Option.bind_some,if_neg hs]
    exact ⟨_,rfl⟩

theorem returns_groupE (hpos : 0 < fr.grep) (h : ∀ d, Calls ns str ⟨some j,cur,rep,fr :: prev,x⟩ d → Returns ns str d) :
    Returns ns str ⟨some j,cur,rep,fr :: prev,x⟩ := by
  obtain ⟨f,r,hr,-,hy⟩ := tried_returns (c := ⟨rgs.next,cur,0,{ fr with grep := fr.grep + 1 } :: prev,x⟩) (Or.inl rfl)
    fun hmax => h _ (.more hg hpos hmax)
  have hrep : ∀ f', f ≤ f' → rexGroupRep ns (rexMatchRxn ns str f') rge cur fr prev x = some { r with aux := fr :: prev } := by
    intro f' hf
    have hr' := hr f' hf
    rw [rexGroupRep_eq hg hpos]
    split at hr'
    · rename_i hmax
      rw [if_pos hmax]
      exact congrArg (Option.map _) hr'
    · rename_i hmax
      rw [if_neg hmax]
      obtain rfl := Option.some.inj hr'
      rfl
  by_cases hnm : r.rv ≠ .nomatch
  · refine ⟨f + 1,?_⟩
    rw [RexCall.run,rexMatchRxn_groupE hg,hrep f le_rfl,Option.bind_some,if_pos hnm]
    exact ⟨_,rfl⟩
  by_cases hmin : fr.grep ≥ rge.repmin
  · obtain ⟨f',q,hq⟩ := h _ (.leave hg hpos hmin (hy (not_not.1 hnm)))
    have hrest : rexMatchRxn ns str (max f f') rge.next cur 0 prev r.slots = some q := RexCall.run_grows (le_max_right _ _) q hq
    refine ⟨max f f' + 1,?_⟩
    rw [RexCall.run,rexMatchRxn_groupE hg,hrep _ (le_max_left _ _),Option.bind_some,if_neg hnm,if_pos hmin,hrest]
    exact ⟨_,rfl⟩
  · refine ⟨f + 1,?_⟩
    rw [RexCall.run,rexMatchRxn_groupE hg,hrep f le_rfl,Option.bind_some,if_neg hnm,if_neg hmin]
    exact ⟨_,rfl⟩

end Group

/-! ## Ways through a pattern -/

/-- The nodes from one on lead to another, or to a null pointer. -/
inductive Way (ns : List RexNode) : Option ℕ → Option ℕ → Prop
  | done {e : Option ℕ} : Way ns e e
  | null {e : Option ℕ} : Way ns none e
  | elem {e : Option ℕ} {i : ℕ} {n : RexNode} (hn : ns[i]? = some n) (ht : n.type = .string ∧ n.str ≠ [] ∨ n.type = .cls)
      (h : Way ns n.next e) : Way ns (some i) e
  | anchor {e : Option ℕ} {i : ℕ} {n : RexNode} (hn : ns[i]? = some n) (ht : n.type = .banchor ∨ n.type = .eanchor)
      (h : Way ns n.next e) : Way ns (some i) e
  | choice {e : Option ℕ} {i : ℕ} {n : RexNode} (hn : ns[i]? = some n) (ht : n.type = .choice)
      (h1 : Way ns n.opt1 e) (h2 : Way ns n.opt2 e) : Way ns (some i) e
  | group {e : Option ℕ} {i j : ℕ} {rgs rge : RexNode} (hg : Group ns i j rgs rge) (hb : Way ns rgs.next (some j))
      (h : Way ns rge.next e) : Way ns (some i) e

theorem Leads.way {b : Bool} {lo hi : ℕ} {l : Loc} (h : Leads ns b lo hi l j) : Way ns (link ns l) (some j) := by
  induction h with
  | done h =>
    rw [h]
    exact .done
  | null h =>
    rw [h]
    exact .null
  | lone h _ hn ht _ ih =>
    obtain ⟨n,hnode,rfl⟩ := node_of_core hn
    rw [link_next hnode] at ih
    rw [h]
    rcases ht with ht | ht | ht | ht
    · exact .elem hnode (Or.inl ht) ih
    · exact .elem hnode (Or.inr ht) ih
    · exact .anchor hnode (Or.inl ht) ih
    · exact .anchor hnode (Or.inr ht) ih
  | choice h _ ht _ _ _ ih1 ih2 =>
    obtain ⟨n,hn,htype,-,h1,h2,-⟩ := node_of_type ht
    rw [h]
    exact .choice hn htype (by rwa [h1]) (by rwa [h2])
  | group h _ hg _ _ ihb ih =>
    obtain ⟨rgs,rge,hg⟩ := hg
    rw [link_next hg.start] at ihb
    rw [link_next hg.stop] at ih
    rw [h]
    exact .group hg ihb ih

theorem Compiled.way (h : Compiled ns) : Way ns (some 0) none := by
  obtain ⟨rgs,rge,hg,hnext,hend,-⟩ := h.group
  exact .group hg (by rw [hnext]; exact h.list.way) (by rw [hend]; exact .done)

/-! ## Empty repetitions -/

/-- The calls that come of a call. -/
abbrev Reach (ns : List RexNode) (str : List UInt8) : RexCall → RexCall → Prop := Relation.ReflTransGen (Calls ns str)

/-- A repetition of a group without an upper bound, beyond its lower bound, that consumes nothing: its first
call and the one at the end of the group. -/
inductive Stalls (ns : List RexNode) : RexCall → RexCall → Prop
  | intro {i j p : ℕ} {fr : RexAux} {prev : List RexAux} {x y : RexSlots} {rgs rge : RexNode} (hg : Group ns i j rgs rge)
      (hmax : rge.repmax = rexWildcard) (hmin : rge.repmin ≤ fr.grep) : Stalls ns ⟨rgs.next,p,0,fr :: prev,x⟩ ⟨some j,p,0,fr :: prev,y⟩

/-- No call that comes of a call begins an empty repetition. -/
def Calm (ns : List RexNode) (str : List UInt8) (c : RexCall) : Prop := ∀ b d, Reach ns str c b → Reach ns str b d → ¬Stalls ns b d

theorem Calm.of_reach (h : Calm ns str c) (hd : Reach ns str c d) : Calm ns str d := fun _ _ hb he => h _ _ (hd.trans hb) he

theorem behind_le (h : behind str n cur = some p) : p = cur ∨ cur < p ∧ p ≤ str.length := by
  unfold behind at h
  split at h
  · simp only [Option.ite_none_right_eq_some, Option.some.injEq, hasStr, Bool.and_eq_true, decide_eq_true_eq] at h
    omega
  · simp only [Option.ite_none_right_eq_some, Option.some.injEq] at h
    obtain ⟨h,rfl⟩ := h
    unfold hasClass at h
    split at h
    · rename_i c hc
      have := (List.getElem?_eq_some_iff.1 hc).1
      omega
    · cases h

theorem behind_lt (ht : n.type = .string ∧ n.str ≠ [] ∨ n.type = .cls) (h : behind str n cur = some p) : cur < p ∧ p ≤ str.length := by
  refine (behind_le h).resolve_left ?_
  rintro rfl
  unfold behind at h
  rcases ht with ⟨ht,hne⟩ | ht
  · have := List.length_pos_iff.2 hne
    simp only [ht, if_true, Option.ite_none_right_eq_some, Option.some.injEq] at h
    omega
  · simp only [ht, reduceCtorEq, if_false, Option.ite_none_right_eq_some, Option.some.injEq] at h
    omega

theorem Calls.le (h : Calls ns str c d) : d.cur = c.cur ∨ c.cur < d.cur ∧ d.cur ≤ str.length := by
  cases h with
  | again _ _ hp => exact behind_le hp
  | next _ _ hp => exact behind_le hp
  | _ => exact Or.inl rfl

theorem Reach.le (h : Reach ns str c d) : d.cur = c.cur ∨ c.cur < d.cur ∧ d.cur ≤ str.length := by
  induction h with
  | refl => exact Or.inl rfl
  | tail _ hc ih =>
    have := hc.le
    omega

/-! ## Calls that come back -/

theorem elem_returns (hn : ns[i]? = some n) (ht : n.type = .string ∧ n.str ≠ [] ∨ n.type = .cls) {k : ℕ} (hk : str.length - cur ≤ k)
    (h : ∀ q y, Reach ns str ⟨some i,cur,rep,fr :: prev,x⟩ ⟨n.next,q,0,fr :: prev,y⟩ → Returns ns str ⟨n.next,q,0,fr :: prev,y⟩) :
    Returns ns str ⟨some i,cur,rep,fr :: prev,x⟩ := by
  have hcalls : ∀ {d}, Calls ns str ⟨some i,cur,rep,fr :: prev,x⟩ d →
      (∃ p, behind str n cur = some p ∧ d = ⟨some i,p,rep + 1,fr :: prev,x⟩) ∨ ∃ q y, d = ⟨n.next,q,0,fr :: prev,y⟩ := by
    intro d hd
    have := hd.inv hn
    rcases ht with ⟨ht,-⟩ | ht <;> simpa only [ht] using this
  induction k generalizing cur rep with
  | zero =>
    refine returns_elem hn (ht.imp_left And.left) fun d hd => ?_
    rcases hcalls hd with ⟨p,hp,-⟩ | ⟨q,y,rfl⟩
    · have := behind_lt ht hp
      omega
    · exact h q y (.single hd)
  | succ k ih =>
    refine returns_elem hn (ht.imp_left And.left) fun d hd => ?_
    rcases hcalls hd with ⟨p,hp,rfl⟩ | ⟨q,y,rfl⟩
    · have := behind_lt ht hp
      refine ih (by omega) (fun q y hr => h q y (.head hd hr)) fun {d'} hd' => ?_
      have := hd'.inv hn
      rcases ht with ⟨ht,-⟩ | ht <;> simpa only [ht] using this
    · exact h q y (.single hd)

/-- What bounds the repetitions of a group: the rest of the string and what is left of the lower bound, or what
is left of the upper bound. -/
def GroupLt (str : List UInt8) (rge : RexNode) (p : ℕ × ℕ) (q : ℕ × ℕ) : Prop :=
  if rge.repmax = rexWildcard then
    Prod.Lex (· < ·) (· < ·) (str.length - p.1,rge.repmin - p.2) (str.length - q.1,rge.repmin - q.2)
  else rge.repmax - p.2 < rge.repmax - q.2

theorem groupLt_wf (str : List UInt8) (rge : RexNode) : WellFounded (GroupLt str rge) := by
  unfold GroupLt
  split
  · exact InvImage.wf (fun p : ℕ × ℕ => (str.length - p.1,rge.repmin - p.2)) (Prod.lex ⟨_,Nat.lt_wfRel.wf⟩ ⟨_,Nat.lt_wfRel.wf⟩).wf
  · exact InvImage.wf (fun p : ℕ × ℕ => rge.repmax - p.2) Nat.lt_wfRel.wf

/-- A list of nodes comes back when the node behind it does. -/
def Passes (ns : List RexNode) (str : List UInt8) (a e : Option ℕ) : Prop :=
  ∀ cur fr prev x, Calm ns str ⟨a,cur,0,fr :: prev,x⟩ →
    (∀ q y, Reach ns str ⟨a,cur,0,fr :: prev,x⟩ ⟨e,q,0,fr :: prev,y⟩ → Returns ns str ⟨e,q,0,fr :: prev,y⟩) →
    Returns ns str ⟨a,cur,0,fr :: prev,x⟩

theorem body_returns (hg : Group ns i j rgs rge) (hb : Passes ns str rgs.next (some j)) (hpos : 0 < fr.grep)
    (hcalm : Calm ns str ⟨rgs.next,cur,0,fr :: prev,x⟩)
    (h : ∀ q y, Reach ns str ⟨rgs.next,cur,0,fr :: prev,x⟩ ⟨rge.next,q,0,prev,y⟩ → Returns ns str ⟨rge.next,q,0,prev,y⟩) :
    Returns ns str ⟨rgs.next,cur,0,fr :: prev,x⟩ := by
  generalize hm : (cur,fr.grep) = m
  induction m using (groupLt_wf str rge).induction generalizing cur fr x with
  | _ m ih =>
    subst hm
    refine hb cur fr prev x hcalm fun q y hend => returns_groupE hg hpos fun d hd => ?_
    have hinv := hd.inv hg.stop
    simp only [hg.groupE] at hinv
    obtain ⟨i',rgs',fr',prev',z,hg',haux,-,hcase⟩ := hinv
    obtain ⟨rfl,rfl⟩ := List.cons.inj haux
    obtain rfl : i = i' := Option.some.inj (hg.back.symm.trans hg'.back)
    obtain rfl := Option.some.inj (hg.start.symm.trans hg'.start)
    rcases hcase with ⟨hmax,rfl⟩ | rfl
    · -- the next repetition
      have hreach := hend.tail hd
      refine ih (q,fr.grep + 1) ?_ (Nat.succ_pos _) (hcalm.of_reach hreach) (fun q' y' hr => h q' y' (hreach.trans hr)) rfl
      have hq : q = cur ∨ cur < q ∧ q ≤ str.length := hend.le
      unfold GroupLt
      split
      · rename_i hwild
        rcases hq with rfl | hq
        · have hmin : ¬rge.repmin ≤ fr.grep := fun hmin => hcalm _ _ .refl hend (.intro hg hwild hmin)
          exact Prod.Lex.right _ (show rge.repmin - (fr.grep + 1) < rge.repmin - fr.grep by omega)
        · exact Prod.Lex.left _ _ (show str.length - q < str.length - cur by omega)
      · rename_i hwild
        have := hmax.resolve_left hwild
        show rge.repmax - (fr.grep + 1) < rge.repmax - fr.grep
        omega
    · exact h q z (hend.tail hd)

theorem Way.passes (h : Way ns a e) : Passes ns str a e := by
  induction h with
  | done => exact fun cur fr prev x _ hend => hend cur x .refl
  | null => exact fun cur fr prev x _ _ => ⟨1,_,rfl⟩
  | elem hn ht _ ih =>
    intro cur fr prev x hcalm hend
    refine elem_returns hn ht le_rfl fun q y hr => ih q fr prev y (hcalm.of_reach hr) fun q' y' hr' => hend q' y' (hr.trans hr')
  | @anchor _ _ n hn ht _ ih =>
    intro cur fr prev x hcalm hend
    refine returns_anchor hn ht fun d hd => ?_
    have hinv := hd.inv hn
    obtain ⟨y,rfl⟩ : ∃ y, d = ⟨n.next,cur,0,fr :: prev,y⟩ := by rcases ht with ht | ht <;> simpa only [ht] using hinv
    exact ih cur fr prev y (hcalm.of_reach (.single hd)) fun q y hr => hend q y (.head hd hr)
  | choice hn ht _ _ ih1 ih2 =>
    intro cur fr prev x hcalm hend
    refine returns_choice hn ht fun d hd => ?_
    have hinv := hd.inv hn
    simp only [ht] at hinv
    obtain ⟨y,rfl | rfl⟩ := hinv
    · exact ih1 cur fr prev y (hcalm.of_reach (.single hd)) fun q y hr => hend q y (.head hd hr)
    · exact ih2 cur fr prev y (hcalm.of_reach (.single hd)) fun q y hr => hend q y (.head hd hr)
  | @group e i j rgs rge hg _ _ ihb ih =>
    intro cur fr prev x hcalm hend
    have hrest : ∀ q y, Reach ns str ⟨some i,cur,0,fr :: prev,x⟩ ⟨rge.next,q,0,fr :: prev,y⟩ → Returns ns str ⟨rge.next,q,0,fr :: prev,y⟩ :=
      fun q y hr => ih q fr prev y (hcalm.of_reach hr) fun q' y' hr' => hend q' y' (hr.trans hr')
    refine returns_groupS hg fun d hd => ?_
    have hinv := hd.inv hg.start
    simp only [hg.groupS] at hinv
    obtain ⟨j',rge',y,hg',rfl | rfl⟩ := hinv
    · have hreach := Relation.ReflTransGen.single hd
      exact body_returns hg ihb Nat.one_pos (hcalm.of_reach hreach) fun q y hr => hrest q y (hreach.trans hr)
    · obtain rfl := Option.some.inj (hg.forth.symm.trans hg'.forth)
      obtain rfl := Option.some.inj (hg.stop.symm.trans hg'.stop)
      exact hrest cur y (.single hd)

end Catlib.Rex
