import Catlib.Rex.Terminates

/-! # When the matcher misses nothing

A call that comes back without a match leaves no traversal of the rest of the pattern, unless an
element that may be left out is taken in vain: where such an element fits, the matcher never
leaves it out.
-/
namespace Catlib.Rex

variable {ns : List RexNode} {str : List UInt8} {i j k cur rep f p q : ℕ} {n rgs rge : RexNode} {a : Option ℕ} {es : List ℕ}
  {aux prev : List RexAux} {fr : RexAux} {x y : RexSlots} {r : RexRet} {c d : RexCall} {t u v : List RexStep}

/-- A string or a class that may be left out is entered where it fits, and the call fails. -/
def TakenInVain (ns : List RexNode) (str : List UInt8) (c : RexCall) : Prop :=
  ∃ i n p y, c.rxn = some i ∧ c.rep = 0 ∧ ns[i]? = some n ∧ (n.type = .string ∨ n.type = .cls) ∧ n.repmin = 0 ∧
    behind str n c.cur = some p ∧ Fails ns str c y

/-- No call that comes of a call takes an element in vain. -/
def Thorough (ns : List RexNode) (str : List UInt8) (c : RexCall) : Prop := ∀ d, Reach ns str c d → ¬TakenInVain ns str d

theorem Thorough.calls (h : Thorough ns str c) (hd : Calls ns str c d) : Thorough ns str d :=
  fun _ he => h _ (.head hd he)

theorem fails_of_run (h : c.run ns str f = some r) (hnm : ¬r.rv ≠ .nomatch) (haux : r.aux = c.aux) : Fails ns str c r.slots := by
  refine ⟨f,h.trans ?_⟩
  rw [← not_not.1 hnm,← haux]

theorem fits_behind (h : Fits str n p q) : (n.type = .string ∨ n.type = .cls) ∧ behind str n p = some q := by
  cases h with
  | string ht hp hs =>
    refine ⟨Or.inl ht,?_⟩
    have hfit : hasStr str n p = true := by
      rw [hasStr,Bool.and_eq_true,decide_eq_true_eq,decide_eq_true_eq]
      exact ⟨by omega,hs⟩
    rw [behind,if_pos ht,if_pos hfit]
  | cls ht hp hc =>
    refine ⟨Or.inr ht,?_⟩
    have hfit : hasClass str n p = true := by
      rw [hasClass,hp]
      exact hc
    rw [behind,if_neg (by rw [ht]; rintro ⟨⟩),if_pos hfit]

/-- The frames of the open groups count at least one repetition. -/
def Counted (es : List ℕ) (aux : List RexAux) : Prop := ∀ fr ∈ aux.take es.length, 0 < fr.grep

theorem Counted.cons (h : Counted es aux) (hpos : 0 < fr.grep) : Counted (j :: es) (fr :: aux) := by
  intro g hg
  rw [List.length_cons,List.take_succ_cons] at hg
  rcases List.mem_cons.1 hg with rfl | hg
  · exact hpos
  · exact h g hg

theorem Counted.tail (h : Counted (j :: es) (fr :: aux)) : 0 < fr.grep ∧ Counted es aux :=
  ⟨h fr List.mem_cons_self,fun g hg => h g (List.mem_cons_of_mem _ hg)⟩

/-- The pattern goes on from a call: from its node, or with more repetitions of a string or a class. -/
inductive Open (ns : List RexNode) (str : List UInt8) (es : List ℕ) : RexCall → Prop
  | fresh {a : Option ℕ} {cur q : ℕ} {aux : List RexAux} {x : RexSlots} {t u : List RexStep} (h : Trav ns str a es.head? cur q t)
      (ha : After ns str es q aux u) : Open ns str es ⟨a,cur,0,aux,x⟩
  | again {i cur rep k p q r : ℕ} {n : RexNode} {aux : List RexAux} {x : RexSlots} {t u v : List RexStep} (hn : ns[i]? = some n)
      (hf : Fits str n cur p) (hr : Reps str i n k p q t) (hb : n.Bounds (rep + (k + 1))) (h : Trav ns str n.next es.head? q r u)
      (ha : After ns str es r aux v) : Open ns str es ⟨some i,cur,rep,aux,x⟩

theorem After.cons_frame (h : After ns str es p aux t) : ∃ fr prev, aux = fr :: prev := by
  cases h with
  | nil => exact ⟨_,_,rfl⟩
  | cons => exact ⟨_,_,rfl⟩

/-- The calls of the matcher with some fuel miss nothing. -/
def Misses (ns : List RexNode) (str : List UInt8) (f : ℕ) : Prop :=
  ∀ es c r, c.run ns str f = some r → Thorough ns str c → Counted es c.aux → Open ns str es c → r.rv ≠ .nomatch

section Step

variable (ih : Misses ns str f)
include ih

theorem again_complete {r : RexRet} {k q s : ℕ} {t u v : List RexStep} (hrun : RexCall.run ns str (f + 1) ⟨some i,cur,rep,aux,x⟩ = some r)
    (hth : Thorough ns str ⟨some i,cur,rep,aux,x⟩) (hpos : Counted es aux) (hn : ns[i]? = some n) (hf : Fits str n cur p)
    (hr : Reps str i n k p q t) (hb : n.Bounds (rep + (k + 1))) (h : Trav ns str n.next es.head? q s u)
    (ha : After ns str es s aux v) : r.rv ≠ .nomatch := by
  obtain ⟨fr,prev,rfl⟩ := ha.cons_frame
  obtain ⟨ht,hp⟩ := fits_behind hf
  rw [RexCall.run,rexMatchRxn_elem hn ht hp,rexNext,Option.bind_eq_bind,Option.bind_eq_some_iff] at hrun
  obtain ⟨r₁,h1,hrun⟩ := hrun
  have hrep : Repeats ns (some i) (rep + 1) := Or.inr ⟨i,n,rfl,hn,ht⟩
  cases hr with
  | succ hf' hr' =>
    -- there is one more, so the call for it is made
    have hmore : n.repmax = rexWildcard ∨ rep + 1 < n.repmax := hb.2.imp_right fun h => by omega
    rw [rexNextRep,if_pos hmore] at h1
    have hne := ih es ⟨some i,p,rep + 1,fr :: prev,x⟩ r₁ h1 (hth.calls (.again hn ht hp hmore)) hpos
      (.again hn hf' hr' (by rwa [Nat.add_assoc,Nat.add_comm 1]) h ha)
    rw [if_pos hne] at hrun
    cases hrun
    exact hne
  | zero =>
    by_cases hne : r₁.rv ≠ .nomatch
    · rw [if_pos hne] at hrun
      cases hrun
      exact hne
    rw [if_neg hne,if_pos hb.1] at hrun
    have htried : Tried ns str (n.repmax = rexWildcard ∨ rep + 1 < n.repmax) ⟨some i,p,rep + 1,fr :: prev,x⟩ r₁.slots ∧
        r₁.aux = fr :: prev := by
      rw [rexNextRep] at h1
      split at h1
      · rename_i hmore
        have haux : r₁.aux = fr :: prev := rexMatchRxn_aux f _ _ _ _ _ _ hrep h1
        exact ⟨Or.inl ⟨hmore,fails_of_run h1 hne haux⟩,haux⟩
      · rename_i hmore
        cases h1
        exact ⟨Or.inr ⟨hmore,rfl⟩,rfl⟩
    rw [htried.2] at hrun
    exact ih es ⟨n.next,p,0,fr :: prev,r₁.slots⟩ r hrun (hth.calls (.next hn ht hp hb.1 htried.1)) hpos (.fresh h ha)

theorem skip_complete {r : RexRet} {q : ℕ} {t u : List RexStep} (hrun : RexCall.run ns str (f + 1) ⟨some i,cur,0,aux,x⟩ = some r)
    (hth : Thorough ns str ⟨some i,cur,0,aux,x⟩) (hpos : Counted es aux) (hn : ns[i]? = some n)
    (ht : n.type = .string ∨ n.type = .cls) (hb : n.Bounds 0) (h : Trav ns str n.next es.head? cur q t)
    (ha : After ns str es q aux u) : r.rv ≠ .nomatch := by
  obtain ⟨fr,prev,rfl⟩ := ha.cons_frame
  have hmin : n.repmin = 0 := Nat.le_zero.1 hb.1
  cases hp : behind str n cur with
  | some p =>
    intro hnm
    have haux : r.aux = fr :: prev := (rexMatchRxn_aux (f + 1)).fresh hrun
    exact hth _ .refl ⟨i,n,p,r.slots,rfl,rfl,hn,ht,hmin,hp,fails_of_run hrun (not_not.2 hnm) haux⟩
  | none =>
    rw [RexCall.run,rexMatchRxn_misfit hn ht hp,if_pos ⟨hmin,rfl⟩] at hrun
    exact ih es ⟨n.next,cur,0,fr :: prev,x⟩ r hrun (hth.calls (.none hn ht hp hmin)) hpos (.fresh h ha)

theorem anchor_complete {r : RexRet} {q : ℕ} {t u : List RexStep} (hrun : RexCall.run ns str (f + 1) ⟨some i,cur,0,aux,x⟩ = some r)
    (hth : Thorough ns str ⟨some i,cur,0,aux,x⟩) (hpos : Counted es aux) (hn : ns[i]? = some n)
    (ht : n.type = .banchor ∨ n.type = .eanchor) (han : Anchored str n cur) (h : Trav ns str n.next es.head? cur q t)
    (ha : After ns str es q aux u) : r.rv ≠ .nomatch := by
  obtain ⟨fr,prev,rfl⟩ := ha.cons_frame
  rw [RexCall.run,rexMatchRxn_anchor hn ht han] at hrun
  exact ih es ⟨n.next,cur,0,fr :: prev,x⟩ r hrun (hth.calls (.anchor hn ht han)) hpos (.fresh h ha)

theorem choice_complete {r : RexRet} {q : ℕ} {t u : List RexStep} (hrun : RexCall.run ns str (f + 1) ⟨some i,cur,0,aux,x⟩ = some r)
    (hth : Thorough ns str ⟨some i,cur,0,aux,x⟩) (hpos : Counted es aux) (hn : ns[i]? = some n) (ht : n.type = .choice)
    (h : Trav ns str n.opt1 es.head? cur q t ∨ Trav ns str n.opt2 es.head? cur q t) (ha : After ns str es q aux u) : r.rv ≠ .nomatch := by
  obtain ⟨fr,prev,rfl⟩ := ha.cons_frame
  rw [RexCall.run,rexMatchRxn_choice hn ht,Option.bind_eq_some_iff] at hrun
  obtain ⟨r₁,h1,hrun⟩ := hrun
  have haux : r₁.aux = fr :: prev := (rexMatchRxn_aux f).fresh h1
  by_cases hne : r₁.rv ≠ .nomatch
  · rw [if_pos hne] at hrun
    cases hrun
    exact hne
  rcases h with h | h
  · exact absurd (ih es ⟨n.opt1,cur,0,fr :: prev,x⟩ r₁ h1 (hth.calls (.opt1 hn ht)) hpos (.fresh h ha)) hne
  · have hfail : Fails ns str ⟨n.opt1,cur,0,fr :: prev,x⟩ r₁.slots := fails_of_run h1 hne haux
    rw [if_neg hne,haux] at hrun
    exact ih es ⟨n.opt2,cur,0,fr :: prev,r₁.slots⟩ r hrun (hth.calls (.opt2 hn ht hfail)) hpos (.fresh h ha)

theorem groupS_complete {r : RexRet} {q s : ℕ} {t u v : List RexStep} (hrun : RexCall.run ns str (f + 1) ⟨some i,cur,0,aux,x⟩ = some r)
    (hth : Thorough ns str ⟨some i,cur,0,aux,x⟩) (hpos : Counted es aux) (hg : Group ns i j rgs rge)
    (hi : Iters ns str rgs.next j k cur q t) (hb : rgs.Bounds k) (h : Trav ns str rge.next es.head? q s u)
    (ha : After ns str es s aux v) : r.rv ≠ .nomatch := by
  obtain ⟨fr,prev,rfl⟩ := ha.cons_frame
  rw [RexCall.run,rexMatchRxn_groupS hg,Option.bind_eq_some_iff] at hrun
  obtain ⟨r₁,h1,hrun⟩ := hrun
  have haux : r₁.aux = ⟨cur,1⟩ :: fr :: prev := (rexMatchRxn_aux f).fresh h1
  cases hi with
  | succ hbody hi =>
    have hne := ih (j :: es) ⟨rgs.next,cur,0,⟨cur,1⟩ :: fr :: prev,x⟩ r₁ h1 (hth.calls (.body hg)) (hpos.cons Nat.one_pos)
      (.fresh hbody (.cons hg hi (by rwa [Nat.add_comm]) h ha))
    rw [if_neg fun hc => hne hc.1] at hrun
    cases hrun
    exact hne
  | zero =>
    by_cases hne : r₁.rv ≠ .nomatch
    · rw [if_neg fun hc => hne hc.1] at hrun
      cases hrun
      exact hne
    have hmin : rgs.repmin = 0 := Nat.le_zero.1 hb.1
    have hfail : Fails ns str ⟨rgs.next,cur,0,⟨cur,1⟩ :: fr :: prev,x⟩ r₁.slots := fails_of_run h1 hne haux
    rw [if_pos ⟨not_not.1 hne,hmin⟩,Option.map_eq_some_iff] at hrun
    obtain ⟨r₂,h2,rfl⟩ := hrun
    have hne2 := ih es ⟨rge.next,cur,0,fr :: prev,r₁.slots.record rgs.num cur 0⟩ r₂ h2 (hth.calls (.skip hg hmin hfail)) hpos
      (.fresh h ha)
    split
    · exact hne2
    · exact hne2

theorem groupE_complete {r : RexRet} {t : List RexStep} (hrun : RexCall.run ns str (f + 1) ⟨some j,cur,0,aux,x⟩ = some r)
    (hth : Thorough ns str ⟨some j,cur,0,aux,x⟩) (hpos : Counted (j :: es) aux) (ha : After ns str (j :: es) cur aux t) :
    r.rv ≠ .nomatch := by
  cases ha with
  | @cons _ i _ k _ q s rgs rge fr prev t u v hg hi hb h ha =>
  obtain ⟨hgrep,hpos⟩ := hpos.tail
  rw [RexCall.run,rexMatchRxn_groupE hg,Option.bind_eq_some_iff] at hrun
  obtain ⟨r₁,h1,hrun⟩ := hrun
  rw [rexGroupRep_eq hg hgrep] at h1
  cases hi with
  | succ hbody hi =>
    have hmore : rge.repmax = rexWildcard ∨ fr.grep < rge.repmax := by
      rw [hg.repmax]
      exact hb.2.imp_right fun h => by omega
    rw [if_pos hmore,Option.map_eq_some_iff] at h1
    obtain ⟨r₂,h2,rfl⟩ := h1
    have hne := ih (j :: es) ⟨rgs.next,cur,0,{ fr with grep := fr.grep + 1 } :: prev,x⟩ r₂ h2 (hth.calls (.more hg hgrep hmore))
      (hpos.cons (Nat.succ_pos _)) (.fresh hbody (.cons hg hi (by rwa [Nat.add_assoc,Nat.add_comm 1]) h ha))
    rw [if_pos hne] at hrun
    cases hrun
    exact hne
  | zero =>
    by_cases hne : r₁.rv ≠ .nomatch
    · rw [if_pos hne] at hrun
      cases hrun
      exact hne
    have hmin : fr.grep ≥ rge.repmin := by
      rw [hg.repmin]
      exact hb.1
    have htried : Tried ns str (rge.repmax = rexWildcard ∨ fr.grep < rge.repmax)
        ⟨rgs.next,cur,0,{ fr with grep := fr.grep + 1 } :: prev,x⟩ r₁.slots := by
      split at h1
      · rename_i hmore
        rw [Option.map_eq_some_iff] at h1
        obtain ⟨r₂,h2,rfl⟩ := h1
        have haux : r₂.aux = { fr with grep := fr.grep + 1 } :: prev := (rexMatchRxn_aux f).fresh h2
        exact Or.inl ⟨hmore,fails_of_run (r := r₂) h2 hne haux⟩
      · rename_i hmore
        cases h1
        exact Or.inr ⟨hmore,rfl⟩
    rw [if_neg hne,if_pos hmin,Option.map_eq_some_iff] at hrun
    obtain ⟨r₂,h2,rfl⟩ := hrun
    exact ih es ⟨rge.next,cur,0,prev,r₁.slots⟩ r₂ h2 (hth.calls (.leave hg hgrep hmin htried)) hpos (.fresh h ha)

end Step

theorem misses_zero : Misses ns str 0 := fun _ _ _ h => by cases h

theorem misses_succ (ih : Misses ns str f) : Misses ns str (f + 1) := by
  intro es c r hrun hth hpos ho
  cases ho with
  | again hn hf hr hb h ha => exact again_complete ih hrun hth hpos hn hf hr hb h ha
  | @fresh a cur q aux x t u h ha =>
    cases h with
    | done =>
      cases es with
      | nil =>
        cases hrun
        exact nofun
      | cons j es => exact groupE_complete ih hrun hth hpos ha
    | elem hn ht hr hb h =>
      cases hr with
      | zero => exact skip_complete ih hrun hth hpos hn ht hb h ha
      | succ hf hr => exact again_complete ih hrun hth hpos hn hf hr (by rwa [Nat.zero_add]) h ha
    | anchor hn ht han h => exact anchor_complete ih hrun hth hpos hn ht han h ha
    | opt1 hn ht h => exact choice_complete ih hrun hth hpos hn ht (Or.inl h) ha
    | opt2 hn ht h => exact choice_complete ih hrun hth hpos hn ht (Or.inr h) ha
    | group hg hi hb h => exact groupS_complete ih hrun hth hpos hg hi hb h ha

theorem misses_all (f : ℕ) : Misses ns str f := by
  induction f with
  | zero => exact misses_zero
  | succ f ih => exact misses_succ ih

theorem start_complete (hf : Fails ns str (startCall cur x) y) (hth : Thorough ns str (startCall cur x)) :
    ∀ q t, ¬Whole ns str cur q t := by
  rintro q t ht
  obtain ⟨f,hf⟩ := hf
  exact misses_all f [] _ _ hf hth (fun _ h => by simp at h) (.fresh ht .nil) rfl

end Catlib.Rex
