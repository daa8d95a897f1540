import Catlib.Rex.Returns
import Catlib.Rex.Sound

/-! # When rex_match ends

An empty repetition of a group without an upper bound goes on for ever: a run does not look at the
slots, and looks at the number of a repetition only up to the bounds of its group, so the
next repetition goes the same way. Everything else ends.
-/
namespace Catlib.Rex

variable {ns : List RexNode} {str : List UInt8} {i j cur rep f f' p q k : ℕ} {n rgs rge : RexNode} {a e : Option ℕ} {es : List ℕ}
  {aux aux' prev : List RexAux} {fr fr' : RexAux} {x x' y : RexSlots} {r : RexRet} {c d : RexCall}

/-! ## Twins -/

/-- The frames of the groups that are open, the innermost first, twice: they differ only where a group without an
upper bound has been repeated often enough. -/
inductive Twins (ns : List RexNode) : List ℕ → List RexAux → List RexAux → Prop
  | nil {fr fr' : RexAux} : Twins ns [] [fr] [fr']
  | cons {es : List ℕ} {i j : ℕ} {rgs rge : RexNode} {fr fr' : RexAux} {aux aux' : List RexAux} (hg : Group ns i j rgs rge)
      (hb : Way ns rgs.next (some j)) (hw : Way ns rge.next es.head?) (hpos : 0 < fr.grep ∧ 0 < fr'.grep)
      (hrep : fr.grep = fr'.grep ∨ rge.repmax = rexWildcard ∧ rge.repmin ≤ fr.grep ∧ rge.repmin ≤ fr'.grep)
      (h : Twins ns es aux aux') : Twins ns (j :: es) (fr :: aux) (fr' :: aux')

theorem Twins.frames (h : Twins ns es aux aux') : ∃ fr prev fr' prev', aux = fr :: prev ∧ aux' = fr' :: prev' := by
  cases h <;> exact ⟨_,_,_,_,rfl,rfl⟩

theorem rv_bind {o o' : Option RexRet} {g g' : RexRet → Option RexRet} (h : o.map (·.rv) = o'.map (·.rv))
    (hg : ∀ r r', o = some r → o' = some r' → r.rv = r'.rv → (g r).map (·.rv) = (g' r').map (·.rv)) :
    (o.bind g).map (·.rv) = (o'.bind g').map (·.rv) := by
  cases o with
  | none =>
    cases o' with
    | none => rfl
    | some r' => cases h
  | some r =>
    cases o' with
    | none => cases h
    | some r' => exact hg r r' rfl rfl (Option.some.inj h)

theorem rv_map {o o' : Option RexRet} {g g' : RexRet → RexRet} (h : o.map (·.rv) = o'.map (·.rv)) (hg : ∀ r, (g r).rv = r.rv)
    (hg' : ∀ r, (g' r).rv = r.rv) : (o.map g).map (·.rv) = (o'.map g').map (·.rv) := by
  rw [Option.map_map,Option.map_map]
  simpa only [Function.comp_def, hg, hg'] using h

/-- The calls with twin frames have the same result. -/
def Same (ns : List RexNode) (str : List UInt8) (f : ℕ) : Prop :=
  ∀ a es aux aux' cur rep x x', Way ns a es.head? → Twins ns es aux aux' → Repeats ns a rep →
    (rexMatchRxn ns str f a cur rep aux x).map (·.rv) = (rexMatchRxn ns str f a cur rep aux' x').map (·.rv)

section Step

variable (ih : Same ns str f)
include ih

theorem elem_same (hn : ns[i]? = some n) (ht : n.type = .string ∨ n.type = .cls) (hself : Way ns (some i) es.head?) (hw : Way ns n.next es.head?)
    (h : Twins ns es (fr :: prev) (fr' :: aux')) : (rexMatchRxn ns str (f + 1) (some i) cur rep (fr :: prev) x).map (·.rv) =
      (rexMatchRxn ns str (f + 1) (some i) cur rep (fr' :: aux') x').map (·.rv) := by
  cases hp : behind str n cur with
  | none =>
    rw [rexMatchRxn_misfit hn ht hp,rexMatchRxn_misfit hn ht hp]
    split
    · exact ih _ _ _ _ _ _ _ _ hw h (Or.inl rfl)
    · rfl
  | some p =>
    rw [rexMatchRxn_elem hn ht hp,rexMatchRxn_elem hn ht hp]
    refine rv_bind ?_ fun r r' hr hr' hrv => ?_
    · unfold rexNextRep
      split
      · exact ih _ _ _ _ _ _ _ _ hself h (Or.inr ⟨i,n,rfl,hn,ht⟩)
      · rfl
    · rw [rexNextRep_aux hn ht (rexMatchRxn_aux f) hr,rexNextRep_aux hn ht (rexMatchRxn_aux f) hr',hrv]
      split
      · exact congrArg some hrv
      split
      · exact ih _ _ _ _ _ _ _ _ hw h (Or.inl rfl)
      · exact congrArg some hrv

theorem choice_same (hn : ns[i]? = some n) (ht : n.type = .choice) (h1 : Way ns n.opt1 es.head?) (h2 : Way ns n.opt2 es.head?)
    (h : Twins ns es (fr :: prev) (fr' :: aux')) : (rexMatchRxn ns str (f + 1) (some i) cur 0 (fr :: prev) x).map (·.rv) =
      (rexMatchRxn ns str (f + 1) (some i) cur 0 (fr' :: aux') x').map (·.rv) := by
  rw [rexMatchRxn_choice hn ht,rexMatchRxn_choice hn ht]
  refine rv_bind (ih _ _ _ _ _ _ _ _ h1 h (Or.inl rfl)) fun r r' hr hr' hrv => ?_
  rw [(rexMatchRxn_aux f).fresh hr,(rexMatchRxn_aux f).fresh hr',hrv]
  split
  · exact congrArg some hrv
  · exact ih _ _ _ _ _ _ _ _ h2 h (Or.inl rfl)

theorem groupS_same (hg : Group ns i j rgs rge) (hb : Way ns rgs.next (some j)) (hw : Way ns rge.next es.head?)
    (h : Twins ns es (fr :: prev) (fr' :: aux')) : (rexMatchRxn ns str (f + 1) (some i) cur 0 (fr :: prev) x).map (·.rv) =
      (rexMatchRxn ns str (f + 1) (some i) cur 0 (fr' :: aux') x').map (·.rv) := by
  rw [rexMatchRxn_groupS hg,rexMatchRxn_groupS hg]
  have hbody : Twins ns (j :: es) (⟨cur,1⟩ :: fr :: prev) (⟨cur,1⟩ :: fr' :: aux') :=
    .cons hg hb hw ⟨Nat.one_pos,Nat.one_pos⟩ (Or.inl rfl) h
  refine rv_bind (ih _ (j :: es) _ _ _ _ _ _ hb hbody (Or.inl rfl)) fun r r' hr hr' hrv => ?_
  rw [hrv]
  split
  · refine rv_map (ih _ _ _ _ _ _ _ _ hw h (Or.inl rfl)) (fun q => ?_) fun q => ?_
    · split <;> rfl
    · split <;> rfl
  · rfl

theorem groupE_same (hg : Group ns i j rgs rge) (hb : Way ns rgs.next (some j)) (hw : Way ns rge.next es.head?)
    (hpos : 0 < fr.grep ∧ 0 < fr'.grep)
    (hrep : fr.grep = fr'.grep ∨ rge.repmax = rexWildcard ∧ rge.repmin ≤ fr.grep ∧ rge.repmin ≤ fr'.grep) (h : Twins ns es prev aux') :
    (rexMatchRxn ns str (f + 1) (some j) cur rep (fr :: prev) x).map (·.rv) =
      (rexMatchRxn ns str (f + 1) (some j) cur rep (fr' :: aux') x').map (·.rv) := by
  have hmax : (rge.repmax = rexWildcard ∨ fr.grep < rge.repmax) ↔ (rge.repmax = rexWildcard ∨ fr'.grep < rge.repmax) := by
    rcases hrep with heq | ⟨hwild,-⟩
    · rw [heq]
    · exact ⟨fun _ => Or.inl hwild,fun _ => Or.inl hwild⟩
  have hmin : fr.grep ≥ rge.repmin ↔ fr'.grep ≥ rge.repmin := by
    rcases hrep with heq | ⟨-,h1,h2⟩
    · rw [heq]
    · exact ⟨fun _ => h2,fun _ => h1⟩
  have hmore : Twins ns (j :: es) ({ fr with grep := fr.grep + 1 } :: prev) ({ fr' with grep := fr'.grep + 1 } :: aux') := by
    refine .cons hg hb hw ⟨Nat.succ_pos _,Nat.succ_pos _⟩ (hrep.imp (fun h => ?_) fun h => ⟨h.1,?_,?_⟩) h
    · exact congrArg (· + 1) h
    · exact h.2.1.trans (Nat.le_succ _)
    · exact h.2.2.trans (Nat.le_succ _)
  rw [rexMatchRxn_groupE hg,rexMatchRxn_groupE hg,rexGroupRep_eq hg hpos.1,rexGroupRep_eq hg hpos.2]
  simp only [hmax, hmin]
  refine rv_bind ?_ fun r r' _ _ hrv => ?_
  · split
    · exact rv_map (ih _ (j :: es) _ _ _ _ _ _ hb hmore (Or.inl rfl)) (fun _ => rfl) fun _ => rfl
    · rfl
  · rw [hrv]
    split
    · exact congrArg some hrv
    split
    · exact rv_map (ih _ _ _ _ _ _ _ _ hw h (Or.inl rfl)) (fun _ => rfl) fun _ => rfl
    · exact congrArg some hrv

theorem same_succ : Same ns str (f + 1) := by
  intro a es aux aux' cur rep x x' hw h hrep
  obtain ⟨fr,prev,fr',prev',rfl,rfl⟩ := h.frames
  have hzero : ∀ i n, a = some i → ns[i]? = some n → n.type ≠ .string → n.type ≠ .cls → rep = 0 := by
    rintro i n rfl hn h1 h2
    rcases hrep with h0 | ⟨i',n',hi,hn',ht⟩
    · exact h0
    · obtain rfl := Option.some.inj hi
      obtain rfl := Option.some.inj (hn.symm.trans hn')
      exact (ht.elim h1 h2).elim
  generalize he : es.head? = e at hw
  cases hw with
  | done =>
    cases h with
    | nil =>
      cases he
      rfl
    | cons hg hb hw hpos hcount h =>
      cases he
      exact groupE_same ih hg hb hw hpos hcount h
  | null => rfl
  | elem hn ht hw =>
    subst he
    exact elem_same ih hn (ht.imp_left And.left) (.elem hn ht hw) hw h
  | @anchor _ _ n hn ht hw =>
    subst he
    by_cases ha : Anchored str n cur
    · rw [rexMatchRxn_anchor hn ht ha,rexMatchRxn_anchor hn ht ha]
      exact ih _ _ _ _ _ _ _ _ hw h (Or.inl rfl)
    · rw [rexMatchRxn_unanchored hn ht ha,rexMatchRxn_unanchored hn ht ha]
      rfl
  | choice hn ht h1 h2 =>
    subst he
    rw [hzero _ _ rfl hn (by rw [ht]; exact nofun) (by rw [ht]; exact nofun)]
    exact choice_same ih hn ht h1 h2 h
  | group hg hb hw =>
    subst he
    rw [hzero _ _ rfl hg.start (by rw [hg.groupS]; exact nofun) (by rw [hg.groupS]; exact nofun)]
    exact groupS_same ih hg hb hw h

end Step

theorem same_all (f : ℕ) : Same ns str f := by
  induction f with
  | zero => exact fun _ _ _ _ _ _ _ _ _ _ _ => rfl
  | succ f ih => exact same_succ ih

/-! ## Calls inside their groups -/

/-- A call within open groups, with a frame for each of them. -/
structure Placed (ns : List RexNode) (es : List ℕ) (c : RexCall) : Prop where
  way : Way ns c.rxn es.head?
  frames : Twins ns es c.aux c.aux
  rep : Repeats ns c.rxn c.rep

theorem Twins.head (h : Twins ns es aux aux') (he : es.head? = some j) : ∃ n, ns[j]? = some n ∧ n.type = .groupE := by
  cases h with
  | nil => cases he
  | cons hg =>
    cases he
    exact ⟨_,hg.stop,hg.groupE⟩

theorem Way.inv (h : Way ns (some i) e) (hn : ns[i]? = some n) (he : ∀ j, e = some j → ∃ m, ns[j]? = some m ∧ m.type = .groupE) :
    match n.type with
    | .string | .cls | .banchor | .eanchor => Way ns n.next e
    | .choice => Way ns n.opt1 e ∧ Way ns n.opt2 e
    | .groupS => ∃ j rge, Group ns i j n rge ∧ Way ns n.next (some j) ∧ Way ns rge.next e
    | .groupE => e = some i := by
  cases h with
  | done =>
    obtain ⟨m,hm,ht⟩ := he i rfl
    obtain rfl := Option.some.inj (hn.symm.trans hm)
    simp only [ht]
  | elem hn' ht h =>
    obtain rfl := Option.some.inj (hn.symm.trans hn')
    rcases ht with ⟨ht,-⟩ | ht <;> simpa only [ht] using h
  | anchor hn' ht h =>
    obtain rfl := Option.some.inj (hn.symm.trans hn')
    rcases ht with ht | ht <;> simpa only [ht] using h
  | choice hn' ht h1 h2 =>
    obtain rfl := Option.some.inj (hn.symm.trans hn')
    simpa only [ht] using ⟨h1,h2⟩
  | group hg hb h =>
    obtain rfl := Option.some.inj (hn.symm.trans hg.start)
    simpa only [hg.groupS] using ⟨_,_,hg,hb,h⟩

theorem Placed.groupE (h : Placed ns es ⟨some j,cur,rep,fr :: prev,x⟩) (hg : Group ns i j rgs rge) :
    ∃ es', es = j :: es' ∧ Way ns rgs.next (some j) ∧ Way ns rge.next es'.head? ∧ 0 < fr.grep ∧ Twins ns es' prev prev := by
  have he := h.way.inv hg.stop fun k hk => h.frames.head hk
  simp only [hg.groupE] at he
  obtain ⟨hw,hf,-⟩ := h
  cases hf with
  | nil => cases he
  | cons hg' hb hw hpos _ hf =>
    cases he
    obtain rfl := Option.some.inj (hg.stop.symm.trans hg'.stop)
    obtain rfl := Option.some.inj (hg.back.symm.trans hg'.back)
    obtain rfl := Option.some.inj (hg.start.symm.trans hg'.start)
    exact ⟨_,rfl,hb,hw,hpos.1,hf⟩

theorem Calls.node (h : Calls ns str c d) : ∃ i n, c.rxn = some i ∧ ns[i]? = some n := by
  cases h with
  | body hg => exact ⟨_,_,rfl,hg.start⟩
  | skip hg => exact ⟨_,_,rfl,hg.start⟩
  | more hg => exact ⟨_,_,rfl,hg.stop⟩
  | leave hg => exact ⟨_,_,rfl,hg.stop⟩
  | again hn => exact ⟨_,_,rfl,hn⟩
  | next hn => exact ⟨_,_,rfl,hn⟩
  | none hn => exact ⟨_,_,rfl,hn⟩
  | anchor hn => exact ⟨_,_,rfl,hn⟩
  | opt1 hn => exact ⟨_,_,rfl,hn⟩
  | opt2 hn => exact ⟨_,_,rfl,hn⟩

theorem Placed.calls (h : Placed ns es c) (hc : Calls ns str c d) : ∃ es', Placed ns es' d := by
  obtain ⟨i,n,hi,hn⟩ := hc.node
  obtain ⟨a,cur,rep,aux,x⟩ := c
  obtain rfl : a = some i := hi
  have hinv := hc.inv hn
  have hw := h.way.inv hn fun k hk => h.frames.head hk
  obtain ⟨hself,hf,-⟩ := h
  cases ht : n.type <;> simp only [ht] at hinv hw
  case string =>
    rcases hinv with ⟨p,-,rfl⟩ | ⟨q,y,rfl⟩
    · exact ⟨es,hself,hf,Or.inr ⟨i,n,rfl,hn,Or.inl ht⟩⟩
    · exact ⟨es,hw,hf,Or.inl rfl⟩
  case cls =>
    rcases hinv with ⟨p,-,rfl⟩ | ⟨q,y,rfl⟩
    · exact ⟨es,hself,hf,Or.inr ⟨i,n,rfl,hn,Or.inr ht⟩⟩
    · exact ⟨es,hw,hf,Or.inl rfl⟩
  case banchor =>
    obtain ⟨y,rfl⟩ := hinv
    exact ⟨es,hw,hf,Or.inl rfl⟩
  case eanchor =>
    obtain ⟨y,rfl⟩ := hinv
    exact ⟨es,hw,hf,Or.inl rfl⟩
  case choice =>
    obtain ⟨y,rfl | rfl⟩ := hinv
    · exact ⟨es,hw.1,hf,Or.inl rfl⟩
    · exact ⟨es,hw.2,hf,Or.inl rfl⟩
  case groupS =>
    obtain ⟨j,rge,hg,hb,hrest⟩ := hw
    obtain ⟨j',rge',y,hg',rfl | rfl⟩ := hinv
    · exact ⟨j :: es,hb,.cons hg hb hrest ⟨Nat.one_pos,Nat.one_pos⟩ (Or.inl rfl) hf,Or.inl rfl⟩
    · obtain rfl := Option.some.inj (hg.forth.symm.trans hg'.forth)
      obtain rfl := Option.some.inj (hg.stop.symm.trans hg'.stop)
      exact ⟨es,hrest,hf,Or.inl rfl⟩
  case groupE =>
    obtain ⟨i',rgs,fr,prev,y,hg,rfl,-,hcase⟩ := hinv
    have hplaced : Placed ns es ⟨some i,cur,0,fr :: prev,x⟩ := ⟨hself,hf,Or.inl rfl⟩
    obtain ⟨es',rfl,hb,hrest,hpos,hf'⟩ := hplaced.groupE hg
    rcases hcase with ⟨-,rfl⟩ | rfl
    · exact ⟨i :: es',hb,.cons hg hb hrest ⟨Nat.succ_pos _,Nat.succ_pos _⟩ (Or.inl rfl) hf',Or.inl rfl⟩
    · exact ⟨es',hrest,hf',Or.inl rfl⟩

theorem Placed.reach (h : Placed ns es c) (hr : Reach ns str c d) : ∃ es', Placed ns es' d := by
  induction hr with
  | refl => exact ⟨es,h⟩
  | tail _ hc ih =>
    obtain ⟨es',h'⟩ := ih
    exact h'.calls hc

/-! ## Empty repetitions go on -/

theorem Reach.run (h : Reach ns str c d) (hc : c.run ns str f = some r) : ∃ f', f' ≤ f ∧ ∃ s, d.run ns str f' = some s := by
  induction h with
  | refl => exact ⟨f,le_rfl,r,hc⟩
  | tail _ hd ih =>
    obtain ⟨f',hle,s,hs⟩ := ih
    cases f' with
    | zero => cases hs
    | succ f' => exact ⟨f',by omega,hd.run hs⟩

theorem Reach.returns (h : Reach ns str c d) (hc : Returns ns str c) : Returns ns str d := by
  obtain ⟨f,r,hr⟩ := hc
  obtain ⟨f',-,hs⟩ := h.run hr
  exact ⟨f',hs⟩

theorem stalls_hangs (hb : Placed ns es c) (hr : Reach ns str c d) (hs : Stalls ns c d) : ¬Returns ns str c := by
  rintro ⟨f,s,hs'⟩
  obtain ⟨es',hd⟩ := hb.reach hr
  cases hs with
  | @intro i j p fr prev x y rgs rge hg hmax hmin =>
    obtain ⟨es',rfl,hbody,hrest,hpos,hf⟩ := hd.groupE hg
    have htwins : Twins ns (j :: es') (fr :: prev) ({ fr with grep := fr.grep + 1 } :: prev) :=
      .cons hg hbody hrest ⟨hpos,Nat.succ_pos _⟩ (Or.inr ⟨hmax,hmin,hmin.trans (Nat.le_succ _)⟩) hf
    -- whatever fuel it takes, the next repetition comes back with less
    induction f using Nat.strong_induction_on generalizing s with
    | _ f ih =>
      obtain ⟨f',hle,t,ht⟩ := hr.run hs'
      cases f' with
      | zero => cases ht
      | succ f' =>
        obtain ⟨u,hu⟩ := (Calls.more hg hpos (Or.inl hmax)).run ht
        have hsame : _ = (rexMatchRxn ns str f' rgs.next p 0 ({ fr with grep := fr.grep + 1 } :: prev) y).map (·.rv) :=
          same_all f' rgs.next (j :: es') _ _ p 0 x y hbody htwins (Or.inl rfl)
        cases hrun : rexMatchRxn ns str f' rgs.next p 0 (fr :: prev) x with
        | none =>
          rw [hrun,show rexMatchRxn ns str f' rgs.next p 0 ({ fr with grep := fr.grep + 1 } :: prev) y = some u from hu] at hsame
          cases hsame
        | some v => exact ih f' (by omega) v hrun

/-! ## rex_match -/

/-- The call of `rex_match` at a position. -/
def startCall (cur : ℕ) (x : RexSlots) : RexCall := ⟨some 0,cur,0,[⟨cur,0⟩],x⟩

/-- The calls that `rex_match` makes: the first, and behind each that fails the next, unless the pattern is anchored. -/
inductive Started (ns : List RexNode) (str : List UInt8) (anchor : Bool) (m : List RexMatchLoc) : ℕ → RexSlots → Prop
  | first : Started ns str anchor m 0 { locs := m.map fun _ => ⟨false,0,0⟩ }
  | next {cur : ℕ} {x y : RexSlots} (h : Started ns str anchor m cur x) (ha : anchor = false) (hcur : cur + 1 < str.length)
      (hy : Fails ns str (startCall cur x) y) : Started ns str anchor m (cur + 1) y

variable {anchor : Bool} {m : List RexMatchLoc}

theorem rexSearch_grows (h : f ≤ f') (k cur : ℕ) (aux : List RexAux) (x : RexSlots) :
    Grows (rexSearch ns str f k cur aux x) (rexSearch ns str f' k cur aux x) := by
  induction k generalizing cur aux x with
  | zero => exact Grows.refl _
  | succ k ih => exact Grows.bind (rexMatchRxn_grows h _ _ _ _ _) fun r => Grows.ite (Grows.refl _) (ih _ _ _)

theorem startCall_aux (h : (startCall cur x).run ns str f = some r) : r.aux = [⟨cur,0⟩] := (rexMatchRxn_aux f).fresh h

theorem search_returns (hret : ∀ cur x, Started ns str anchor m cur x → Returns ns str (startCall cur x)) (ha : anchor = false)
    (hcur : k = 0 ∨ Started ns str anchor m cur x) (haux : setGstart cur aux = [⟨cur,0⟩]) (hk : cur + k = str.length) :
    ∃ f r, rexSearch ns str f k cur aux x = some r := by
  induction k generalizing cur aux x with
  | zero => exact ⟨0,_,rfl⟩
  | succ k ih =>
    have hs := hcur.resolve_left (Nat.succ_ne_zero k)
    obtain ⟨f,r,hr⟩ := hret cur x hs
    have haux' := startCall_aux hr
    by_cases hnm : r.rv ≠ .nomatch
    · refine ⟨f,(r.rv,r.slots),?_⟩
      rw [rexSearch,haux,show rexMatchRxn ns str f (some 0) cur 0 [⟨cur,0⟩] x = some r from hr]
      exact if_pos hnm
    · have hfail : Fails ns str (startCall cur x) r.slots := ⟨f,by rw [hr,← not_not.1 hnm,startCall,← haux']⟩
      have hnext : k = 0 ∨ Started ns str anchor m (cur + 1) r.slots := by
        rcases Nat.eq_zero_or_pos k with hk0 | hk0
        · exact Or.inl hk0
        · exact Or.inr (.next hs ha (by omega) hfail)
      obtain ⟨f',s,hs'⟩ : ∃ f s, rexSearch ns str f k (cur + 1) r.aux r.slots = some s := ih hnext (by rw [haux']; rfl) (by omega)
      refine ⟨max f f',s,?_⟩
      rw [rexSearch,haux,show rexMatchRxn ns str (max f f') (some 0) cur 0 [⟨cur,0⟩] x = some r from
        RexCall.run_grows (c := startCall cur x) (le_max_left _ _) r hr]
      refine (if_neg hnm).trans ?_
      exact rexSearch_grows (le_max_right _ _) _ _ _ _ s hs'

theorem rexMatch_eq (hg : Group ns 0 1 rgs rge) (hmin : rgs.repmin = 1) (hmax : rgs.repmax = 1) :
    rexMatch ns str anchor m f = ((startCall 0 { locs := m.map fun _ => ⟨false,0,0⟩ }).run ns str f).bind fun r =>
      if r.rv ≠ .nomatch ∨ anchor ∨ str.length = 0 then some (r.rv,r.slots)
      else rexSearch ns str f (str.length - 1) 1 r.aux r.slots := by
  simp only [rexMatch, hg.start, hg.stop, Option.bind_eq_bind, Option.bind_some, hg.repmin, hg.repmax, hmin, hmax]
  rfl

theorem rexMatch_returns_iff (hc : Compiled ns) : (∃ f r, rexMatch ns str anchor m f = some r) ↔
    ∀ cur x, Started ns str anchor m cur x → Returns ns str (startCall cur x) := by
  obtain ⟨rgs,rge,hg,-,-,hmin,hmax,-⟩ := hc.group
  constructor
  · rintro ⟨f,r,hr⟩ cur x hs
    rw [rexMatch_eq hg hmin hmax,Option.bind_eq_some_iff] at hr
    -- the search that begins behind each call comes back
    suffices h : ∃ s, (startCall cur x).run ns str f = some s ∧ (s.rv = .nomatch → anchor = false → cur + 1 < str.length →
        ∃ r, rexSearch ns str f (str.length - (cur + 1)) (cur + 1) s.aux s.slots = some r) by
      obtain ⟨s,hs,-⟩ := h
      exact ⟨f,s,hs⟩
    induction hs with
    | first =>
      obtain ⟨s,hs,hr⟩ := hr
      refine ⟨s,hs,fun hnm ha hlen => ⟨r,?_⟩⟩
      rwa [if_neg (by simp only [hnm, ha, ne_eq, not_true, Bool.false_eq_true, false_or]; omega)] at hr
    | @next cur x y _ ha hcur hy ih =>
      obtain ⟨s,hs,hsearch⟩ := ih
      obtain rfl := hy.agree hs
      obtain ⟨r',hr'⟩ := hsearch rfl ha hcur
      obtain ⟨k,hk⟩ : ∃ k, str.length - (cur + 1) = k + 1 := ⟨str.length - (cur + 1) - 1,by omega⟩
      rw [hk,rexSearch,Option.bind_eq_bind,Option.bind_eq_some_iff] at hr'
      obtain ⟨t,ht,hr'⟩ := hr'
      refine ⟨t,ht,fun hnm _ _ => ⟨r',?_⟩⟩
      rw [if_neg (not_not.2 hnm)] at hr'
      rwa [show str.length - (cur + 1 + 1) = k by omega]
  · intro hret
    obtain ⟨f,r,hr⟩ := hret 0 _ .first
    have haux := startCall_aux hr
    by_cases hdone : r.rv ≠ .nomatch ∨ anchor ∨ str.length = 0
    · refine ⟨f,(r.rv,r.slots),?_⟩
      rw [rexMatch_eq hg hmin hmax,hr]
      exact if_pos hdone
    · obtain ⟨hnm,ha,hlen⟩ : r.rv = .nomatch ∧ ¬anchor = true ∧ ¬str.length = 0 := by
        simpa only [not_or, not_not, ne_eq] using hdone
      have ha' : anchor = false := Bool.eq_false_iff.2 ha
      have hfail : Fails ns str (startCall 0 { locs := m.map fun _ => ⟨false,0,0⟩ }) r.slots :=
        ⟨f,by rw [hr,← hnm,startCall,← haux]⟩
      have hnext : str.length - 1 = 0 ∨ Started ns str anchor m 1 r.slots := by
        rcases Nat.eq_zero_or_pos (str.length - 1) with hk | hk
        · exact Or.inl hk
        · exact Or.inr (.next .first ha' (by omega) hfail)
      obtain ⟨f',s,hs⟩ : ∃ f s, rexSearch ns str f (str.length - 1) 1 r.aux r.slots = some s :=
        search_returns hret ha' hnext (by rw [haux]; rfl) (by omega)
      refine ⟨max f f',s,?_⟩
      rw [rexMatch_eq hg hmin hmax,RexCall.run_grows (le_max_left _ _) r hr,Option.bind_some,if_neg hdone]
      exact rexSearch_grows (le_max_right _ _) _ _ _ _ s hs

theorem startCall_placed (hc : Compiled ns) (cur : ℕ) (x : RexSlots) : Placed ns [] (startCall cur x) := ⟨hc.way,.nil,Or.inl rfl⟩

/-- `rex_match` comes back if and only if no call that comes of it begins an empty repetition of a group without
an upper bound, beyond the lower bound. -/
theorem rexMatch_terminates {junk : UInt8} {pat : List UInt8} (h : rexInit junk pat = some (.ok (ns,anchor))) (str : List UInt8)
    (m : List RexMatchLoc) : (∃ f r, rexMatch ns str anchor m f = some r) ↔
      ∀ cur x, Started ns str anchor m cur x → Calm ns str (startCall cur x) := by
  have hc := rexInit_compiled h
  rw [rexMatch_returns_iff hc]
  constructor
  · intro hret cur x hs b d hb hd hstall
    obtain ⟨es,hplaced⟩ := (startCall_placed hc cur x).reach hb
    exact stalls_hangs hplaced hd hstall (hb.returns (hret cur x hs))
  · intro hcalm cur x hs
    exact hc.way.passes cur ⟨cur,0⟩ [] x (hcalm cur x hs) fun q y _ => ⟨1,_,rfl⟩

theorem rexMatch_terminates_sample : (∃ f r, rexMatch sampleNodes [97,97,98] false [⟨false,0,0⟩] f = some r) ↔
    ∀ cur x, Started sampleNodes [97,97,98] false [⟨false,0,0⟩] cur x → Calm sampleNodes [97,97,98] (startCall cur x) :=
  have h : rexInit 0 [40,97,41,42] = some (.ok (sampleNodes,false)) := rfl
  rexMatch_terminates h [97,97,98] [⟨false,0,0⟩]

/-- The nodes of `(a*)*`. -/
def endlessNodes : List RexNode :=
  [{ type := .groupS, next := some 2, other := some 1 },{ type := .groupE, other := some 0 },
    { type := .groupS, repmin := 0, repmax := 0, next := some 3, num := 1, other := some 4 },
    { type := .string, repmin := 0, repmax := 0, str := [97], next := some 4 },
    { type := .groupE, repmin := 0, repmax := 0, next := some 1, num := 1, other := some 2 }]

/-- `(a*)*` on "b" does not end. -/
theorem rexMatch_endless : rexInit 0 [40,97,42,41,42] = some (.ok (endlessNodes,false)) ∧
    ¬∃ f r, rexMatch endlessNodes [98] false [⟨false,0,0⟩] f = some r := by
  have hinit : rexInit 0 [40,97,42,41,42] = some (.ok (endlessNodes,false)) := rfl
  have hc := rexInit_compiled hinit
  have hout : Group endlessNodes 0 1 _ _ := ⟨rfl,rfl,rfl,rfl,rfl,rfl,rfl,rfl,rfl⟩
  have hin : Group endlessNodes 2 4 _ _ := ⟨rfl,rfl,rfl,rfl,rfl,rfl,rfl,rfl,rfl⟩
  have hstr : endlessNodes[3]? = some { type := .string, repmin := 0, repmax := 0, str := [97], next := some 4 } := rfl
  refine ⟨hinit,fun h => ?_⟩
  have hret := (rexMatch_returns_iff hc).1 h 0 _ .first
  -- into both groups, and to the end of the inner one
  have hbody : Reach endlessNodes [98] (startCall 0 { locs := [⟨false,0,0⟩] }) ⟨some 3,0,0,[⟨0,1⟩,⟨0,1⟩,⟨0,0⟩],{ locs := [⟨false,0,0⟩] }⟩ :=
    (Relation.ReflTransGen.single (Calls.body hout)).tail (Calls.body hin)
  have hend : Reach endlessNodes [98] ⟨some 3,0,0,[⟨0,1⟩,⟨0,1⟩,⟨0,0⟩],{ locs := [⟨false,0,0⟩] }⟩
      ⟨some 4,0,0,[⟨0,1⟩,⟨0,1⟩,⟨0,0⟩],{ locs := [⟨false,0,0⟩] }⟩ := .single (Calls.none hstr (Or.inl rfl) rfl rfl)
  obtain ⟨es,hplaced⟩ := (startCall_placed hc 0 _).reach hbody
  exact stalls_hangs hplaced hend (.intro hin rfl (Nat.zero_le _)) (hbody.returns hret)

end Catlib.Rex
