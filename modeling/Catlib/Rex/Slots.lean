import Catlib.Rex.Match

/-! # The match slots

What a call of the matcher may do to the slots: when it fails it changes only slots that are
written in vain, and when it matches it writes slots for groups of the traversal.
-/
namespace Catlib.Rex

variable {ns : List RexNode} {x y z : RexSlots} {i k num start len : ℕ} {s : RexStep} {t u : List RexStep} {l l' : RexMatchLoc}

/-- The node begins the group with a number. -/
def Numbered (ns : List RexNode) (i k : ℕ) : Prop := ∃ n, ns[i]? = some n ∧ n.type = .groupS ∧ n.num = k

theorem not_numbered {n : RexNode} (hn : ns[i]? = some n) (ht : n.type ≠ .groupS) (k : ℕ) : ¬Numbered ns i k := by
  rintro ⟨m,hm,htype,-⟩
  rw [hn] at hm
  cases hm
  exact ht htype

theorem Group.numbered {j : ℕ} {rgs rge : RexNode} (hg : Group ns i j rgs rge) : Numbered ns i rgs.num :=
  ⟨rgs,hg.start,hg.groupS,rfl⟩

theorem Numbered.eq_num {j : ℕ} {rgs rge : RexNode} (h : Numbered ns i k) (hg : Group ns i j rgs rge) : rgs.num = k := by
  obtain ⟨n,hn,-,hk⟩ := h
  rw [hg.start] at hn
  cases hn
  exact hk

/-- What a group of a traversal writes to its slot. -/
def RexStep.loc (s : RexStep) : RexMatchLoc := ⟨true,s.start,s.stop - s.start⟩

/-- The slots do not get fewer, and what was written in vain stays so. -/
structure Spoils (x y : RexSlots) : Prop where
  length : y.locs.length = x.locs.length
  vain : ∀ k ∈ x.vain, k ∈ y.vain

/-- The slots behind a failure. -/
structure Kept (x y : RexSlots) : Prop extends Spoils x y where
  same : ∀ k, k ∉ y.vain → y.locs[k]? = x.locs[k]?

/-- What becomes of a slot in a traversal. -/
structure SlotOk (ns : List RexNode) (k : ℕ) (t : List RexStep) (l l' : RexMatchLoc) : Prop where
  written : l' = l ∨ l.valid = false ∧ ∃ s ∈ t, Numbered ns s.node k ∧ l' = s.loc
  valid : ∀ s ∈ t, Numbered ns s.node k → l'.valid = true

/-- The slots behind a match, with the traversal. -/
structure Captured (ns : List RexNode) (x y : RexSlots) (t : List RexStep) : Prop extends Spoils x y where
  slots : ∀ k l l', k ∉ y.vain → x.locs[k]? = some l → y.locs[k]? = some l' → SlotOk ns k t l l'

theorem Spoils.refl (x : RexSlots) : Spoils x x := ⟨rfl,fun _ h => h⟩

theorem Spoils.trans (h : Spoils x y) (h' : Spoils y z) : Spoils x z :=
  ⟨h'.length.trans h.length,fun k hk => h'.vain k (h.vain k hk)⟩

theorem Kept.refl (x : RexSlots) : Kept x x := ⟨Spoils.refl x,fun _ _ => rfl⟩

theorem Kept.trans (h : Kept x y) (h' : Kept y z) : Kept x z :=
  ⟨h.toSpoils.trans h'.toSpoils,fun k hk => (h'.same k hk).trans (h.same k fun hy => hk (h'.vain k hy))⟩

theorem Kept.captured (h : Kept x y) (h' : Captured ns y z t) : Captured ns x z t :=
  ⟨h.toSpoils.trans h'.toSpoils,fun k l l' hk hl hl' =>
    h'.slots k l l' hk ((h.same k fun hy => hk (h'.vain k hy)).trans hl) hl'⟩

theorem captured_refl (x : RexSlots) : Captured ns x x [] := by
  refine ⟨Spoils.refl x,fun k l l' _ hl hl' => ?_⟩
  rw [hl] at hl'
  cases hl'
  exact ⟨Or.inl rfl,by simp⟩

theorem Captured.congr (h : Captured ns x y t) (ht : ∀ s ∈ t, s ∈ u) (hu : ∀ s ∈ u, s ∈ t ∨ ∀ k, ¬Numbered ns s.node k) :
    Captured ns x y u := by
  refine ⟨h.toSpoils,fun k l l' hk hl hl' => ?_⟩
  obtain ⟨hw,hv⟩ := h.slots k l l' hk hl hl'
  refine ⟨hw.imp_right fun hw => ⟨hw.1,hw.2.imp fun s hs => ⟨ht s hs.1,hs.2⟩⟩,fun s hs hnum => ?_⟩
  rcases hu s hs with hs | hs
  · exact hv s hs hnum
  · exact absurd hnum (hs k)

/-! ## Writes -/

theorem free_eq (h : x.locs[k]? = some l) : x.free k = !l.valid := by
  rw [RexSlots.free,h]

theorem record_vain : (x.record num start len).vain = x.vain := by
  unfold RexSlots.record
  split <;> rfl

theorem record_length : (x.record num start len).locs.length = x.locs.length := by
  unfold RexSlots.record
  split
  · exact List.length_set ..
  · rfl

theorem spoils_record (x : RexSlots) (num start len : ℕ) : Spoils x (x.record num start len) :=
  ⟨record_length,fun k hk => by rwa [record_vain]⟩

theorem record_other (h : k ≠ num) : (x.record num start len).locs[k]? = x.locs[k]? := by
  unfold RexSlots.record
  split
  · exact List.getElem?_set_ne h.symm
  · rfl

theorem record_here (h : x.locs[num]? = some l) :
    (x.record num start len).locs[num]? = some (if l.valid then l else ⟨true,start,len⟩) := by
  rw [RexSlots.record,free_eq h]
  cases hv : l.valid
  · simp [(List.getElem?_eq_some_iff.1 h).1]
  · simpa using h

theorem record_full (h : x.free num = false) : x.record num start len = x := by
  rw [RexSlots.record,h]
  rfl

theorem SlotOk.skip (h : SlotOk ns k t l l') (hs : ¬Numbered ns s.node k) : SlotOk ns k (s :: t) l l' := by
  refine ⟨h.written.imp_right fun hw => ⟨hw.1,hw.2.imp fun s hs => ⟨List.mem_cons_of_mem _ hs.1,hs.2⟩⟩,?_⟩
  exact List.forall_mem_cons.2 ⟨fun hnum => absurd hnum hs,h.valid⟩

theorem SlotOk.last (h : SlotOk ns k t l l') (hs : Numbered ns s.node k) :
    SlotOk ns k (s :: t) l (if l'.valid then l' else s.loc) := by
  cases hv : l'.valid
  · -- nothing was written before
    refine ⟨Or.inr ⟨?_,s,List.mem_cons_self,hs,if_neg nofun⟩,fun _ _ _ => rfl⟩
    rcases h.written with rfl | ⟨-,s',-,-,rfl⟩
    · exact hv
    · cases hv
  · refine ⟨h.written.imp_right fun hw => ⟨hw.1,hw.2.imp fun s hs => ⟨List.mem_cons_of_mem _ hs.1,hs.2⟩⟩,?_⟩
    exact fun _ _ _ => hv

theorem SlotOk.first (h : SlotOk ns k t (if l.valid then l else s.loc) l') (hs : Numbered ns s.node k) : SlotOk ns k (s :: t) l l' := by
  cases hv : l.valid
  · rw [hv,if_neg nofun] at h
    have hl' : l' = s.loc := by
      rcases h.written with h | ⟨h,-⟩
      · exact h
      · cases h
    rw [hl']
    exact ⟨Or.inr ⟨hv,s,List.mem_cons_self,hs,rfl⟩,fun _ _ _ => rfl⟩
  · rw [hv,if_pos rfl] at h
    have hl' : l' = l := by
      rcases h.written with h | ⟨h,-⟩
      · exact h
      · rw [hv] at h
        cases h
    rw [hl']
    exact ⟨Or.inl rfl,fun _ _ _ => hv⟩

theorem Spoils.slot (h : Spoils x y) (hl : x.locs[k]? = some l) : ∃ m, y.locs[k]? = some m := by
  have hlt := (List.getElem?_eq_some_iff.1 hl).1
  rw [← h.length] at hlt
  exact ⟨_,List.getElem?_eq_getElem hlt⟩

theorem Captured.record (h : Captured ns x y t) (hg : Numbered ns s.node num) (hnum : ∀ k, Numbered ns s.node k → k = num) :
    Captured ns x (y.record num s.start (s.stop - s.start)) (s :: t) := by
  refine ⟨h.toSpoils.trans (spoils_record ..),fun k l l' hk hl hl' => ?_⟩
  rw [record_vain] at hk
  by_cases hkn : k = num
  · subst hkn
    obtain ⟨m,hm⟩ := h.toSpoils.slot hl
    rw [record_here hm] at hl'
    cases hl'
    exact (h.slots k l m hk hl hm).last hg
  · rw [record_other hkn] at hl'
    exact (h.slots k l l' hk hl hl').skip fun hs => hkn (hnum k hs)

theorem Captured.recordFirst (h : Captured ns (x.record num s.start (s.stop - s.start)) y t) (hg : Numbered ns s.node num)
    (hnum : ∀ k, Numbered ns s.node k → k = num) : Captured ns x y (s :: t) := by
  refine ⟨(spoils_record ..).trans h.toSpoils,fun k l l' hk hl hl' => ?_⟩
  by_cases hkn : k = num
  · subst hkn
    exact (h.slots k _ l' hk (record_here hl) hl').first hg
  · exact (h.slots k l l' hk ((record_other hkn).trans hl) hl').skip fun hs => hkn (hnum k hs)

theorem kept_record (h : Kept (x.record num start len) y) :
    Kept x (if x.free num then { y with vain := num :: y.vain } else y) := by
  cases hf : x.free num
  · rw [record_full hf] at h
    exact h
  · refine ⟨⟨h.length.trans record_length,fun k hk => List.mem_cons_of_mem _ (h.vain k (by rwa [record_vain]))⟩,fun k hk => ?_⟩
    obtain ⟨hkn,hk⟩ := not_or.1 (mt List.mem_cons.2 hk)
    exact (h.same k hk).trans (record_other hkn)

end Catlib.Rex

/-! # The frames of rex_match

The frames are the same behind a call as before it, whatever its result: a frame that a group
made is gone, and the number of a repetition is put back.
-/
namespace Catlib.Rex

variable {ns : List RexNode} {str : List UInt8} {rec : RexFun} {i cur rep f : ℕ} {rxn : RexNode} {aux prev : List RexAux}
  {fr : RexAux} {x : RexSlots} {r : RexRet}

/-- A repetition of its own has only a string or a class. -/
def Repeats (ns : List RexNode) (a : Option ℕ) (rep : ℕ) : Prop :=
  rep = 0 ∨ ∃ i n, a = some i ∧ ns[i]? = some n ∧ (n.type = .string ∨ n.type = .cls)

/-- The calls of a function leave the frames as they are. -/
def KeepsAux (ns : List RexNode) (rec : RexFun) : Prop :=
  ∀ a cur rep aux x r, Repeats ns a rep → rec a cur rep aux x = some r → r.aux = aux

theorem KeepsAux.fresh (hrec : KeepsAux ns rec) {a : Option ℕ} (h : rec a cur 0 aux x = some r) : r.aux = aux :=
  hrec a cur 0 aux x r (Or.inl rfl) h

section Elem

variable (hn : ns[i]? = some rxn) (ht : rxn.type = .string ∨ rxn.type = .cls)
include hn ht

theorem rexNextRep_aux (hrec : KeepsAux ns rec) (h : rexNextRep rec i rxn cur rep aux x = some r) : r.aux = aux := by
  unfold rexNextRep at h
  split at h
  · exact hrec _ _ _ _ _ _ (Or.inr ⟨i,rxn,rfl,hn,ht⟩) h
  · cases h
    rfl

theorem rexNext_aux (hrec : KeepsAux ns rec) (h : rexNext rec i rxn cur rep aux x = some r) : r.aux = aux := by
  simp only [rexNext, Option.bind_eq_bind, Option.bind_eq_some_iff] at h
  obtain ⟨r₁,h1,h⟩ := h
  have hr₁ := rexNextRep_aux hn ht hrec h1
  split_ifs at h
  · cases h
    exact hr₁
  · exact (hrec.fresh h).trans hr₁
  · cases h
    exact hr₁

theorem rexMatchString_aux (hrec : KeepsAux ns rec) (h : rexMatchString str rec i rxn cur rep aux x = some r) : r.aux = aux := by
  unfold rexMatchString at h
  split_ifs at h
  · exact rexNext_aux hn ht hrec h
  · exact hrec.fresh h
  · cases h
    rfl

theorem rexMatchClass_aux (hrec : KeepsAux ns rec) (h : rexMatchClass str rec i rxn cur rep aux x = some r) : r.aux = aux := by
  unfold rexMatchClass at h
  split_ifs at h
  · exact rexNext_aux hn ht hrec h
  · exact hrec.fresh h
  · cases h
    rfl

end Elem

theorem rexMatchChoice_aux (hrec : KeepsAux ns rec) (h : rexMatchChoice rec rxn cur rep aux x = some r) : r.aux = aux := by
  unfold rexMatchChoice at h
  split at h
  · cases h
  simp only [Option.bind_eq_bind, Option.bind_eq_some_iff] at h
  obtain ⟨r₁,h1,h⟩ := h
  split at h
  · cases h
    exact hrec.fresh h1
  · exact (hrec.fresh h).trans (hrec.fresh h1)

@[simp] theorem setGrep_cons (k : ℕ) : setGrep k (fr :: prev) = { fr with grep := k } :: prev := rfl

theorem rexMatchGroupS_aux (hrec : KeepsAux ns rec) (h : rexMatchGroupS ns rec rxn cur rep aux x = some r) :
    r.aux = if rep = 0 then aux else setGrep (rep + 1) aux := by
  simp only [rexMatchGroupS, Option.bind_eq_bind, Option.bind_eq_some_iff] at h
  obtain ⟨r₁,h1,h⟩ := h
  have haux : (if rep = 0 then r₁.aux.tail else r₁.aux) = if rep = 0 then aux else setGrep (rep + 1) aux := by
    rw [hrec.fresh h1]
    split <;> rfl
  rw [haux] at h
  split at h
  · simp only [Option.bind_eq_some_iff] at h
    obtain ⟨o,-,rge,-,q,hq,h⟩ := h
    have haux' := hrec.fresh hq
    split at h
    · cases h
      exact haux'
    · cases h
      exact haux'
  · cases h
    rfl

theorem rexGroupRep_aux (hrec : KeepsAux ns rec) (h : rexGroupRep ns rec rxn cur fr prev x = some r) : r.aux = fr :: prev := by
  unfold rexGroupRep at h
  split at h
  · simp only [Option.bind_eq_bind, Option.bind_eq_some_iff] at h
    obtain ⟨o,-,rgs,-,q,hq,h⟩ := h
    cases h
    simp only [rexMatchGroupS_aux hrec hq]
    split <;> rfl
  · cases h
    rfl

theorem rexMatchGroupE_aux (hrec : KeepsAux ns rec) (h : rexMatchGroupE ns rec rxn cur fr prev x = some r) : r.aux = fr :: prev := by
  simp only [rexMatchGroupE, Option.bind_eq_bind, Option.bind_eq_some_iff] at h
  obtain ⟨r₁,h1,h⟩ := h
  have hr₁ := rexGroupRep_aux hrec h1
  split at h
  · cases h
    exact hr₁
  split at h
  · simp only [Option.bind_eq_some_iff] at h
    obtain ⟨q,hq,h⟩ := h
    cases h
    simp [hrec.fresh hq, hr₁]
  · cases h
    exact hr₁

theorem rexMatchRxn_some (h : rexMatchRxn ns str (f + 1) (some i) cur rep aux x = some r) :
    ∃ rxn fr prev, ns[i]? = some rxn ∧ aux = fr :: prev ∧
      match rxn.type with
      | .string => rexMatchString str (rexMatchRxn ns str f) i rxn cur rep aux x = some r
      | .cls => rexMatchClass str (rexMatchRxn ns str f) i rxn cur rep aux x = some r
      | .choice => rexMatchChoice (rexMatchRxn ns str f) rxn cur rep aux x = some r
      | .groupS => rexMatchGroupS ns (rexMatchRxn ns str f) rxn cur rep aux x = some r
      | .groupE => rexMatchGroupE ns (rexMatchRxn ns str f) rxn cur fr prev x = some r
      | .banchor => (if cur = 0 then rexMatchRxn ns str f rxn.next cur 0 aux x else some ⟨.nomatch,aux,x⟩) = some r
      | .eanchor => (if cur = str.length then rexMatchRxn ns str f rxn.next cur 0 aux x else some ⟨.nomatch,aux,x⟩) = some r := by
  simp only [rexMatchRxn, Option.bind_eq_bind, Option.bind_eq_some_iff] at h
  obtain ⟨rxn,hn,h⟩ := h
  cases aux with
  | nil => cases h
  | cons fr prev =>
    refine ⟨rxn,fr,prev,hn,rfl,?_⟩
    cases ht : rxn.type <;> simpa only [ht] using h

theorem rexMatchRxn_aux (f : ℕ) : KeepsAux ns (rexMatchRxn ns str f) := by
  induction f with
  | zero => exact fun _ _ _ _ _ _ _ h => by cases h
  | succ f ih =>
    intro a cur rep aux x r hrep h
    cases a with
    | none =>
      cases h
      rfl
    | some i =>
      obtain ⟨rxn,fr,prev,hn,rfl,h⟩ := rexMatchRxn_some h
      cases ht : rxn.type <;> simp only [ht] at h
      case string => exact rexMatchString_aux hn (Or.inl ht) ih h
      case cls => exact rexMatchClass_aux hn (Or.inr ht) ih h
      case choice => exact rexMatchChoice_aux ih h
      case groupE => exact rexMatchGroupE_aux ih h
      case groupS =>
        have hzero : rep = 0 := by
          rcases hrep with h0 | ⟨i',n,he,hn',ht'⟩
          · exact h0
          · cases he
            rw [hn] at hn'
            cases hn'
            rw [ht] at ht'
            rcases ht' with ht' | ht' <;> cases ht'
        exact (rexMatchGroupS_aux ih h).trans (if_pos hzero)
      case banchor =>
        split at h
        · exact ih.fresh h
        · cases h
          rfl
      case eanchor =>
        split at h
        · exact ih.fresh h
        · cases h
          rfl

end Catlib.Rex
