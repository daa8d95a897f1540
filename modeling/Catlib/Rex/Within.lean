import Catlib.Rex.Complete

/-! # A string with more behind it

The matcher does the same on a string and on one that goes on, as long as no node takes what is
behind the end, and no end anchor is looked at there.
-/
namespace Catlib.Rex

variable {ns : List RexNode} {u mem : List UInt8} {i j cur rep f p : ℕ} {n rgs rge : RexNode} {aux prev : List RexAux} {fr : RexAux}
  {x y : RexSlots} {r : RexRet} {c d : RexCall}

theorem Placed.cases {P : Prop} {a : Option ℕ} {es : List ℕ} (h : Placed ns es ⟨a,cur,rep,aux,x⟩) (hnull : a = none → P)
    (helem : ∀ i n fr prev, a = some i → aux = fr :: prev → ns[i]? = some n → n.type = .string ∨ n.type = .cls → Way ns n.next es.head? → P)
    (hanchor : ∀ i n fr prev, a = some i → aux = fr :: prev → ns[i]? = some n → n.type = .banchor ∨ n.type = .eanchor →
      Way ns n.next es.head? → P)
    (hchoice : ∀ i n fr prev, a = some i → aux = fr :: prev → rep = 0 → ns[i]? = some n → n.type = .choice → Way ns n.opt1 es.head? →
      Way ns n.opt2 es.head? → P)
    (hgroupS : ∀ i j rgs rge fr prev, a = some i → aux = fr :: prev → rep = 0 → Group ns i j rgs rge → Way ns rgs.next (some j) →
      Way ns rge.next es.head? → P)
    (hgroupE : ∀ i j rgs rge fr prev es', a = some j → aux = fr :: prev → es = j :: es' → Group ns i j rgs rge → Way ns rgs.next (some j) →
      Way ns rge.next es'.head? → 0 < fr.grep → Twins ns es' prev prev → P) : P := by
  obtain ⟨hw,hf,hrep⟩ := h
  obtain ⟨fr,prev,-,-,haux,-⟩ := hf.frames
  obtain rfl : aux = fr :: prev := haux
  have hzero : ∀ i n, a = some i → ns[i]? = some n → n.type ≠ .string → n.type ≠ .cls → rep = 0 := by
    rintro i n rfl hn h1 h2
    rcases hrep with h0 | ⟨i',n',hi,hn',ht⟩
    · exact h0
    · obtain rfl := Option.some.inj hi
      obtain rfl := Option.some.inj (hn.symm.trans hn')
      exact (ht.elim h1 h2).elim
  generalize he : es.head? = e at hw
  cases hw with
  | done =>
    cases hf with
    | nil => exact hnull he.symm
    | cons hg hb hw hpos hcount hf => exact hgroupE _ _ _ _ _ _ _ he.symm rfl rfl hg hb hw hpos.1 hf
  | null => exact hnull rfl
  | elem hn ht hw => exact helem _ _ _ _ rfl rfl hn (ht.imp_left And.left) (he ▸ hw)
  | anchor hn ht hw => exact hanchor _ _ _ _ rfl rfl hn ht (he ▸ hw)
  | choice hn ht h1 h2 =>
    exact hchoice _ _ _ _ rfl rfl (hzero _ _ rfl hn (by rw [ht]; exact nofun) (by rw [ht]; exact nofun)) hn ht (he ▸ h1) (he ▸ h2)
  | group hg hb hw =>
    exact hgroupS _ _ _ _ _ _ rfl rfl (hzero _ _ rfl hg.start (by rw [hg.groupS]; exact nofun) (by rw [hg.groupS]; exact nofun)) hg hb
      (he ▸ hw)

/-- The node of a call goes on differently when there is more behind the end. -/
def Overruns (ns : List RexNode) (u mem : List UInt8) (c : RexCall) : Prop :=
  ∃ i n, c.rxn = some i ∧ ns[i]? = some n ∧
    ((n.type = .string ∨ n.type = .cls) ∧ behind (u ++ mem) n c.cur ≠ behind u n c.cur ∨ n.type = .eanchor ∧ c.cur = u.length ∧ mem ≠ [])

/-- No call that comes of a call on the string overruns it. -/
structure Within (ns : List RexNode) (u mem : List UInt8) (c : RexCall) : Prop where
  placed : ∃ es, Placed ns es c
  le : c.cur ≤ u.length
  within : ∀ d, Reach ns u c d → ¬Overruns ns u mem d

theorem Within.calls (h : Within ns u mem c) (hd : Calls ns u c d) : Within ns u mem d := by
  obtain ⟨es,hes⟩ := h.placed
  refine ⟨hes.calls hd,?_,fun e he => h.within e (.head hd he)⟩
  have hle := h.le
  rcases hd.le with hcur | ⟨-,hcur⟩
  · omega
  · exact hcur

theorem Within.behind (h : Within ns u mem ⟨some i,cur,rep,aux,x⟩) (hn : ns[i]? = some n) (ht : n.type = .string ∨ n.type = .cls) :
    behind (u ++ mem) n cur = behind u n cur := by
  by_contra hne
  exact h.within _ .refl ⟨i,n,rfl,hn,Or.inl ⟨ht,hne⟩⟩

theorem Within.anchored (h : Within ns u mem ⟨some i,cur,rep,aux,x⟩) (hn : ns[i]? = some n) :
    Anchored (u ++ mem) n cur ↔ Anchored u n cur := by
  refine and_congr_right fun _ => forall_congr' fun ht => ?_
  have hle : cur ≤ u.length := h.le
  rw [List.length_append]
  by_cases hmem : mem = []
  · rw [hmem,List.length_nil,Nat.add_zero]
  · have hpos := List.length_pos_iff.2 hmem
    have hne : cur ≠ u.length := fun hcur => h.within _ .refl ⟨i,n,rfl,hn,Or.inr ⟨ht,hcur,hmem⟩⟩
    omega

/-- The calls with some fuel do not see what is behind the string. -/
def Blind (ns : List RexNode) (u mem : List UInt8) (f : ℕ) : Prop :=
  ∀ c, Within ns u mem c → c.run ns (u ++ mem) f = c.run ns u f

section Step

variable (ih : Blind ns u mem f)
include ih

theorem elem_blind (h : Within ns u mem ⟨some i,cur,rep,fr :: prev,x⟩) (hn : ns[i]? = some n) (ht : n.type = .string ∨ n.type = .cls) :
    RexCall.run ns (u ++ mem) (f + 1) ⟨some i,cur,rep,fr :: prev,x⟩ = RexCall.run ns u (f + 1) ⟨some i,cur,rep,fr :: prev,x⟩ := by
  have hb := h.behind hn ht
  cases hp : behind u n cur with
  | none =>
    rw [RexCall.run,RexCall.run,rexMatchRxn_misfit hn ht hp,rexMatchRxn_misfit hn ht (hb.trans hp)]
    split
    · rename_i hmin
      obtain ⟨hmin,hrep⟩ := hmin
      have hcall : Calls ns u ⟨some i,cur,rep,fr :: prev,x⟩ ⟨n.next,cur,0,fr :: prev,x⟩ := by
        rw [show rep = 0 from hrep]
        exact .none hn ht hp hmin
      exact ih _ (h.calls hcall)
    · rfl
  | some p =>
    have hrep : Repeats ns (some i) (rep + 1) := Or.inr ⟨i,n,rfl,hn,ht⟩
    rw [RexCall.run,RexCall.run,rexMatchRxn_elem hn ht hp,rexMatchRxn_elem hn ht (hb.trans hp),rexNext,rexNext]
    have hsame : rexNextRep (rexMatchRxn ns (u ++ mem) f) i n p (rep + 1) (fr :: prev) x =
        rexNextRep (rexMatchRxn ns u f) i n p (rep + 1) (fr :: prev) x := by
      rw [rexNextRep,rexNextRep]
      split
      · rename_i hmore
        exact ih _ (h.calls (.again hn ht hp hmore))
      · rfl
    rw [show rexNextRep (rexMatchRxn ns (u ++ mem) f) i n p (rep + 1) (fr :: prev) x = _ from hsame]
    refine Option.bind_congr fun r₁ h1 => ?_
    by_cases hne : r₁.rv ≠ .nomatch
    · rw [if_pos hne,if_pos hne]
    rw [if_neg hne,if_neg hne]
    by_cases hmin : rep + 1 ≥ n.repmin
    · rw [if_pos hmin,if_pos hmin]
      have htried : Tried ns u (n.repmax = rexWildcard ∨ rep + 1 < n.repmax) ⟨some i,p,rep + 1,fr :: prev,x⟩ r₁.slots ∧
          r₁.aux = fr :: prev := by
        rw [rexNextRep] at h1
        split at h1
        · rename_i hmore
          have haux : r₁.aux = fr :: prev := rexMatchRxn_aux f _ _ _ _ _ _ hrep h1
          exact ⟨Or.inl ⟨hmore,fails_of_run h1 hne haux⟩,haux⟩
        · rename_i hmore
          cases h1
          exact ⟨Or.inr ⟨hmore,rfl⟩,rfl⟩
      rw [htried.2]
      exact ih _ (h.calls (.next hn ht hp hmin htried.1))
    · rw [if_neg hmin,if_neg hmin]

theorem anchor_blind (h : Within ns u mem ⟨some i,cur,rep,fr :: prev,x⟩) (hn : ns[i]? = some n)
    (ht : n.type = .banchor ∨ n.type = .eanchor) :
    RexCall.run ns (u ++ mem) (f + 1) ⟨some i,cur,rep,fr :: prev,x⟩ = RexCall.run ns u (f + 1) ⟨some i,cur,rep,fr :: prev,x⟩ := by
  by_cases ha : Anchored u n cur
  · rw [RexCall.run,RexCall.run,rexMatchRxn_anchor hn ht ha,rexMatchRxn_anchor hn ht ((h.anchored hn).2 ha)]
    exact ih _ (h.calls (.anchor hn ht ha))
  · rw [RexCall.run,RexCall.run,rexMatchRxn_unanchored hn ht ha,rexMatchRxn_unanchored hn ht fun ha' => ha ((h.anchored hn).1 ha')]

theorem choice_blind (h : Within ns u mem ⟨some i,cur,0,fr :: prev,x⟩) (hn : ns[i]? = some n) (ht : n.type = .choice) :
    RexCall.run ns (u ++ mem) (f + 1) ⟨some i,cur,0,fr :: prev,x⟩ = RexCall.run ns u (f + 1) ⟨some i,cur,0,fr :: prev,x⟩ := by
  rw [RexCall.run,RexCall.run,rexMatchRxn_choice hn ht,rexMatchRxn_choice hn ht,
    show rexMatchRxn ns (u ++ mem) f n.opt1 cur 0 (fr :: prev) x = _ from ih _ (h.calls (.opt1 hn ht))]
  refine Option.bind_congr fun r₁ h1 => ?_
  by_cases hne : r₁.rv ≠ .nomatch
  · rw [if_pos hne,if_pos hne]
  · have haux : r₁.aux = fr :: prev := (rexMatchRxn_aux f).fresh h1
    rw [if_neg hne,if_neg hne,haux]
    exact ih _ (h.calls (.opt2 hn ht (fails_of_run h1 hne haux)))

theorem groupS_blind (h : Within ns u mem ⟨some i,cur,0,fr :: prev,x⟩) (hg : Group ns i j rgs rge) :
    RexCall.run ns (u ++ mem) (f + 1) ⟨some i,cur,0,fr :: prev,x⟩ = RexCall.run ns u (f + 1) ⟨some i,cur,0,fr :: prev,x⟩ := by
  rw [RexCall.run,RexCall.run,rexMatchRxn_groupS hg,rexMatchRxn_groupS hg,
    show rexMatchRxn ns (u ++ mem) f rgs.next cur 0 (⟨cur,1⟩ :: fr :: prev) x = _ from ih _ (h.calls (.body hg))]
  refine Option.bind_congr fun r₁ h1 => ?_
  by_cases hs : r₁.rv = .nomatch ∧ rgs.repmin = 0
  · have haux : r₁.aux = ⟨cur,1⟩ :: fr :: prev := (rexMatchRxn_aux f).fresh h1
    have hfail : Fails ns u ⟨rgs.next,cur,0,⟨cur,1⟩ :: fr :: prev,x⟩ r₁.slots := fails_of_run h1 (not_not.2 hs.1) haux
    rw [if_pos hs,if_pos hs,show rexMatchRxn ns (u ++ mem) f rge.next cur 0 (fr :: prev) (r₁.slots.record rgs.num cur 0) = _ from
      ih _ (h.calls (.skip hg hs.2 hfail))]
    rfl
  · rw [if_neg hs,if_neg hs]

theorem groupRep_blind (h : Within ns u mem ⟨some j,cur,rep,fr :: prev,x⟩) (hg : Group ns i j rgs rge) (hpos : 0 < fr.grep) :
    rexGroupRep ns (rexMatchRxn ns (u ++ mem) f) rge cur fr prev x = rexGroupRep ns (rexMatchRxn ns u f) rge cur fr prev x := by
  rw [rexGroupRep_eq hg hpos,rexGroupRep_eq hg hpos]
  split
  · rename_i hmore
    exact congrArg _ (ih _ (h.calls (.more hg hpos hmore)))
  · rfl

theorem groupE_blind (h : Within ns u mem ⟨some j,cur,rep,fr :: prev,x⟩) (hg : Group ns i j rgs rge) (hpos : 0 < fr.grep) :
    RexCall.run ns (u ++ mem) (f + 1) ⟨some j,cur,rep,fr :: prev,x⟩ = RexCall.run ns u (f + 1) ⟨some j,cur,rep,fr :: prev,x⟩ := by
  rw [RexCall.run,RexCall.run,rexMatchRxn_groupE hg,rexMatchRxn_groupE hg]
  dsimp only
  rw [groupRep_blind ih h hg hpos]
  refine Option.bind_congr fun r₁ h1 => ?_
  by_cases hne : r₁.rv ≠ .nomatch
  · rw [if_pos hne,if_pos hne]
  rw [if_neg hne,if_neg hne]
  by_cases hmin : fr.grep ≥ rge.repmin
  · have htried : Tried ns u (rge.repmax = rexWildcard ∨ fr.grep < rge.repmax)
        ⟨rgs.next,cur,0,{ fr with grep := fr.grep + 1 } :: prev,x⟩ r₁.slots := by
      rw [rexGroupRep_eq hg hpos] at h1
      split at h1
      · rename_i hmore
        rw [Option.map_eq_some_iff] at h1
        obtain ⟨r₂,h2,rfl⟩ := h1
        have haux : r₂.aux = { fr with grep := fr.grep + 1 } :: prev := (rexMatchRxn_aux f).fresh h2
        exact Or.inl ⟨hmore,fails_of_run (r := r₂) h2 hne haux⟩
      · rename_i hmore
        cases h1
        exact Or.inr ⟨hmore,rfl⟩
    rw [if_pos hmin,if_pos hmin,show rexMatchRxn ns (u ++ mem) f rge.next cur 0 prev r₁.slots = _ from
      ih _ (h.calls (.leave hg hpos hmin htried))]
    rfl
  · rw [if_neg hmin,if_neg hmin]

end Step

theorem blind_succ (ih : Blind ns u mem f) : Blind ns u mem (f + 1) := by
  rintro ⟨a,cur,rep,aux,x⟩ h
  obtain ⟨es,hp⟩ := h.placed
  refine hp.cases ?_ ?_ ?_ ?_ ?_ ?_
  · rintro rfl
    rfl
  · rintro i n fr prev rfl rfl hn ht -
    exact elem_blind ih h hn ht
  · rintro i n fr prev rfl rfl hn ht -
    exact anchor_blind ih h hn ht
  · rintro i n fr prev rfl rfl rfl hn ht - -
    exact choice_blind ih h hn ht
  · rintro i j rgs rge fr prev rfl rfl rfl hg - -
    exact groupS_blind ih h hg
  · rintro i j rgs rge fr prev es' rfl rfl - hg - - hpos -
    exact groupE_blind ih h hg hpos

theorem blind_all (f : ℕ) : Blind ns u mem f := by
  induction f with
  | zero => exact fun _ _ => rfl
  | succ f ih => exact blind_succ ih

end Catlib.Rex
