import Catlib.Rex.Groups

/-! # The steps of the parser

Each function of the parser keeps the invariant, and the end of the pattern finds it.
-/
namespace Catlib.Rex

variable {ns ns' : List RexNode} {n : RexNode} {r slot : Loc} {os : List ℕ} {pat s : List UInt8} {i g c d lo p : ℕ}
  {gs lc : Option ℕ} {x : RexSt} {empty : Bool}

/-! ## A choice -/

/-- The link that a choice goes to. -/
def slotOf (g : ℕ) : Option ℕ → Loc
  | none => .next g
  | some c => .opt2 c

theorem Levels.hasSlot (h : Levels ns d gs lc os) (hw : Wired ns r os) (hr : ¬Walked ns r) :
    Slot ns (slotOf (gs.getD 0) lc) r os := by
  cases h with
  | top h =>
    cases lc with
    | none => exact ⟨hw,hr,hw.start,by rintro ⟨⟩,Or.inr rfl⟩
    | some c => exact ⟨hw,hr,(h c rfl).type,by rintro ⟨⟩,Or.inl (by simp [slotOf, Loc.idx])⟩
  | group hg hgs hout htop hos h =>
    cases lc with
    | none => exact ⟨hw,hr,hg,by rintro ⟨⟩,Or.inl (by simp [slotOf, Loc.idx])⟩
    | some c => exact ⟨hw,hr,Last.type h,by rintro ⟨⟩,Or.inl (by simp [slotOf, Loc.idx])⟩

theorem Slot.alt (h : Slot ns slot r os) (hlo : lo ≤ max slot.idx 1) : Alt (branch ns slot r (link ns slot)) lo ns.length := by
  obtain ⟨j,hj,hsj,hone,hjlt⟩ := h.first
  have hlink := h.links_branch (link ns slot)
  have hup : ∀ i j, link ns (.next i) = some j → i < j ∧ j < ns.length := by
    intro i j hij
    obtain ⟨h1,-,h3⟩ := h.wired.up _ j hij
    exact ⟨h3.resolve_left nofun,h1⟩
  obtain ⟨t,ht,hp⟩ := exists_path hup hjlt
  refine ⟨by rw [typeOf_branch,if_pos rfl],j,t,by rw [hlink,if_pos rfl,hj],by omega,hp.frame fun i hi _ => ?_,ht⟩
  rw [hlink,if_neg nofun,if_neg (by rintro rfl; exact absurd hsj (not_lt.2 hi))]

theorem Last.branch (hs : Slot ns (slotOf g lc) r os) (h : ∀ c, lc = some c → Last ns g c) :
    Last (branch ns (slotOf g lc) r (link ns (slotOf g lc))) g ns.length := by
  have hlink := hs.links_branch (link ns (slotOf g lc))
  have hlt : (slotOf g lc).idx < ns.length := by
    obtain ⟨j,hj,-⟩ := hs.first
    exact link_lt hj
  refine ⟨?_,fun o ho => ?_⟩
  · cases lc with
    | none =>
      refine ⟨ns.length,?_,.last (hs.alt le_rfl)⟩
      rw [hlink,if_neg nofun]
      exact if_pos rfl
    | some c =>
      obtain ⟨i,hi,hchain⟩ := (h c rfl).chain
      change c < ns.length at hlt
      have hkeep : ∀ l : Loc, l.idx < ns.length → l ≠ .opt2 c →
          link (Rex.branch ns (slotOf g (some c)) r (link ns (slotOf g (some c)))) l = link ns l := fun l hl hne => by
        rw [hlink,if_neg (by rintro rfl; exact lt_irrefl _ hl),if_neg (show l ≠ slotOf g (some c) from hne)]
      refine ⟨i,by rw [hkeep _ (link_lt hi) nofun,hi],Chain.snoc (c := c) ?_ ?_ (hs.alt (le_max_left _ _))⟩
      · refine hchain.frame (fun k _ hk => by rw [typeOf_branch,if_neg (by omega)]) fun l _ hl => hkeep l ?_ ?_
        · rcases hl with hl | rfl
          · omega
          · exact hlt
        · rcases hl with hl | rfl
          · rintro rfl
            exact lt_irrefl _ hl
          · exact nofun
      · rw [hlink,if_neg nofun]
        exact if_pos rfl
  · rw [hlink,if_neg nofun,if_neg (by intro he; rw [← he] at hlt; exact lt_irrefl _ hlt),link_of_ge le_rfl] at ho
    cases ho

theorem Levels.branch (h : Levels ns d gs lc os) (hw : Wired ns r os) (hr : ¬Walked ns r) :
    ∃ os', (∀ o ∈ os', o = ns.length ∨ o ∈ os ∧ o ≤ (slotOf (gs.getD 0) lc).idx) ∧
      Levels (branch ns (slotOf (gs.getD 0) lc) r (link ns (slotOf (gs.getD 0) lc))) d gs (some ns.length) os' := by
  have hs := h.hasSlot hw hr
  cases h with
  | top h =>
    have hlast := Last.branch hs h
    have htop : Levels (Rex.branch ns (slotOf 0 lc) r (link ns (slotOf 0 lc))) 0 none (some ns.length) (some ns.length).toList :=
      .top fun c hc => by
        cases hc
        exact hlast
    exact ⟨[ns.length],by simp,htop⟩
  | @group d g gs lc' _ os hg hgs hout htop hos h =>
    have hlast : ∀ c, lc = some c → Last ns g c := by
      rintro c rfl
      exact h
    have hge : g ≤ (slotOf g lc).idx := by
      cases lc with
      | none => exact le_rfl
      | some c =>
        obtain ⟨i,-,hchain⟩ := (hlast c rfl).chain
        have := hchain.le
        change g ≤ c
        omega
    have hglt := typeOf_lt hg
    change Slot ns (slotOf g lc) r _ at hs
    have hlink := hs.links_branch (link ns (slotOf g lc))
    have hag : Agree ns (Rex.branch ns (slotOf g lc) r (link ns (slotOf g lc))) g := by
      refine agree_of_links (fun l hl => ?_) (fun i hi => ?_) fun i _ hi => ?_
      · rw [hlink,if_neg (by rintro rfl; exact absurd hl (not_lt.2 hglt.le)),if_neg (by rintro rfl; omega)]
      · rw [typeOf_branch,if_neg (by omega)]
      · rw [otherOf_branch,if_neg (by omega)]
    have hout' := hout.agree hag (fun l j hl => (hw.up l j hl).1) hos
    have hg' : typeOf (Rex.branch ns (slotOf g lc) r (link ns (slotOf g lc))) g = some .groupS := by
      rw [typeOf_branch,if_neg (by omega)]
      exact hg
    have hgs' : otherOf (Rex.branch ns (slotOf g lc) r (link ns (slotOf g lc))) g = gs := by
      rw [otherOf_branch,if_neg (by omega)]
      exact hgs
    have hlev : Level (Rex.branch ns (slotOf g lc) r (link ns (slotOf g lc))) g (some ns.length) := Last.branch hs hlast
    refine ⟨ns.length :: g :: os,?_,Levels.group hg' hgs' hout' htop hos hlev⟩
    · intro o ho
      rcases List.mem_cons.1 ho with rfl | ho
      · exact Or.inl rfl
      · refine Or.inr ⟨List.mem_append_right _ ho,?_⟩
        rcases List.mem_cons.1 ho with rfl | ho
        · exact hge
        · exact (hos o ho).le.trans hge

/-! ## The invariant -/

/-- The state of the parser with `d` open groups, in an alternative that is empty so far or not. -/
def Inv (x : RexSt) (d : ℕ) (empty : Bool) : Prop :=
  ∃ os, Wired x.nodes x.rxnn os ∧ Levels x.nodes d x.gstack x.lastch os ∧ (empty = false → ¬Walked x.nodes x.rxnn)

theorem link_rexGroups (l : Loc) : link rexGroups l = none := by
  rcases l with i | i | i <;> rcases i with _ | _ | i <;> rfl

theorem typeOf_rexGroups : typeOf rexGroups i = if i = 0 then some .groupS else if i = 1 then some .groupE else none := by
  rcases i with _ | _ | i <;> rfl

theorem inv_start : Inv ⟨0,.next 0,rexGroups,none,none,0⟩ 0 true := by
  refine ⟨[],⟨rfl,rfl,?_,?_,rfl,by decide,by simp,?_⟩,.top nofun,nofun⟩
  · intro l j hl
    rw [link_rexGroups] at hl
    cases hl
  · intro l hw hne
    cases l with
    | next i =>
      change typeOf rexGroups i = _ at hw
      rw [typeOf_rexGroups] at hw
      split at hw
      · rename_i hi
        exact absurd (congrArg Loc.next hi) hne
      · split at hw <;> cases hw
    | opt1 i =>
      change typeOf rexGroups i = _ at hw
      rw [typeOf_rexGroups] at hw
      split_ifs at hw <;> cases hw
    | opt2 i =>
      change typeOf rexGroups i = _ at hw
      rw [typeOf_rexGroups] at hw
      split_ifs at hw <;> cases hw
  · intro c hc
    rw [typeOf_rexGroups] at hc
    split_ifs at hc <;> cases hc

theorem Inv.append (h : Inv x d empty) (hn : Plain n) (p : ℕ) (e : Bool) : Inv (x.append n p) d e := by
  obtain ⟨os,hw,hl,-⟩ := h
  have hf := fills_grow hw.hole_lt hn.blank hn.choice
  refine ⟨os,hw.grow hn.blank hn.choice,hl.agree (hf.agree hw.hole) (fun l j hj => (hw.up l j hj).1) ?_,fun _ hwalk => ?_⟩
  · exact fun o ho => Nat.lt_succ_of_le (hw.open_le o ho)
  · change typeOf (grow x.nodes x.rxnn n) x.nodes.length = _ at hwalk
    rw [typeOf_grow,if_pos rfl] at hwalk
    exact hn.groupS (Option.some.inj hwalk)

theorem Inv.appends {y : RexSt} (h : Inv x d empty) (ha : Appends x y) : Inv y d false := by
  cases ha with
  | one hn => exact h.append hn _ false
  | two hn hn' => exact (h.append hn _ false).append hn' _ false

theorem Wired.valid (hw : Wired ns r os) (l : Loc) (j : ℕ) (hl : link ns l = some j) : j < ns.length := (hw.up l j hl).1

theorem Levels.outer (h : Levels ns d gs lc os) :
    ∃ lc' os', (∀ o ∈ os', o ∈ os) ∧ Levels ns d gs lc' os' ∧ (gs = none → lc' = none) := by
  cases h with
  | top => exact ⟨none,[],by simp,.top nofun,fun _ => rfl⟩
  | group hg hgs hout htop hos h => exact ⟨lc,_,fun _ ho => ho,.group hg hgs hout htop hos h,nofun⟩

theorem rexParseGroupS_inv (h : Inv x d empty) : Inv (rexParseGroupS x) (d + 1) true := by
  obtain ⟨os,hw,hl,-⟩ := h
  obtain ⟨lc,os',hsub,hl',htop⟩ := hl.outer
  have hn : Blank { type := .groupS, num := x.gnum + 1, other := x.gstack } := ⟨rfl,rfl,rfl⟩
  have hf := fills_grow hw.hole_lt hn nofun
  have hw' := (hw.grow hn nofun).mono hsub
  have hnodes : (rexParseGroupS x).nodes = grow x.nodes x.rxnn { type := .groupS, num := x.gnum + 1, other := x.gstack } := rfl
  have hlt : ∀ o ∈ os', o < x.nodes.length := fun o ho => (hw.open_le o (hsub o ho)).trans_lt hw.hole_lt
  have hg : typeOf (rexParseGroupS x).nodes x.nodes.length = some .groupS := by rw [hnodes,typeOf_grow,if_pos rfl]
  have hgs : otherOf (rexParseGroupS x).nodes x.nodes.length = x.gstack := by rw [hnodes,otherOf_grow,if_pos rfl]
  have hout : Levels (rexParseGroupS x).nodes d x.gstack lc os' :=
    hl'.agree (hf.agree hw.hole) hw.valid fun o ho => Nat.lt_succ_of_le (hw.open_le o (hsub o ho))
  have hlev : Level (rexParseGroupS x).nodes x.nodes.length none := by
    intro j hj
    rw [hnodes,hw'.hole] at hj
    cases hj
  exact ⟨_,hw'.push (by rw [length_grow]; rfl),Levels.group hg hgs hout htop hlt hlev,nofun⟩

theorem rexParseChoice_inv (h : Inv x d false) : ∃ y, rexParseChoice x = some y ∧ y.p = x.p + 1 ∧ Inv y d true := by
  obtain ⟨os,hw,hl,hplain⟩ := h
  have hs := hl.hasSlot hw (hplain rfl)
  obtain ⟨os',hos,hl'⟩ := hl.branch hw (hplain rfl)
  obtain ⟨j,hj,-⟩ := hs.first
  have hget : getLink x.nodes (slotOf (x.gstack.getD 0) x.lastch) = some (link x.nodes (slotOf (x.gstack.getD 0) x.lastch)) :=
    getLink_eq (link_lt hj)
  have hrun : rexParseChoice x = some { x with
      p := x.p + 1, rxnn := .opt2 x.nodes.length,
      nodes := branch x.nodes (slotOf (x.gstack.getD 0) x.lastch) x.rxnn (link x.nodes (slotOf (x.gstack.getD 0) x.lastch)),
      lastch := some x.nodes.length } := by
    cases hc : x.lastch <;> rw [hc] at hget <;> simp only [rexParseChoice, hc, slotOf] at hget ⊢ <;> rw [hget] <;> rfl
  exact ⟨_,hrun,rfl,os',Wired.branch hs hos,hl',nofun⟩

/-! ## The end of a group -/

theorem finalizeChoices_spec {hi : ℕ} (rge : ℕ) (hlast : ∀ c, lc = some c → Last ns g c ∧ c < hi ∧
    ∃ o, link ns (.opt2 c) = some o ∧ o < ns.length) :
    ∃ ns', finalizeChoices ns g rge lc = some ns' ∧ Filled ns ns' g hi rge := by
  cases lc with
  | none => exact ⟨ns,rfl,Filled.refl ns g hi rge⟩
  | some c =>
    obtain ⟨⟨⟨i,hi',hchain⟩,hrest⟩,hc,o,ho,hlt⟩ := hlast c rfl
    have hle := hchain.le
    have hclt := hchain.lt
    have hB : g ≤ max g 1 + 1 := by omega
    have hk : c - i + 1 < ns.length + 1 := by omega
    obtain ⟨ns',hloop,hf⟩ := finalize_chain rge hchain hB hc ho hlt (hrest o ho) hk
    obtain ⟨m,hm,-,hnext,-⟩ := node_of_lt (link_lt hi')
    obtain ⟨k,hk,htype,-⟩ := node_of_type hchain.head.type
    rw [show (Loc.next g).idx = g from rfl] at hm hnext
    refine ⟨ns',?_,hf⟩
    simp only [finalizeChoices, hm, hnext, hi', hk, htype, Option.bind_eq_bind, Option.bind_some, if_true]
    exact hloop

theorem lastChoice_spec (hw : Wired ns r os) (h : Levels ns d gs lc os) (htop : gs = none → lc = none)
    (hfilled : ∀ l, Walked ns l → ∃ j, link ns l = some j) : lastChoice ns gs = some lc := by
  cases h with
  | top => rw [htop rfl,lastChoice]
  | @group d g gs _ _ os hg hgs hout htop' hos h =>
    obtain ⟨i,hi⟩ := hfilled (.next g) hg
    obtain ⟨n,hn,-,hnext,-⟩ := node_of_type hg
    obtain ⟨m,hm,htype,-⟩ := node_of_lt (hw.valid _ i hi)
    simp only [lastChoice, hn, hnext, hi, hm, Option.bind_eq_bind, Option.bind_some]
    cases lc with
    | none =>
      have hne : m.type ≠ .choice := fun he => h i hi (htype.trans (congrArg some he))
      rw [if_neg hne]
      rfl
    | some c =>
      obtain ⟨⟨i',hi',hchain⟩,hrest⟩ := h
      rw [hi] at hi'
      cases hi'
      obtain ⟨o,ho⟩ := hfilled (.opt2 c) (Last.type ⟨⟨i,hi,hchain⟩,hrest⟩)
      have hclt := hchain.lt
      have hm' : m.type = .choice := by
        rw [hchain.head.type] at htype
        exact (Option.some.inj htype).symm
      rw [if_pos hm',last_chain hchain ho (hw.valid _ o ho) (hrest o ho) (by omega)]
      rfl

theorem link_modify (f : RexNode → RexNode) (hf : ∀ n, ns[i]? = some n → ∀ l, (f n).link l = n.link l) (l : Loc) :
    link (ns.modify i f) l = link ns l := by
  simp only [link, List.getElem?_modify]
  split
  · rename_i hik
    subst hik
    cases hn : ns[l.idx]? with
    | none => rfl
    | some n => exact hf n hn l
  · simp

theorem filled_modify {B hi rge : ℕ} (f : RexNode → RexNode) (hB : B ≤ i)
    (hf : ∀ n, ns[i]? = some n → (f n).type = n.type ∧ ∀ l, (f n).link l = n.link l) : Filled ns (ns.modify i f) B hi rge := by
  refine ⟨List.length_modify ..,fun k => ?_,fun k hk => ?_,fun l => Or.inl (link_modify f (fun n hn => (hf n hn).2) l)⟩
  · simp only [typeOf, List.getElem?_modify]
    split
    · rename_i hik
      subst hik
      cases hn : ns[i]? with
      | none => rfl
      | some n => exact congrArg some (hf n hn).1
    · simp
  · simp only [otherOf, List.getElem?_modify, if_neg (show i ≠ k by omega)]
    simp

theorem Last.congr (h : Last ns g c) (hl : ∀ l, link ns' l = link ns l) (ht : ∀ i, typeOf ns' i = typeOf ns i) : Last ns' g c := by
  obtain ⟨⟨i,hi,hchain⟩,hrest⟩ := h
  refine ⟨⟨i,(hl _).trans hi,hchain.frame (fun k _ _ => ht k) fun l _ _ => hl l⟩,fun o ho => ?_⟩
  rw [hl] at ho
  rw [ht]
  exact hrest o ho

theorem filled_set {B hi rge : ℕ} {m : RexNode} (hn : ns[i]? = some n) (hs : SameNode n m) (hB : B ≤ i) :
    Filled ns (ns.set i m) B hi rge := by
  have hset : ns.set i m = ns.modify i fun _ => m := by
    apply List.ext_getElem?
    intro k
    rw [List.getElem?_set,List.getElem?_modify]
    split
    · rename_i hik
      subst hik
      rw [hn,if_pos (List.getElem?_eq_some_iff.1 hn).1]
      rfl
    · simp
  rw [hset]
  refine filled_modify _ hB fun n' hn' => ?_
  rw [hn] at hn'
  cases hn'
  refine ⟨hs.type,fun l => ?_⟩
  cases l with
  | next => exact hs.next
  | opt1 => exact hs.opt1
  | opt2 => exact hs.opt2

theorem rexParseGroupE_outside (h : Inv x 0 empty) : rexParseGroupE pat x = some (.error x.p) := by
  obtain ⟨os,hw,hl,-⟩ := h
  have hgs : x.gstack = none := by
    generalize x.gstack = gs at hl
    cases hl
    rfl
  rw [rexParseGroupE,hgs]

theorem groupE_table (hw : Wired ns r (lc.toList ++ g :: os)) (hout : Levels ns d gs lc' os)
    (htop : gs = none → lc' = none) (hos : ∀ o ∈ os, o < g) (hlev : Level ns g lc) (hn : Plain n) :
    ∃ ns', finalizeChoices ((grow ns r n).modify g fun m => { m with other := some ns.length }) g ns.length lc = some ns' ∧
      Wired ns' (.next ns.length) os ∧ Levels ns' d gs lc' os ∧ lastChoice ns' gs = some lc' ∧
      typeOf ns' ns.length = some n.type := by
  have hf := fills_grow hw.hole_lt hn.blank hn.choice
  have hag := hf.agree hw.hole
  have hone := hw.one_lt
  have hle : ∀ o ∈ lc.toList ++ g :: os, o < r.idx + 1 := fun o ho => Nat.lt_succ_of_le (hw.open_le o ho)
  have hgle := hle g (by simp)
  have hw1 := hw.grow hn.blank hn.choice
  have hout1 := hout.agree hag hw.valid fun o ho => hle o (by simp [ho])
  have hlev1 := hlev.agree hag hw.valid hgle fun c hc => hle c (List.mem_append_left _ hc)
  have htype1 : typeOf (grow ns r n) ns.length = some n.type := by rw [typeOf_grow,if_pos rfl]
  have hlen1 : (grow ns r n).length = ns.length + 1 := length_grow
  generalize grow ns r n = ns1 at *
  have hf2 : Filled ns1 (ns1.modify g fun m => { m with other := some ns.length }) g ns.length ns.length :=
    filled_modify _ le_rfl fun m _ => ⟨rfl,fun l => by cases l <;> rfl⟩
  have hl2 : ∀ l, link (ns1.modify g fun m => { m with other := some ns.length }) l = link ns1 l :=
    link_modify _ fun m _ l => by cases l <;> rfl
  have hw2 := hw1.filledBy hone hf2
  generalize ns1.modify g (fun m => { m with other := some ns.length }) = ns2 at *
  have hfilled2 : ∀ l, Walked ns2 l → ∃ j, link ns2 l = some j := by
    intro l hwl
    refine hw2.filled l hwl ?_
    rintro rfl
    change typeOf ns2 ns.length = _ at hwl
    rw [hf2.type,htype1] at hwl
    exact hn.groupS (Option.some.inj hwl)
  have hlast : ∀ c, lc = some c → Last ns2 g c ∧ c < ns.length ∧ ∃ o, link ns2 (.opt2 c) = some o ∧ o < ns2.length := by
    rintro c rfl
    have hlast2 : Last ns2 g c := Last.congr hlev1 hl2 hf2.type
    obtain ⟨o,ho⟩ := hfilled2 (.opt2 c) hlast2.type
    have hc := hw.open_le c (by simp)
    have hr := hw.hole_lt
    exact ⟨hlast2,by omega,o,ho,hw2.valid _ o ho⟩
  obtain ⟨ns3,hrun,hf3⟩ := finalizeChoices_spec ns.length hlast
  have hw3 : Wired ns3 (.next ns.length) os := (hw2.filledBy hone hf3).mono fun o ho => by simp [ho]
  have hout3 := hout1.agree (hf2.trans hf3).agree hw1.valid hos
  refine ⟨ns3,hrun,hw3,hout3,lastChoice_spec hw3 hout3 htop fun l hwl => ?_,by rw [hf3.type,hf2.type,htype1]⟩
  have hwl' := (walked_congr (hf3.type l.idx)).1 hwl
  obtain ⟨j,hj⟩ := hfilled2 l hwl'
  exact ⟨j,hf3.walked hwl' hj⟩

theorem rexParseGroupE_spec (h : Inv x (d + 1) empty) (hat : At pat (x.p + 1) s) :
    match scanRep s with
    | .go t => ∃ y, rexParseGroupE pat x = some (.ok y) ∧ At pat y.p t ∧ Inv y d false
    | .reject => ∃ e, rexParseGroupE pat x = some (.error e)
    | .slip => True := by
  obtain ⟨os,hw,hl,-⟩ := h
  obtain ⟨p,r,ns,gs,lc,gnum⟩ := x
  dsimp only at hw hl hat
  cases hl with
  | @group _ g gs lc' _ os hg hgs hout htop hos hlev =>
    obtain ⟨m,hm,-,-,-,-,hother⟩ := node_of_type hg
    have hn : Plain { type := .groupE, num := m.num, other := some g } := ⟨⟨rfl,rfl,rfl⟩,nofun,nofun⟩
    obtain ⟨ns3,hfin,hw3,hout3,hlc,htype⟩ := groupE_table hw hout htop hos hlev hn
    obtain ⟨e,he,het,-⟩ := node_of_type htype
    have hrep := rexCheckRepitions_spec e hat
    have hrun : ∃ f, rexParseGroupE pat ⟨p,r,ns,some g,lc,gnum⟩ = (rexCheckRepitions pat e (p + 1)).bind f ∧
        (∀ e, f (.error e) = some (.error e)) ∧ ∀ e p, f (.ok (e,p)) = some (.ok ⟨p,.next ns.length,(ns3.set ns.length e).modify g
          fun n => { n with repmin := e.repmin, repmax := e.repmax },gs,lc',gnum⟩) := by
      rw [hgs] at hother
      refine ⟨?_,?_,?_,?_⟩
      rotate_left
      · simp only [rexParseGroupE, hm, Option.bind_eq_bind, Option.bind_some, hother]
        change (finalizeChoices ((grow ns r _).modify g _) g ns.length lc).bind _ = _
        rw [hfin,Option.bind_some,hlc,Option.bind_some,he,Option.bind_some]
      · exact fun _ => rfl
      · exact fun _ _ => rfl
    obtain ⟨f,hrun,hferr,hfok⟩ := hrun
    rw [hrun]
    cases hs : scanRep s with
    | slip => trivial
    | reject =>
      rw [hs] at hrep
      obtain ⟨err,herr⟩ := hrep
      exact ⟨err,by rw [herr,Option.bind_some,hferr]⟩
    | go t =>
      rw [hs] at hrep
      obtain ⟨e',p',hok,hat',hsame⟩ := hrep
      refine ⟨_,by rw [hok,Option.bind_some,hfok],hat',?_⟩
      have hone := hw.one_lt
      have hf1 : Filled ns3 (ns3.set ns.length e') g ns.length ns.length :=
        filled_set he hsame (typeOf_lt hg).le
      have hf2 : Filled (ns3.set ns.length e') ((ns3.set ns.length e').modify g fun n =>
          { n with repmin := e'.repmin, repmax := e'.repmax }) g ns.length ns.length :=
        filled_modify _ le_rfl fun m _ => ⟨rfl,fun l => by cases l <;> rfl⟩
      have hf := hf1.trans hf2
      refine ⟨os,hw3.filledBy hone hf,hout3.agree hf.agree hw3.valid hos,fun _ hwalk => ?_⟩
      change typeOf _ ns.length = _ at hwalk
      rw [hf.type,htype] at hwalk
      cases hwalk

/-! ## The end of the pattern -/

theorem finish_done (h : Inv x 0 empty) :
    ∃ ns, finalizeChoices (setLink x.nodes (some 1) x.rxnn) 0 1 x.lastch = some ns ∧ Done ns := by
  obtain ⟨os,hw,hl,-⟩ := h
  have hf := fills_stop hw
  have hdone := hw.done hf (length_setLink _)
  have hlast : ∀ c, x.lastch = some c → Last x.nodes 0 c ∧ c ∈ os := by
    generalize x.gstack = gs at hl
    cases hl with
    | top h =>
      intro c hc
      exact ⟨h c hc,by simp [hc]⟩
  have hlast' : ∀ c, x.lastch = some c → Last (setLink x.nodes (some 1) x.rxnn) 0 c ∧ c < x.nodes.length ∧
      ∃ o, link (setLink x.nodes (some 1) x.rxnn) (.opt2 c) = some o ∧ o < (setLink x.nodes (some 1) x.rxnn).length := by
    intro c hc
    obtain ⟨h0,hmem⟩ := hlast c hc
    have hle := hw.open_le c hmem
    have h1 := h0.agree (hf.agree hw.hole) hw.valid (by omega) (by omega)
    obtain ⟨o,ho,hlt,-⟩ := hdone.filled (.opt2 c) h1.type
    exact ⟨h1,hle.trans_lt hw.hole_lt,o,ho,hlt⟩
  obtain ⟨ns,hrun,hfill⟩ := finalizeChoices_spec 1 hlast'
  exact ⟨ns,hrun,hdone.filledBy hfill⟩

end Catlib.Rex
