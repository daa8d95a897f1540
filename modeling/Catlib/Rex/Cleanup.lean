import Catlib.Rex.Release

/-! # The clean-up of rex_init

What the table looks like at every point where `rex_init` succeeds or gives up, allocation failures included.
Two slips spoil the release: a `|` behind an empty alternative clears the link that was just set to its node, so
that nothing points at it; and the start of an open group points at the open group around it, which the release
takes for its end.
-/
namespace Catlib.Rex

variable {ns ns' : List RexNode} {n : RexNode} {l r s : Loc} {i g k c p : ℕ} {gs lc : Option ℕ} {junk : UInt8} {pat : List UInt8}
  {mem : ℕ → Bool} {x y : RexSt} {rg : RexNode}

/-! ## Tables with the same links -/

/-- What a release sees of two tables is the same. -/
structure Alike (ns ns' : List RexNode) : Prop where
  length : ns'.length = ns.length
  mark : ∀ i, markOf ns' i = markOf ns i
  links : ∀ l, link ns' l = link ns l

theorem Alike.spun {hi : ℕ} (h : Alike ns ns') (hs : Spun ns gs lc r hi) : Spun ns' gs lc r hi :=
  hs.frame (fun i _ => h.mark i) fun l _ _ => h.links l

theorem Alike.avoids (h : Alike ns ns') (ha : Avoids ns gs c) : Avoids ns' gs c :=
  ⟨fun l => by rw [h.links]; exact ha.links l,fun i o num hm => ha.others i o num ((h.mark i).symm.trans hm),ha.stack⟩

theorem alike_error (hr : link ns r = none) : Alike ns (rexParseError ns r) := by
  refine ⟨length_setLink _,fun i => markOf_congr (coreOf_setLink _),fun l => ?_⟩
  by_cases hl : l = r
  · subst hl
    by_cases hlt : l.idx < ns.length
    · rw [rexParseError,link_setLink _ hlt,if_pos rfl,hr]
    · rw [rexParseError,link_of_ge (not_lt.1 hlt),link_of_ge (by rw [length_setLink]; exact not_lt.1 hlt)]
  · exact link_setLink_ne hl _

/-! ## The end of a group -/

/-- The table behind a `)`, before its repetition is read. -/
structure GroupEnd (x : RexSt) (g : ℕ) (rg : RexNode) (ns : List RexNode) (lc : Option ℕ) : Prop where
  stack : x.gstack = some g
  start : x.nodes[g]? = some rg
  choices : finalizeChoices (endGroup x.nodes x.rxnn g rg.num) g x.nodes.length x.lastch = some ns
  last : lastChoice ns rg.other = some lc

theorem alike_bounds {e : RexNode} (a b : ℕ) (hk : ns[k]? = some e) :
    Alike ns ((ns.set k { e with repmin := a, repmax := b }).modify g fun n => { n with repmin := a, repmax := b }) := by
  have hlt := (List.getElem?_eq_some_iff.1 hk).1
  refine ⟨by simp,fun i => ?_,fun l => ?_⟩
  · rw [markOf,markOf,List.getElem?_modify,List.getElem?_set]
    by_cases hik : k = i
    · subst hik
      rw [if_pos rfl,if_pos hlt,hk]
      split <;> rfl
    · rw [if_neg hik]
      cases ns[i]? <;> [rfl; (split <;> rfl)]
  · rw [link_modify _ (fun n _ l => by cases l <;> rfl),link_set hk fun l => by cases l <;> rfl]

theorem rexParseGroupE_some (hp : rexParseGroupE pat x = some (.ok y)) : ∃ g rg ns, GroupEnd x g rg ns y.lastch ∧ y.gstack = rg.other ∧
    y.rxnn = .next x.nodes.length ∧ Alike ns y.nodes := by
  unfold rexParseGroupE at hp
  obtain ⟨p,r,ns,gs,lc,gnum⟩ := x
  cases gs with
  | none => cases hp
  | some g =>
    simp only [RexSt.append, Option.bind_eq_bind, Option.bind_eq_some_iff] at hp
    obtain ⟨rg,hrg,ns3,hns3,lc',hlc,e,he,z,hz,hp⟩ := hp
    cases z with
    | error e => cases hp
    | ok z =>
      obtain ⟨e',q⟩ := z
      obtain rfl := Except.ok.inj (Option.some.inj hp)
      obtain ⟨a,b,rfl⟩ := rexCheckRepitions_some hz
      exact ⟨g,rg,ns3,⟨rfl,hrg,hns3,hlc⟩,rfl,rfl,alike_bounds a b he⟩

theorem GroupEnd.shape (h : GroupEnd x g rg ns lc) (hs : Shape x.nodes x.gstack x.lastch x.rxnn) :
    Shape x.nodes (some g) x.lastch x.rxnn := h.stack ▸ hs

theorem GroupEnd.length (h : GroupEnd x g rg ns lc) (hs : Shape x.nodes x.gstack x.lastch x.rxnn) : ns.length = x.nodes.length + 1 :=
  ((h.shape hs).ends h.start h.choices).2.1

theorem GroupEnd.spun (h : GroupEnd x g rg ns lc) (hs : Shape x.nodes x.gstack x.lastch x.rxnn)
    (hx : Spun x.nodes x.gstack x.lastch x.rxnn x.nodes.length) : Spun ns rg.other lc (.next x.nodes.length) ns.length := by
  rw [h.length hs]
  rw [h.stack] at hx
  exact hx.groupE (h.shape hs) h.start h.choices h.last

/-! ## Nodes that nothing points at -/

theorem Avoids.grow (h : Avoids ns gs c) (hr : r.idx < ns.length) (hn : Blank n) (ho : n.type = .groupS → n.other ≠ some c)
    (hc : c ≠ ns.length) : Avoids (grow ns r n) gs c := by
  refine ⟨fun l => ?_,fun i o num hm => ?_,h.stack⟩
  · rw [link_grow hr hn]
    split
    · exact fun he => hc (Option.some.inj he).symm
    · exact h.links l
  · rw [markOf_grow] at hm
    split at hm
    · obtain ⟨ht,rfl,-⟩ : n.type = .groupS ∧ n.other = o ∧ n.num = num := by simpa using hm
      exact ho ht
    · exact h.others i o num hm

theorem markOf_branch (o : Option ℕ) (hm : markOf (branch ns s r o) i = some (.groupS,gs,k)) : markOf ns i = some (.groupS,gs,k) := by
  rw [markOf_core,coreOf_branch] at hm
  split at hm
  · cases hm
  · rwa [markOf_core]

theorem Avoids.branch (h : Avoids ns gs c) (hs : s.idx < ns.length) (hr : r.idx < ns.length) (hn : link ns r = none)
    (hc : c ≠ ns.length ∨ s = r) : Avoids (branch ns s r (link ns s)) gs c := by
  refine ⟨fun l => ?_,fun i o num hm => h.others i o num (markOf_branch _ hm),h.stack⟩
  rw [link_branch hs hr hn]
  split_ifs with h1 h2 h3
  · exact h.links s
  · exact nofun
  · rintro he
    exact hc.elim (fun hc => hc (Option.some.inj he).symm) fun he => h2 (h3.trans he)
  · exact h.links l

theorem Avoids.groupEnd (h : Avoids x.nodes x.gstack c) (he : GroupEnd x g rg ns lc)
    (hs : Shape x.nodes x.gstack x.lastch x.rxnn) (hc : c ≠ x.nodes.length) : Avoids ns rg.other c := by
  have hg : g < x.nodes.length := (List.getElem?_eq_some_iff.1 he.start).1
  have hcore0 : coreOf x.nodes g = some rg.core := by rw [coreOf,he.start]; rfl
  have hstart : rg.type = .groupS := by
    have hnest := (he.shape hs).nest
    cases hnest with
    | group _ hn ht =>
      rw [hcore0] at hn
      cases hn
      exact ht
  have hrg : markOf x.nodes g = some (.groupS,rg.other,rg.num) := by
    rw [markOf,he.start,← hstart]
    rfl
  have hpatch : Patch (endGroup x.nodes x.rxnn g rg.num) ns 0 0 x.nodes.length := finalize_patch he.choices
  refine ⟨fun l hl => ?_,fun i o num hm => ?_,h.others g _ _ hrg⟩
  · have hnew : link (endGroup x.nodes x.rxnn g rg.num) l = some c := by
      rcases hpatch.value l with h1 | ⟨h1,-⟩
      · exact h1.symm.trans hl
      · exact absurd (Option.some.inj (hl.symm.trans h1)) hc
    rw [link_endGroup hs.hole_lt] at hnew
    split at hnew
    · exact hc (Option.some.inj hnew).symm
    · exact h.links l hnew
  · rw [markOf_congr (finalizeChoices_core he.choices i)] at hm
    by_cases hig : i = g
    · subst hig
      rw [markOf_core,coreOf_endGroup_start hcore0 hg] at hm
      obtain ⟨-,rfl,-⟩ : rg.core.type = .groupS ∧ some x.nodes.length = o ∧ rg.core.num = num := by simpa using hm
      exact fun he => hc (Option.some.inj he).symm
    · rw [markOf_core,coreOf_endGroup hig] at hm
      split at hm
      · cases hm
      · exact h.others i o num (by rwa [markOf_core])

theorem Gains.length (h : Gains x y) : x.nodes.length ≤ y.nodes.length := by
  cases h with
  | @one n p _ _ =>
    have hlen : (x.append n p).nodes.length = x.nodes.length + 1 := length_grow
    omega
  | @two n n' p p' _ _ _ _ =>
    have hlen : (x.append n p).nodes.length = x.nodes.length + 1 := length_grow
    have hlen' : ((x.append n p).append n' p').nodes.length = (x.append n p).nodes.length + 1 := length_grow
    omega

theorem rexBody_length (hs : Shape x.nodes x.gstack x.lastch x.rxnn) (hb : rexBody junk pat x = some (.again y)) :
    x.nodes.length ≤ y.nodes.length := by
  rcases rexBody_again hb with hg | rfl | hg | ⟨-,hg⟩
  · exact hg.length
  · rw [show (rexParseGroupS x).nodes.length = x.nodes.length + 1 from length_grow]
    omega
  · obtain ⟨g,rg,ns,he,-,-,hal⟩ := rexParseGroupE_some hg
    rw [hal.length,he.length hs]
    omega
  · rw [(rexParseChoice_some hg).nodes,length_branch]
    omega

theorem Avoids.again (h : Avoids x.nodes x.gstack c) (hs : Shape x.nodes x.gstack x.lastch x.rxnn)
    (hb : rexBody junk pat x = some (.again y)) (hc : c < x.nodes.length ∨ y.nodes.length ≤ c) :
    Avoids y.nodes y.gstack c := by
  rcases rexBody_again hb with hg | rfl | hg | ⟨-,hg⟩
  · cases hg with
    | @one n p hn hl =>
      have hlen : (x.append n p).nodes.length = x.nodes.length + 1 := length_grow
      exact h.grow hs.hole_lt hn (fun ht => absurd ht hl.ne_groupS) (by omega)
    | @two n n' p p' hn hl hn' hl' =>
      have hlen : (x.append n p).nodes.length = x.nodes.length + 1 := length_grow
      have hlen' : ((x.append n p).append n' p').nodes.length = (x.append n p).nodes.length + 1 := length_grow
      have h1 := h.grow hs.hole_lt hn (fun ht => absurd ht hl.ne_groupS) (by omega)
      exact h1.grow (hs.lone hn hl).hole_lt hn' (fun ht => absurd ht hl'.ne_groupS) (show c ≠ (x.append n p).nodes.length by omega)
  · have hlen : (rexParseGroupS x).nodes.length = x.nodes.length + 1 := length_grow
    obtain ⟨hlink,hother,-⟩ := h.grow (n := { type := .groupS, num := x.gnum + 1, other := x.gstack }) hs.hole_lt ⟨rfl,rfl,rfl⟩
      (fun _ => h.stack) (by omega)
    exact ⟨hlink,hother,fun he => absurd (Option.some.inj he) (by omega)⟩
  · obtain ⟨g,rg,ns,he,hgs,-,hal⟩ := rexParseGroupE_some hg
    have hlen := he.length hs
    have hlen' := hal.length
    rw [hgs]
    exact hal.avoids (h.groupEnd he hs (by omega))
  · obtain ⟨hnodes,hstack,-,-⟩ := rexParseChoice_some hg
    have hlen : y.nodes.length = x.nodes.length + 1 := by rw [hnodes,length_branch]
    rw [hnodes,hstack]
    exact h.branch (hs.nest.branch hs.hole hs.hole_lt hs.kind).1 hs.hole_lt hs.hole (Or.inl (by omega))

/-! ## The steps of the parser -/

/-- The table that a step gives up, with the group that is open in it: as it was, with one node more, or
behind a `)` the repetition of which is wrong. -/
inductive GivesUp (x : RexSt) : Option ℕ → List RexNode → Prop
  | here : GivesUp x x.gstack (rexParseError x.nodes x.rxnn)
  | behind {n : RexNode} (hn : Blank n) (ht : n.type ≠ .choice ∧ n.type ≠ .groupS) : GivesUp x x.gstack (x.spoil n)
  | group {g : ℕ} {rg : RexNode} {ns : List RexNode} {lc : Option ℕ} (h : GroupEnd x g rg ns lc) :
      GivesUp x rg.other (rexParseError ns (.next x.nodes.length))

/-- With allocations that fail a function goes on as without, or gives up. -/
def OrGivesUp (x : RexSt) (gs : Option ℕ) (r : Except (List RexNode) RexSt) (o : Option (Except ℤ RexSt)) : Prop :=
  (∃ y, r = .ok y ∧ o = some (.ok y)) ∨ ∃ ns, r = .error ns ∧ GivesUp x gs ns

theorem finishMem_or {r : Except (List RexNode) RexSt} (hn : Blank n) (ht : n.type ≠ .choice ∧ n.type ≠ .groupS)
    (h : x.finishMem pat n p = some r) : OrGivesUp x x.gstack r (x.finish pat n p) := by
  simp only [RexSt.finishMem, Option.bind_eq_bind, Option.bind_eq_some_iff] at h
  obtain ⟨z,hz,h⟩ := h
  cases z with
  | error e =>
    cases h
    exact Or.inr ⟨_,rfl,.behind hn ht⟩
  | ok z =>
    obtain rfl := Option.some.inj h
    refine Or.inl ⟨_,rfl,?_⟩
    rw [RexSt.finish,hz]
    rfl

theorem rexParseStrMem_or {r : Except (List RexNode) RexSt} (h : rexParseStrMem junk pat mem x = some r) :
    OrGivesUp x x.gstack r (rexParseStr junk pat x) := by
  unfold rexParseStrMem at h
  split at h
  · cases h
    exact Or.inr ⟨_,rfl,.here⟩
  simp only [Option.bind_eq_bind, Option.bind_eq_some_iff] at h
  obtain ⟨z,hz,h⟩ := h
  cases z with
  | error e =>
    cases h
    exact Or.inr ⟨_,rfl,.behind ⟨rfl,rfl,rfl⟩ ⟨nofun,nofun⟩⟩
  | ok z =>
    obtain ⟨str,op⟩ := z
    simp only [Option.bind_eq_some_iff] at h
    obtain ⟨w,hw,h⟩ := h
    cases w with
    | error e =>
      cases h
      exact Or.inr ⟨_,rfl,.behind ⟨rfl,rfl,rfl⟩ ⟨nofun,nofun⟩⟩
    | ok w =>
      obtain ⟨rs,q⟩ := w
      obtain ⟨a,b,rfl⟩ := rexCheckRepitions_some hw
      simp only at h
      split at h
      · rename_i htwo
        split at h
        · cases h
          exact Or.inr ⟨_,rfl,.behind ⟨rfl,rfl,rfl⟩ ⟨nofun,nofun⟩⟩
        · cases h
          refine Or.inl ⟨_,rfl,?_⟩
          simp only [rexParseStr, hz, hw, Option.bind_eq_bind, Option.bind_some, if_pos htwo]
          rfl
      · rename_i htwo
        cases h
        refine Or.inl ⟨_,rfl,?_⟩
        simp only [rexParseStr, hz, hw, Option.bind_eq_bind, Option.bind_some, if_neg htwo]
        rfl

theorem rexParseClassMem_or {r : Except (List RexNode) RexSt} (h : rexParseClassMem pat mem x = some r) :
    OrGivesUp x x.gstack r (rexParseClass pat x) := by
  unfold rexParseClassMem at h
  unfold rexParseClass
  split at h
  · cases h
    exact Or.inr ⟨_,rfl,.here⟩
  rename_i hend
  rw [if_neg hend]
  simp only [Option.bind_eq_bind, Option.bind_eq_some_iff] at h
  obtain ⟨c,hc,h⟩ := h
  simp only [hc, Option.bind_eq_bind, Option.bind_some]
  generalize (if (decide (c = 94)) = true then x.p + 2 else x.p + 1) = start at h ⊢
  split at h
  · cases h
    exact Or.inr ⟨_,rfl,.here⟩
  rename_i hstart
  rw [if_neg hstart]
  simp only [Option.bind_eq_some_iff] at h
  obtain ⟨d,hd,h⟩ := h
  simp only [hd, Option.bind_some]
  split at h
  · cases h
    exact Or.inr ⟨_,rfl,.here⟩
  generalize classLoop (List.replicate 32 0) none start _ = z at h ⊢
  cases z with
  | error e =>
    cases h
    exact Or.inr ⟨_,rfl,.behind ⟨rfl,rfl,rfl⟩ ⟨by rintro ⟨⟩,by rintro ⟨⟩⟩⟩
  | ok set => exact finishMem_or ⟨rfl,rfl,rfl⟩ ⟨by rintro ⟨⟩,by rintro ⟨⟩⟩ h

theorem rexParseAnyMem_or {r : Except (List RexNode) RexSt} (h : rexParseAnyMem pat mem x = some r) :
    OrGivesUp x x.gstack r (rexParseAny pat x) := by
  unfold rexParseAnyMem at h
  split at h
  · cases h
    exact Or.inr ⟨_,rfl,.here⟩
  · exact finishMem_or ⟨rfl,rfl,rfl⟩ ⟨nofun,nofun⟩ h

theorem rexParseAnchorMem_or (type : RexType) :
    OrGivesUp x x.gstack (rexParseAnchorMem mem x type) (some (.ok (x.append { type := type } (x.p + 1)))) := by
  unfold rexParseAnchorMem
  split
  · exact Or.inr ⟨_,rfl,.here⟩
  · exact Or.inl ⟨_,rfl,rfl⟩

theorem rexParseGroupSMem_or : OrGivesUp x x.gstack (rexParseGroupSMem mem x) (some (.ok (rexParseGroupS x))) := by
  unfold rexParseGroupSMem
  split
  · exact Or.inr ⟨_,rfl,.here⟩
  · exact Or.inl ⟨_,rfl,rfl⟩

theorem rexParseChoiceMem_or {r : Except (List RexNode) RexSt} (h : rexParseChoiceMem mem x = some r) :
    OrGivesUp x x.gstack r ((rexParseChoice x).map .ok) := by
  unfold rexParseChoiceMem at h
  split at h
  · cases h
    exact Or.inr ⟨_,rfl,.here⟩
  · obtain ⟨y,hy,rfl⟩ := Option.map_eq_some_iff.1 h
    exact Or.inl ⟨y,rfl,by rw [hy]; rfl⟩

theorem rexParseGroupEMem_or {r : Except (List RexNode) RexSt} (h : rexParseGroupEMem pat mem x = some r) :
    OrGivesUp x (if x.gets mem 0 then x.gstack.bind (otherOf x.nodes) else x.gstack) r (rexParseGroupE pat x) := by
  unfold rexParseGroupEMem at h
  unfold rexParseGroupE
  cases hg : x.gstack with
  | none =>
    rw [hg] at h
    cases h
    have hx : (none : Option ℕ) = x.gstack := hg.symm
    simp only [Option.bind_none, ite_self]
    rw [hx]
    exact Or.inr ⟨_,rfl,.here⟩
  | some rgs =>
    rw [hg] at h
    simp only at h
    split at h
    · rename_i hmem
      cases h
      rw [if_neg (by simpa using hmem),← hg]
      exact Or.inr ⟨_,rfl,.here⟩
    · rename_i hmem
      rw [if_pos (by simpa using hmem)]
      simp only [Option.bind_eq_bind, Option.bind_eq_some_iff] at h
      obtain ⟨rg,hrg,ns,hns,lc,hlc,e,he,z,hz,h⟩ := h
      have hother : otherOf x.nodes rgs = rg.other := by rw [otherOf,hrg]; rfl
      simp only [Option.bind_some, hother]
      cases z with
      | error _ =>
        cases h
        exact Or.inr ⟨_,rfl,.group ⟨hg,hrg,hns,hlc⟩⟩
      | ok z =>
        cases h
        refine Or.inl ⟨_,rfl,?_⟩
        simp only [hrg, hns, hlc, he, hz, Option.bind_eq_bind, Option.bind_some]
        rfl

/-- The group that stays open when a step fails: a `)` for which there is a node has closed one. -/
def RexSt.stays (pat : List UInt8) (mem : ℕ → Bool) (x : RexSt) : Option ℕ :=
  if pat[x.p]? = some 41 ∧ x.gets mem 0 then x.gstack.bind (otherOf x.nodes) else x.gstack

/-- What a call of `rex_parse` comes to with allocations that may fail. -/
inductive MemTurn (junk : UInt8) (pat : List UInt8) (mem : ℕ → Bool) (x : RexSt) : Turn RexSt (Except (List RexNode) (List RexNode)) → Prop
  | again {y : RexSt} (h : rexBody junk pat x = some (.again y)) (hc : pat[x.p]? = some 124 → x.gets mem 0) :
      MemTurn junk pat mem x (.again y)
  | error {ns : List RexNode} (h : GivesUp x (x.stays pat mem) ns) : MemTurn junk pat mem x (.leave (.error ns))
  | ok {ns : List RexNode} (hg : x.gstack = none) (h : finalizeChoices (setLink x.nodes (some 1) x.rxnn) 0 1 x.lastch = some ns) :
      MemTurn junk pat mem x (.leave (.ok ns))

/-- What `rex_parse` does with the result of the function it calls. -/
def goOnMem (r : Option (Except (List RexNode) RexSt)) : Option (Turn RexSt (Except (List RexNode) (List RexNode))) := r.bind fun r =>
  match r with
  | .error ns => some (.leave (.error ns))
  | .ok x => some (.again x)

theorem goOnMem_ite (p : Prop) [Decidable p] (r r' : Option (Except (List RexNode) RexSt)) :
    goOnMem (if p then r else r') = if p then goOnMem r else goOnMem r' := apply_ite goOnMem p r r'

theorem rexBodyMem_cons {c : UInt8} (hp : x.p ≠ pat.length) (h : pat[x.p]? = some c) : rexBodyMem junk pat mem x = goOnMem (
    if c ∈ [42,93,43,63,123,125] then some (.error (rexParseError x.nodes x.rxnn))
    else if c = 94 then some (rexParseAnchorMem mem x .banchor)
    else if c = 36 then some (rexParseAnchorMem mem x .eanchor)
    else if c = 40 then some (rexParseGroupSMem mem x)
    else if c = 91 then rexParseClassMem pat mem x
    else if c = 41 then rexParseGroupEMem pat mem x
    else if c = 46 then rexParseAnyMem pat mem x
    else if c = 124 then rexParseChoiceMem mem x
    else rexParseStrMem junk pat mem x) := by
  rw [rexBodyMem,if_neg hp,h]
  simp only [goOnMem_ite]
  rfl

theorem rexBodyMem_turn {t : Turn RexSt (Except (List RexNode) (List RexNode))} (h : rexBodyMem junk pat mem x = some t) :
    MemTurn junk pat mem x t := by
  by_cases hp : x.p = pat.length
  · rw [rexBodyMem,if_pos hp] at h
    have hstays : x.stays pat mem = x.gstack := by
      rw [RexSt.stays,if_neg]
      rintro ⟨h41,-⟩
      rw [hp,List.getElem?_eq_none le_rfl] at h41
      cases h41
    split at h
    · cases h
      exact .error (hstays ▸ .here)
    · rename_i hg
      simp only [Option.bind_eq_bind, Option.bind_eq_some_iff] at h
      obtain ⟨ns,hns,h⟩ := h
      cases h
      exact .ok (Option.not_isSome_iff_eq_none.1 hg) hns
  · obtain ⟨c,hc⟩ : ∃ c, pat[x.p]? = some c := by
      cases hc : pat[x.p]? with
      | none =>
        rw [rexBodyMem,if_neg hp,hc] at h
        cases h
      | some c => exact ⟨c,rfl⟩
    rw [rexBodyMem_cons hp hc] at h
    obtain ⟨r,hr,h⟩ := Option.bind_eq_some_iff.1 h
    have hlt := (List.getElem?_eq_some_iff.1 hc).1
    have hat : At pat x.p (c :: pat.drop (x.p + 1)) := by
      refine ⟨hlt.le,?_⟩
      rw [List.drop_eq_getElem_cons hlt,(List.getElem?_eq_some_iff.1 hc).2]
    have hb : rexBody junk pat x = _ := rexBody_cons hat
    -- what is left is the function of the character
    have hout : ∀ {gs o}, rexBody junk pat x = goOn o → OrGivesUp x gs r o → gs = x.stays pat mem → (c = 124 → x.gets mem 0) →
        MemTurn junk pat mem x t := by
      rintro _ o hb (⟨y,rfl,rfl⟩ | ⟨ns,rfl,hns⟩) rfl h124
      · cases h
        refine .again hb fun he => h124 ?_
        rw [hc] at he
        exact Option.some.inj he
      · cases h
        exact .error hns
    have hstays : c ≠ 41 → x.gstack = x.stays pat mem := by
      intro hne
      rw [RexSt.stays,if_neg]
      rintro ⟨h41,-⟩
      rw [hc] at h41
      exact hne (Option.some.inj h41)
    by_cases h0 : c ∈ [42,93,43,63,123,125]
    · rw [if_pos h0] at hr
      cases hr
      cases h
      exact .error (hstays (by rintro rfl; simp at h0) ▸ .here)
    rw [if_neg h0] at hr hb
    split_ifs at hr with h1 h2 h3 h4 h5 h6 h7
    · rw [if_pos h1] at hb
      cases hr
      exact hout hb (rexParseAnchorMem_or _) (hstays (by rw [h1]; decide)) (by rw [h1]; exact nofun)
    · rw [if_neg h1,if_pos h2] at hb
      cases hr
      exact hout hb (rexParseAnchorMem_or _) (hstays (by rw [h2]; decide)) (by rw [h2]; exact nofun)
    · rw [if_neg h1,if_neg h2,if_pos h3] at hb
      cases hr
      exact hout hb rexParseGroupSMem_or (hstays (by rw [h3]; decide)) (by rw [h3]; exact nofun)
    · rw [if_neg h1,if_neg h2,if_neg h3,if_pos h4] at hb
      exact hout hb (rexParseClassMem_or hr) (hstays (by rw [h4]; decide)) (by rw [h4]; exact nofun)
    · rw [if_neg h1,if_neg h2,if_neg h3,if_neg h4,if_pos h5] at hb
      refine hout hb (rexParseGroupEMem_or hr) ?_ (by rw [h5]; exact nofun)
      simp only [RexSt.stays, hc, h5, true_and]
    · rw [if_neg h1,if_neg h2,if_neg h3,if_neg h4,if_neg h5,if_pos h6] at hb
      exact hout hb (rexParseAnyMem_or hr) (hstays h5) (by rw [h6]; exact nofun)
    · rw [if_neg h1,if_neg h2,if_neg h3,if_neg h4,if_neg h5,if_neg h6,if_pos h7] at hb
      by_cases hmem : x.gets mem 0
      · exact hout hb (rexParseChoiceMem_or hr) (hstays h5) fun _ => hmem
      · rw [rexParseChoiceMem,if_pos (by simpa using hmem)] at hr
        cases hr
        cases h
        exact .error (hstays h5 ▸ .here)
    · rw [if_neg h1,if_neg h2,if_neg h3,if_neg h4,if_neg h5,if_neg h6,if_neg h7] at hb
      exact hout hb (rexParseStrMem_or hr) (hstays h5) fun he => absurd he h7

theorem RexSt.link_append (hs : Shape x.nodes x.gstack x.lastch x.rxnn) (hn : Blank n) :
    link (x.append n p).nodes (.next x.nodes.length) = none :=
  (link_grow hs.hole_lt hn _).trans (by rw [if_neg hs.new_ne,link_of_ge le_rfl])

theorem GroupEnd.hole (h : GroupEnd x g rg ns lc) (hs : Shape x.nodes x.gstack x.lastch x.rxnn) :
    link ns (.next x.nodes.length) = none := by
  rw [((h.shape hs).ends h.start h.choices).2.2.2 _ (Or.inr le_rfl),link_endGroup hs.hole_lt,if_neg hs.new_ne,link_of_ge le_rfl]

theorem GroupEnd.mark (h : GroupEnd x g rg ns lc) (hig : i ≠ g) (hi : i < x.nodes.length) : markOf ns i = markOf x.nodes i := by
  refine markOf_congr ((finalizeChoices_core h.choices i).trans ?_)
  rw [coreOf_endGroup hig,if_neg (by omega)]

theorem Shape.mark (hs : Shape ns gs lc r) : markOf ns 0 = some (.groupS,some 1,0) := by
  rw [markOf_core,hs.start]
  rfl

/-- A table that is given up, with the lists of the groups that are open in it. -/
structure Abandoned (x : RexSt) (gs : Option ℕ) (ns : List RexNode) : Prop where
  lists : ∃ lc r, Spun ns gs lc r ns.length ∧ link ns r = none
  start : markOf ns 0 = some (.groupS,some 1,0)
  others : ∀ g, gs = some g → otherOf ns g = otherOf x.nodes g

theorem Alike.abandoned (h : Alike ns ns') (ha : Abandoned x gs ns) : Abandoned x gs ns' := by
  obtain ⟨⟨lc,r,hs,hr⟩,h0,ho⟩ := ha
  refine ⟨⟨lc,r,?_,(h.links r).trans hr⟩,(h.mark 0).trans h0,fun g hg => ?_⟩
  · rw [h.length]
    exact h.spun hs
  · rw [otherOf_mark,h.mark,← otherOf_mark]
    exact ho g hg

theorem GivesUp.abandoned (h : GivesUp x gs ns) (hs : Shape x.nodes x.gstack x.lastch x.rxnn)
    (hx : Spun x.nodes x.gstack x.lastch x.rxnn x.nodes.length) : Abandoned x gs ns := by
  cases h with
  | here => exact (alike_error hs.hole).abandoned ⟨⟨_,_,hx,hs.hole⟩,hs.mark,fun _ _ => rfl⟩
  | @behind n hn ht =>
    have hlink := RexSt.link_append (p := x.p) hs hn
    have hone := hs.one_lt
    have hmark : ∀ i, i < x.nodes.length → markOf (x.append n x.p).nodes i = markOf x.nodes i := fun i hi =>
      markOf_grow.trans (if_neg (by omega))
    refine (alike_error hlink).abandoned ⟨⟨x.lastch,_,?_,hlink⟩,(hmark 0 (by omega)).trans hs.mark,fun g hg => ?_⟩
    · rw [show (x.append n x.p).nodes.length = x.nodes.length + 1 from length_grow]
      exact hx.lone hs.hole_lt hn ht
    · rw [otherOf_mark,hmark,← otherOf_mark]
      rw [hg] at hx
      exact hx.whole.lt
  | @group g rg ns lc he =>
    have hlink := he.hole hs
    have hg : g < x.nodes.length := (List.getElem?_eq_some_iff.1 he.start).1
    have hspun := he.spun hs hx
    rw [he.stack] at hx
    have h1 : 1 ≤ g := hx.around.one_le
    refine (alike_error hlink).abandoned ⟨⟨_,_,hspun,hlink⟩,?_,fun g' hg' => ?_⟩
    · rw [he.mark (by omega) (by omega),hs.mark]
    · have hlt : g' < g := by
        cases hx.around with
        | @group _ _ gs _ hm _ hsp _ =>
          obtain rfl : gs = rg.other := (other_of_mark hm).symm.trans (by rw [otherOf,he.start]; rfl)
          rw [hg'] at hsp
          exact hsp.lt
      rw [otherOf_mark,he.mark (by omega) (by omega),← otherOf_mark]

theorem Abandoned.released (h : Abandoned x gs ns) (hgs : ∀ g, gs = some g → otherOf x.nodes g = none) : Released ns := by
  obtain ⟨lc,r,hs,hr⟩ := h.lists
  exact hs.released hr h.start fun g hg => (h.others g hg).trans (hgs g hg)

theorem Abandoned.not_released {g' : ℕ} (h : Abandoned x (some g) ns) (ho : otherOf x.nodes g = some g') : ¬Released ns := by
  obtain ⟨lc,r,hs,-⟩ := h.lists
  exact hs.not_released ((h.others g rfl).trans ho)

theorem GivesUp.avoids (h : GivesUp x gs ns) (hs : Shape x.nodes x.gstack x.lastch x.rxnn) (ha : Avoids x.nodes x.gstack c)
    (hc : c < x.nodes.length) : Avoids ns gs c ∧ c < ns.length := by
  cases h with
  | here =>
    have hal := alike_error hs.hole
    exact ⟨hal.avoids ha,by rw [hal.length]; exact hc⟩
  | @behind n hn ht =>
    have hal := alike_error (RexSt.link_append (p := x.p) hs hn)
    have hlen : (x.append n x.p).nodes.length = x.nodes.length + 1 := length_grow
    refine ⟨hal.avoids (ha.grow hs.hole_lt hn (fun h => absurd h ht.2) (by omega)),?_⟩
    rw [RexSt.spoil,hal.length]
    omega
  | group he =>
    have hal := alike_error (he.hole hs)
    have hlen := he.length hs
    exact ⟨hal.avoids (ha.groupEnd he hs (by omega)),by rw [hal.length]; omega⟩

/-! ## The end of the pattern -/

theorem length_congr (h : ∀ i, coreOf ns' i = coreOf ns i) : ns'.length = ns.length := by
  have hlt : ∀ {ms ms' : List RexNode}, (∀ i, coreOf ms' i = coreOf ms i) → ms'.length ≤ ms.length := by
    intro ms ms' h
    have hnone := h ms.length
    rw [coreOf,coreOf,List.getElem?_eq_none le_rfl] at hnone
    exact List.getElem?_eq_none_iff.1 (Option.map_eq_none_iff.1 hnone)
  exact le_antisymm (hlt h) (hlt fun i => (h i).symm)

theorem finish_core (hf : finalizeChoices (setLink ns (some 1) r) 0 1 lc = some ns') (i : ℕ) : coreOf ns' i = coreOf ns i :=
  (finalizeChoices_core hf i).trans (coreOf_setLink _)

theorem finish_patch {lo hi : ℕ} (hr : link ns r = none) (hf : finalizeChoices (setLink ns (some 1) r) 0 1 lc = some ns') :
    Patch ns ns' lo hi 1 := by
  refine (patch_setLink (Or.inl hr)).trans (finalize_patch hf) fun i hi => ?_
  rwa [typeOf_setLink] at hi

theorem Spun.finish (hs : Shape ns none lc r) (h : Spun ns none lc r ns.length)
    (hf : finalizeChoices (setLink ns (some 1) r) 0 1 lc = some ns') : Released ns' := by
  have hlen := length_congr (finish_core hf)
  have hspan : Span ns' true (some 1) 1 ns.length none (.next 0) := by
    refine h.whole.patch (finish_patch hs.hole hf) (Or.inr rfl) ?_ (next_ne_choice (type_of_mark hs.mark) nofun)
    rintro _ ⟨⟩
    exact hs.hole
  refine released_of_gives ((markOf_congr (finish_core hf 0)).trans hs.mark) ?_
  rw [hlen]
  refine (hspan.gives (Q := fun _ => False) (fun i h1 _ => ?_) nofun (fun _ _ => id) nofun).congr fun i => or_iff_left id
  rintro ⟨⟩
  exact lt_irrefl _ h1

theorem Avoids.finish (h : Avoids ns none c) (hr : link ns r = none) (hc : 1 < c)
    (hf : finalizeChoices (setLink ns (some 1) r) 0 1 lc = some ns') : Avoids ns' none c := by
  have hpatch : Patch ns ns' 0 0 1 := finish_patch hr hf
  refine ⟨fun l hl => ?_,fun i o num hm => h.others i o num ?_,nofun⟩
  · rcases hpatch.value l with h1 | ⟨h1,-⟩
    · exact h.links l (h1.symm.trans hl)
    · exact absurd (Option.some.inj (hl.symm.trans h1)) (ne_of_gt hc)
  · rwa [← markOf_congr (finish_core hf i)]

/-! ## Runs -/

/-- A `|` for which there is a node, with nothing in front of it in its alternative. -/
def EmptyAlternative (pat : List UInt8) (mem : ℕ → Bool) (x : RexSt) : Prop :=
  pat[x.p]? = some 124 ∧ x.gets mem 0 ∧ x.rxnn = slotOf (x.gstack.getD 0) x.lastch

/-- A step that fails with a group open in another one. -/
def NestedFailure (junk : UInt8) (pat : List UInt8) (mem : ℕ → Bool) (x : RexSt) : Prop :=
  (∃ ns, rexBodyMem junk pat mem x = some (.leave (.error ns))) ∧ ∃ g, x.stays pat mem = some g ∧ otherOf x.nodes g ≠ none

theorem Spun.again (hs : Shape x.nodes x.gstack x.lastch x.rxnn) (h : Spun x.nodes x.gstack x.lastch x.rxnn x.nodes.length)
    (hb : rexBody junk pat x = some (.again y)) (hne : pat[x.p]? = some 124 → x.rxnn ≠ slotOf (x.gstack.getD 0) x.lastch) :
    Spun y.nodes y.gstack y.lastch y.rxnn y.nodes.length := by
  rcases rexBody_again hb with hg | rfl | hg | ⟨hc,hg⟩
  · cases hg with
    | @one n p hn hl =>
      rw [show (x.append n p).nodes.length = x.nodes.length + 1 from length_grow]
      exact h.lone hs.hole_lt hn ⟨hl.ne_choice,hl.ne_groupS⟩
    | @two n n' p p' hn hl hn' hl' =>
      have hlen : (x.append n p).nodes.length = x.nodes.length + 1 := length_grow
      have h1 : Spun (x.append n p).nodes x.gstack x.lastch (.next x.nodes.length) (x.append n p).nodes.length := by
        rw [hlen]
        exact h.lone hs.hole_lt hn ⟨hl.ne_choice,hl.ne_groupS⟩
      rw [show ((x.append n p).append n' p').nodes.length = (x.append n p).nodes.length + 1 from length_grow]
      exact h1.lone (hs.lone hn hl).hole_lt hn' ⟨hl'.ne_choice,hl'.ne_groupS⟩
  · rw [show (rexParseGroupS x).nodes.length = x.nodes.length + 1 from length_grow]
    exact h.groupS hs.hole_lt x.gnum
  · obtain ⟨g,rg,ns,he,hgs,hr,hal⟩ := rexParseGroupE_some hg
    rw [hgs,hr,hal.length]
    exact hal.spun (he.spun hs h)
  · obtain ⟨hnodes,hstack,hlast,hhole⟩ := rexParseChoice_some hg
    rw [hstack,hlast,hhole,hnodes,length_branch]
    exact h.choice hs.hole_lt hs.hole (hne hc)

/-- What holds in every state of the parse: the nodes behind the table are not pointed at. -/
structure Parsed (x : RexSt) : Prop where
  shape : Shape x.nodes x.gstack x.lastch x.rxnn
  fresh : ∀ c, x.nodes.length ≤ c → Avoids x.nodes x.gstack c

theorem parsed_start : Parsed rexStart := by
  refine ⟨shape_start,fun c hc => ⟨fun l => ?_,fun i o num hm => ?_,nofun⟩⟩
  · have hnone : link rexGroups l = none := by
      obtain ⟨i,rfl⟩ | ⟨i,rfl⟩ | ⟨i,rfl⟩ : (∃ i, l = .next i) ∨ (∃ i, l = .opt1 i) ∨ ∃ i, l = .opt2 i := by cases l <;> simp
      all_goals rcases i with _ | _ | i <;> rfl
    change link rexGroups l ≠ some c
    rw [hnone]
    exact nofun
  · have hc : 2 ≤ c := hc
    change markOf rexGroups i = _ at hm
    rcases i with _ | _ | i
    · cases hm
      exact fun he => absurd (Option.some.inj he) (by omega)
    · cases hm
    · cases hm

theorem Parsed.again (h : Parsed x) (hb : rexBody junk pat x = some (.again y)) : Parsed y := by
  refine ⟨rexBody_shape h.shape hb,fun c hc => ?_⟩
  exact (h.fresh c ((rexBody_length h.shape hb).trans hc)).again h.shape hb (Or.inr hc)

theorem reaches_parsed (h : Reaches (rexBodyMem junk pat mem) rexStart x) : Parsed x := by
  induction h with
  | refl => exact parsed_start
  | again _ hb ih =>
    cases rexBodyMem_turn hb with
    | again hb _ => exact ih.again hb

theorem reaches_spun (h : Reaches (rexBodyMem junk pat mem) rexStart x)
    (hno : ∀ z, Reaches (rexBodyMem junk pat mem) rexStart z → ¬EmptyAlternative pat mem z) :
    Spun x.nodes x.gstack x.lastch x.rxnn x.nodes.length := by
  induction h with
  | refl => exact ⟨.top,1,.hole rfl,.hole rfl⟩
  | @again z y hz hb ih =>
    cases rexBodyMem_turn hb with
    | again hb hmem => exact ih.again (reaches_parsed hz).shape hb fun hc he => hno z hz ⟨hc,hmem hc,he⟩

/-- The table that `rex_free` goes over after the parse, or the clean-up of `rex_init`. -/
def tableOf : Except (List RexNode) (List RexNode × Bool) → List RexNode
  | .error ns => ns
  | .ok r => r.1

/-- The table behind the loop. -/
def tableOfLoop : Except (List RexNode) (List RexNode) → List RexNode
  | .error ns => ns
  | .ok ns => ns

theorem rexInitMem_loop {r : Except (List RexNode) (List RexNode × Bool)} (h : rexInitMem junk pat mem = some r) :
    ∃ z, loop (rexBodyMem junk pat mem) (pat.length + 1) rexStart = some z ∧ tableOf r = tableOfLoop z := by
  simp only [rexInitMem, Option.bind_eq_bind, Option.bind_eq_some_iff] at h
  obtain ⟨z,hz,h⟩ := h
  refine ⟨z,hz,?_⟩
  cases z with
  | error ns =>
    cases h
    rfl
  | ok ns =>
    simp only [Option.bind_eq_some_iff] at h
    obtain ⟨a,-,h⟩ := h
    cases h
    rfl

theorem lost_not_released {z : Except (List RexNode) (List RexNode)} (hs : Shape x.nodes x.gstack x.lastch x.rxnn)
    (ha : Avoids x.nodes x.gstack c) (h1 : 1 < c) (hc : c < x.nodes.length) (hz : loop (rexBodyMem junk pat mem) k x = some z) :
    ¬Released (tableOfLoop z) := by
  refine loop_partial (I := fun x => Shape x.nodes x.gstack x.lastch x.rxnn ∧ Avoids x.nodes x.gstack c ∧ c < x.nodes.length)
    (Q := fun z => ¬Released (tableOfLoop z)) ?_ ?_ ⟨hs,ha,hc⟩ hz
  · rintro x y ⟨hs,ha,hc⟩ hb
    cases rexBodyMem_turn hb with
    | again hb _ => exact ⟨rexBody_shape hs hb,ha.again hs hb (Or.inl hc),hc.trans_le (rexBody_length hs hb)⟩
  · rintro x z ⟨hs,ha,hc⟩ hb
    cases rexBodyMem_turn hb with
    | error h =>
      obtain ⟨ha',hc'⟩ := h.avoids hs ha hc
      exact ha'.not_released h1 hc'
    | ok hg h =>
      rw [hg] at ha
      refine (ha.finish hs.hole h1 h).not_released h1 ?_
      rw [length_congr (finish_core h)]
      exact hc

theorem EmptyAlternative.not_released {z : Except (List RexNode) (List RexNode)} (h : EmptyAlternative pat mem x) (hp : Parsed x)
    (hz : loop (rexBodyMem junk pat mem) k x = some z) : ¬Released (tableOfLoop z) := by
  obtain ⟨hc,hmem,hslot⟩ := h
  have hne : x.p ≠ pat.length := ne_of_lt (List.getElem?_eq_some_iff.1 hc).1
  have hbody : rexBodyMem junk pat mem x = goOnMem (rexParseChoiceMem mem x) := rexBodyMem_cons hne hc
  rw [rexParseChoiceMem,if_neg (by simpa using hmem)] at hbody
  cases k with
  | zero => cases hz
  | succ k =>
    cases hy : rexParseChoice x with
    | none =>
      rw [hy] at hbody
      rw [loop_none hbody] at hz
      cases hz
    | some y =>
      rw [hy] at hbody
      rw [loop_again hbody] at hz
      obtain ⟨hnodes,hstack,-,-⟩ := rexParseChoice_some hy
      have hav : Avoids y.nodes y.gstack x.nodes.length := by
        rw [hnodes,hstack]
        exact (hp.fresh _ le_rfl).branch (hp.shape.nest.branch hp.shape.hole hp.shape.hole_lt hp.shape.kind).1 hp.shape.hole_lt
          hp.shape.hole (Or.inr hslot.symm)
      refine lost_not_released (hp.shape.parseChoice hy) hav hp.shape.one_lt ?_ hz
      rw [hnodes,length_branch]
      exact Nat.lt_succ_self _

/-- The release after `rex_init`, whether it succeeds or fails at any point, comes to an end and frees every node
once, if and only if no `|` had an empty alternative in front of it and no failure left a group open in another. -/
theorem rexInit_released_iff {r : Except (List RexNode) (List RexNode × Bool)} (h : rexInitMem junk pat mem = some r) :
    Released (tableOf r) ↔ ∀ x, Reaches (rexBodyMem junk pat mem) rexStart x →
      ¬EmptyAlternative pat mem x ∧ ¬NestedFailure junk pat mem x := by
  obtain ⟨z,hz,ht⟩ := rexInitMem_loop h
  rw [ht]
  constructor
  · intro hrel
    have hno : ∀ x, Reaches (rexBodyMem junk pat mem) rexStart x → ¬EmptyAlternative pat mem x := by
      intro x hx he
      obtain ⟨m,hm⟩ := hx.result hz
      exact he.not_released (reaches_parsed hx) hm hrel
    refine fun x hx => ⟨hno x hx,?_⟩
    rintro ⟨⟨ns,hb⟩,g,hg,hother⟩
    obtain ⟨m,hm⟩ := hx.result hz
    cases m with
    | zero => cases hm
    | succ m =>
      rw [loop_leave hb] at hm
      cases hm
      cases rexBodyMem_turn hb with
      | error hup =>
        have hab := hup.abandoned (reaches_parsed hx).shape (reaches_spun hx hno)
        obtain ⟨g',hg'⟩ := Option.ne_none_iff_exists'.1 hother
        rw [hg] at hab
        exact hab.not_released hg' hrel
  · intro hok
    refine loop_partial (I := fun x => Reaches (rexBodyMem junk pat mem) rexStart x) (Q := fun z => Released (tableOfLoop z))
      (fun x y hx hb => hx.again hb) ?_ .refl hz
    intro x z hx hb
    have hspun := reaches_spun hx fun z hz => (hok z hz).1
    have hs := (reaches_parsed hx).shape
    cases rexBodyMem_turn hb with
    | error hup =>
      refine (hup.abandoned hs hspun).released fun g hg => ?_
      by_contra hne
      exact (hok x hx).2 ⟨⟨_,hb⟩,g,hg,hne⟩
    | ok hg hf =>
      rw [hg] at hs hspun
      exact hspun.finish hs hf

/-- The table of the pattern "(". -/
def openNodes : List RexNode := [{ type := .groupS, next := some 2, other := some 1 },{ type := .groupE, other := some 0 },
  { type := .groupS, num := 1 }]

theorem rexInit_released_iff_open : Released openNodes := by
  have h : rexInitMem 0 [40] (fun _ => true) = some (.error openNodes) := rfl
  have hfirst : rexBodyMem 0 [40] (fun _ => true) rexStart = some (.again (rexParseGroupS rexStart)) := rfl
  have hlast : rexBodyMem 0 [40] (fun _ => true) (rexParseGroupS rexStart) = some (.leave (.error openNodes)) := rfl
  have hstates : ∀ x, Reaches (rexBodyMem 0 [40] fun _ => true) rexStart x → x = rexStart ∨ x = rexParseGroupS rexStart := by
    intro x hx
    induction hx with
    | refl => exact Or.inl rfl
    | again _ hb ih =>
      rcases ih with rfl | rfl
      · rw [hfirst] at hb
        cases hb
        exact Or.inr rfl
      · rw [hlast] at hb
        cases hb
  refine (rexInit_released_iff h).2 fun x hx => ⟨fun he => ?_,?_⟩
  · exact absurd (List.mem_of_getElem? he.1) (by decide)
  · rintro ⟨⟨ns,hns⟩,g,hg,hother⟩
    rcases hstates x hx with rfl | rfl
    · rw [hfirst] at hns
      cases hns
    · cases hg
      exact hother rfl

/-- The tables of the patterns "((" and "|*". -/
def nestedNodes : List RexNode := [{ type := .groupS, next := some 2, other := some 1 },{ type := .groupE, other := some 0 },
  { type := .groupS, num := 1, next := some 3 },{ type := .groupS, num := 2, other := some 2 }]

def lostNodes : List RexNode := [{ type := .groupS, other := some 1 },{ type := .groupE, other := some 0 },{ type := .choice }]

/-- The clean-up behind "((" never ends; the one behind "|*" frees nothing of the one node there is. -/
theorem rexInit_cleanup_fails : rexInitMem 0 [40,40] (fun _ => true) = some (.error nestedNodes) ∧
    (∀ fuel, rexFree nestedNodes fuel = none) ∧ rexInitMem 0 [124,42] (fun _ => true) = some (.error lostNodes) ∧
    ¬Released lostNodes := by
  refine ⟨rfl,fun fuel => Option.eq_none_iff_forall_not_mem.2 fun ys hys => ?_,rfl,?_⟩
  · have hm : markOf nestedNodes 0 = some (.groupS,some 1,0) := rfl
    obtain ⟨f,_,zs,_,-,hf,-⟩ := call_groupS hys (by decide) hm
    have hspan : Span nestedNodes true none 2 3 (some (.next 2)) (.next 2) := .hole rfl
    have hinner : markOf nestedNodes 3 = some (.groupS,some 2,2) := rfl
    have houter : markOf nestedNodes 2 = some (.groupS,none,1) := rfl
    exact nested_never hspan rfl hinner houter nofun (by decide) hf
  · rintro ⟨f,ys,hf,hp⟩
    have hthree : rexFreeHelp lostNodes 3 (some 0) (some 1) [] = some [] := rfl
    have h1 := rexFreeHelp_mono (Nat.le_max_left f 3) hf
    have h2 := rexFreeHelp_mono (Nat.le_max_right f 3) hthree
    rw [h2] at h1
    cases h1
    exact absurd hp.length_eq (by decide)

end Catlib.Rex
