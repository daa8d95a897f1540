import Catlib.Rex.Returns
import Catlib.Rex.Sound

/-! # The captures of rex_match

The match slots behind a match of a pattern that `rex_init` made. Two things go wrong. The parser
forgets an open choice when a group is closed outside of all groups, so that an alternative
ends at a null pointer, and a match through it writes no slot for the pattern. And a slot
that was written for a group which is skipped stays written when the rest of the pattern fails.
-/
namespace Catlib.Rex

variable {ns ns' : List RexNode} {str : List UInt8} {n : RexNode} {b : Bool} {l : Loc} {i j k g lo hi p q f : ℕ} {t : List RexStep}

/-! ## Linked nodes -/

/-- A node has its successors. -/
def RexNode.linked (n : RexNode) : Bool := if n.type = .choice then n.opt1.isSome && n.opt2.isSome else n.next.isSome

/-- Every node but the end of the pattern has its successors. -/
def Linked (ns : List RexNode) : Prop := ∀ n ∈ ns.eraseIdx 1, n.linked = true

instance : Decidable (Linked ns) := inferInstanceAs (Decidable (∀ n ∈ ns.eraseIdx 1, n.linked = true))

theorem Linked.node (h : Linked ns) (hn : ns[i]? = some n) (hi : i ≠ 1) : n.linked = true := by
  refine h n (List.mem_eraseIdx_iff_getElem?.2 ⟨i,hi,hn⟩)

theorem Linked.next (h : Linked ns) (hn : ns[i]? = some n) (hi : i ≠ 1) (ht : n.type ≠ .choice) : link ns (.next i) ≠ none := by
  have hl := h.node hn hi
  rw [RexNode.linked,if_neg ht] at hl
  rw [link_next hn]
  exact Option.isSome_iff_ne_none.1 hl

theorem Linked.opts (h : Linked ns) (hn : ns[i]? = some n) (hi : i ≠ 1) (ht : n.type = .choice) :
    link ns (.opt1 i) ≠ none ∧ link ns (.opt2 i) ≠ none := by
  have hl := h.node hn hi
  rw [RexNode.linked,if_pos ht,Bool.and_eq_true] at hl
  rw [link,link,show (Loc.opt1 i).idx = i from rfl,show (Loc.opt2 i).idx = i from rfl,hn]
  exact hl.imp Option.isSome_iff_ne_none.1 Option.isSome_iff_ne_none.1

theorem Leads.seg (h : Leads ns b lo hi l j) (hk : Linked ns) (hlo : 1 ≤ lo) (hl : link ns l ≠ none) : Seg ns (link ns l) (some j) := by
  induction h with
  | done h =>
    rw [h]
    exact .done
  | null h => exact absurd h hl
  | @lone _ _ _ i _ _ _ h hin hn ht _ ih =>
    obtain ⟨n,hnode,rfl⟩ := node_of_core hn
    have hseg := ih hlo (hk.next hnode (by omega) ht.ne_choice)
    rw [link_next hnode] at hseg
    rw [h]
    rcases ht with ⟨ht,-⟩ | ht | ht | ht
    · exact .elem hnode (Or.inl ht) hseg
    · exact .elem hnode (Or.inr ht) hseg
    · exact .anchor hnode (Or.inl ht) hseg
    · exact .anchor hnode (Or.inr ht) hseg
  | choice h hc ht _ _ _ ih1 ih2 =>
    obtain ⟨n,hn,htype,-,h1,h2,-⟩ := node_of_type ht
    have hopts := hk.opts hn (by omega) htype
    rw [h]
    exact .choice hn htype (by rw [h1]; exact ih1 hlo hopts.1) (by rw [h2]; exact ih2 hlo hopts.2)
  | @group _ _ _ i k _ _ h hin hg _ _ ihb ih =>
    obtain ⟨rgs,rge,hg⟩ := hg
    have hbody := ihb hlo (hk.next hg.start (by omega) (by rw [hg.groupS]; exact nofun))
    have hrest := ih hlo (hk.next hg.stop (by omega) (by rw [hg.groupE]; exact nofun))
    rw [link_next hg.start] at hbody
    rw [link_next hg.stop] at hrest
    rw [h]
    exact .group hg hbody hrest

theorem Compiled.wellFormed (h : Compiled ns) (hk : Linked ns) : WellFormed ns := by
  obtain ⟨rgs,rge,hg,hnext,hend,hmin,hmax,-⟩ := h.group
  refine ⟨rgs,rge,hg,?_,hend,hmin,hmax⟩
  rw [hnext]
  exact h.list.seg hk le_rfl (hk.next hg.start (by omega) (by rw [hg.groupS]; exact nofun))

/-! ## The steps of a traversal -/

theorem Fits.step (h : Fits str n p q) : p ≤ q := h.le.1

theorem Reps.within (h : Reps str i n k p q t) : ∀ s ∈ t, p ≤ s.start ∧ s.stop ≤ q := by
  induction h with
  | zero => exact nofun
  | succ hf h ih =>
    refine List.forall_mem_cons.2 ⟨⟨le_rfl,h.le⟩,fun s hs => ⟨?_,(ih s hs).2⟩⟩
    exact hf.le.1.trans (ih s hs).1

mutual

theorem Trav.within {a e : Option ℕ} {p q : ℕ} {t : List RexStep} : Trav ns str a e p q t → ∀ s ∈ t, p ≤ s.start ∧ s.stop ≤ q
  | .done => nofun
  | .elem _ _ hr _ h => fun s hs => by
    rcases List.mem_append.1 hs with hs | hs
    · exact ⟨(hr.within s hs).1,(hr.within s hs).2.trans h.le⟩
    · exact ⟨hr.le.trans (h.within s hs).1,(h.within s hs).2⟩
  | .anchor _ _ _ h => List.forall_mem_cons.2 ⟨⟨le_rfl,h.le⟩,h.within⟩
  | .opt1 _ _ h => List.forall_mem_cons.2 ⟨⟨le_rfl,h.le⟩,h.within⟩
  | .opt2 _ _ h => List.forall_mem_cons.2 ⟨⟨le_rfl,h.le⟩,h.within⟩
  | .group _ hi _ h => fun s hs => by
    rcases List.mem_append.1 hs with hs | hs
    · exact ⟨(hi.within s hs).1,(hi.within s hs).2.trans h.le⟩
    rcases List.mem_cons.1 hs with rfl | hs
    · exact ⟨le_rfl,h.le⟩
    · exact ⟨hi.le.trans (h.within s hs).1,(h.within s hs).2⟩

theorem Iters.within {b : Option ℕ} {j k p q : ℕ} {t : List RexStep} : Iters ns str b j k p q t → ∀ s ∈ t, p ≤ s.start ∧ s.stop ≤ q
  | .zero => nofun
  | .succ h hi => fun s hs => by
    rcases List.mem_append.1 hs with hs | hs
    · exact ⟨(h.within s hs).1,(h.within s hs).2.trans hi.le⟩
    · exact ⟨h.le.trans (hi.within s hs).1,(hi.within s hs).2⟩

end

theorem Reps.node (h : Reps str i n k p q t) : ∀ s ∈ t, s.node = i := by
  induction h with
  | zero => exact nofun
  | succ _ _ ih => exact List.forall_mem_cons.2 ⟨rfl,ih⟩

theorem Iters.forall {P : RexStep → Prop} {a : Option ℕ} (hb : ∀ p q t, Trav ns str a (some j) p q t → ∀ s ∈ t, P s) {k p q : ℕ}
    {t : List RexStep} : Iters ns str a j k p q t → ∀ s ∈ t, P s
  | .zero => nofun
  | .succ h hi => fun s hs => (List.mem_append.1 hs).elim (hb _ _ _ h s) (hi.forall hb s)

theorem Trav.first {P : RexStep → Prop} {e : Option ℕ} (h : Trav ns str (some i) e p q t) (hn : ns[i]? = some n)
    (hi : n.type ≠ .groupE → ∀ s : RexStep, s.node = i → P s)
    (hnext : n.type = .string ∨ n.type = .cls ∨ n.type = .banchor ∨ n.type = .eanchor →
      ∀ p q t, Trav ns str n.next e p q t → ∀ s ∈ t, P s)
    (hopt : n.type = .choice → ∀ p q t, Trav ns str n.opt1 e p q t ∨ Trav ns str n.opt2 e p q t → ∀ s ∈ t, P s)
    (hgroup : ∀ j rge, Group ns i j n rge →
      (∀ p q t, Trav ns str n.next (some j) p q t → ∀ s ∈ t, P s) ∧ ∀ p q t, Trav ns str rge.next e p q t → ∀ s ∈ t, P s) :
    ∀ s ∈ t, P s := by
  cases h with
  | done => exact nofun
  | elem hn' ht hr _ h =>
    rw [hn] at hn'
    cases hn'
    intro s hs
    rcases List.mem_append.1 hs with hs | hs
    · exact hi (by rcases ht with ht | ht <;> rw [ht] <;> exact nofun) s (hr.node s hs)
    · exact hnext (by tauto) _ _ _ h s hs
  | anchor hn' ht _ h =>
    rw [hn] at hn'
    cases hn'
    exact List.forall_mem_cons.2 ⟨hi (by rcases ht with ht | ht <;> rw [ht] <;> exact nofun) _ rfl,hnext (by tauto) _ _ _ h⟩
  | opt1 hn' ht h =>
    rw [hn] at hn'
    cases hn'
    exact List.forall_mem_cons.2 ⟨hi (by rw [ht]; exact nofun) _ rfl,hopt ht _ _ _ (Or.inl h)⟩
  | opt2 hn' ht h =>
    rw [hn] at hn'
    cases hn'
    exact List.forall_mem_cons.2 ⟨hi (by rw [ht]; exact nofun) _ rfl,hopt ht _ _ _ (Or.inr h)⟩
  | group hg hr _ h =>
    have hn' := hg.start
    rw [hn] at hn'
    cases hn'
    obtain ⟨hbody,hrest⟩ := hgroup _ _ hg
    intro s hs
    rcases List.mem_append.1 hs with hs | hs
    · exact hr.forall hbody s hs
    rcases List.mem_cons.1 hs with rfl | hs
    · exact hi (by rw [hg.groupS]; exact nofun) _ rfl
    · exact hrest _ _ _ h s hs

theorem Leads.nodes (h : Leads ns b lo hi l j) (hj : typeOf ns j = some .groupE) (ht : Trav ns str (link ns l) (some j) p q t) :
    ∀ s ∈ t, lo < s.node := by
  induction h generalizing p q t with
  | done h =>
    obtain ⟨n,hn,hty,-⟩ := node_of_type hj
    rw [h] at ht
    refine ht.first hn (fun hne => absurd hty hne) (fun hs => ?_) (fun hc => ?_) fun k rge hg => ?_
    · rw [hty] at hs
      rcases hs with hs | hs | hs | hs <;> cases hs
    · exact nomatch hty.symm.trans hc
    · exact nomatch hty.symm.trans hg.groupS
  | null h =>
    rw [h] at ht
    cases ht
  | @lone _ lo _ i _ _ _ h hin hn hlone _ ih =>
    obtain ⟨n,hnode,rfl⟩ := node_of_core hn
    rw [h] at ht
    refine ht.first hnode (fun _ s hs => by omega) (fun _ p q t ht => ?_) (fun hc => absurd hc hlone.ne_choice) fun k rge hg => ?_
    · rw [← link_next hnode] at ht
      exact ih hj ht
    · rcases hlone with ⟨hty,-⟩ | hty | hty | hty <;> exact nomatch hty.symm.trans hg.groupS
  | choice h hc hty _ _ _ ih1 ih2 =>
    obtain ⟨n,hn,htype,-,h1,h2,-⟩ := node_of_type hty
    rw [h] at ht
    refine ht.first hn (fun _ s hs => by omega) (fun hs => ?_) (fun _ p q t ht => ?_) fun k rge hg => ?_
    · rw [htype] at hs
      rcases hs with hs | hs | hs | hs <;> cases hs
    · rw [h1,h2] at ht
      exact ht.elim (ih1 hj) (ih2 hj)
    · exact nomatch htype.symm.trans hg.groupS
  | @group _ lo _ i k _ _ h hin hg _ _ ihb ih =>
    obtain ⟨rgs,rge,hg⟩ := hg
    rw [h] at ht
    refine ht.first hg.start (fun _ s hs => by omega) (fun hs => ?_) (fun hc => ?_) fun k' rge' hg' => ?_
    · rw [hg.groupS] at hs
      rcases hs with hs | hs | hs | hs <;> cases hs
    · exact nomatch hg.groupS.symm.trans hc
    · have hk : k' = k := Option.some.inj (hg'.forth.symm.trans hg.forth)
      subst hk
      have hrge : rge' = rge := Option.some.inj (hg'.stop.symm.trans hg.stop)
      subst hrge
      rw [← link_next hg.start,← link_next hg.stop]
      refine ⟨fun p q t ht => ihb ?_ ht,fun p q t ht => ih hj ht⟩
      rw [typeOf,hg.stop]
      exact congrArg some hg.groupE

theorem Compiled.whole (h : Compiled ns) (ht : Whole ns str p q t) : ∃ u, t = u ++ [⟨0,p,q⟩] ∧ ∀ s ∈ u, s.node ≠ 0 := by
  obtain ⟨rgs,rge,hg,hnext,hend,-⟩ := h.group
  have hnode : ∀ n, ns[0]? = some n → n.type = .groupS := fun n hn => by
    rw [hg.start] at hn
    cases hn
    exact hg.groupS
  cases ht with
  | elem hn ht => rcases ht with ht | ht <;> exact nomatch ht.symm.trans (hnode _ hn)
  | anchor hn ht => rcases ht with ht | ht <;> exact nomatch ht.symm.trans (hnode _ hn)
  | opt1 hn ht => exact nomatch ht.symm.trans (hnode _ hn)
  | opt2 hn ht => exact nomatch ht.symm.trans (hnode _ hn)
  | @group _ _ j k _ q' _ rgs' rge' u v hg' hi _ hrest =>
    obtain rfl : rgs' = rgs := Option.some.inj (hg'.start.symm.trans hg.start)
    obtain rfl : j = 1 := Option.some.inj (hg'.forth.symm.trans hg.forth)
    obtain rfl : rge' = rge := Option.some.inj (hg'.stop.symm.trans hg.stop)
    rw [hend] at hrest
    cases hrest
    refine ⟨u,rfl,fun s hs => ?_⟩
    have hlt : 1 < s.node := by
      refine hi.forall (fun p q t ht => h.list.nodes ?_ (by rwa [← hnext])) s hs
      rw [typeOf,hg.stop]
      exact congrArg some hg.groupE
    omega

/-! ## The numbers of the groups -/

/-- The groups have different numbers, up to the last one that was given. -/
structure Numbers (ns : List RexNode) (g : ℕ) : Prop where
  le : ∀ i k, Numbered ns i k → k ≤ g
  inj : ∀ i j k, Numbered ns i k → Numbered ns j k → i = j

theorem numbered_core : Numbered ns i k ↔ ∃ n, coreOf ns i = some n ∧ n.type = .groupS ∧ n.num = k := by
  constructor
  · rintro ⟨n,hn,ht,hk⟩
    refine ⟨n.core,?_,ht,hk⟩
    rw [coreOf,hn]
    rfl
  · rintro ⟨m,hm,ht,hk⟩
    obtain ⟨n,hn,rfl⟩ := node_of_core hm
    exact ⟨n,hn,ht,hk⟩

theorem numbered_grow {r : Loc} (h : Numbered (grow ns r n) i k) : Numbered ns i k ∨ i = ns.length ∧ n.type = .groupS ∧ n.num = k := by
  obtain ⟨m,hm,ht,hk⟩ := numbered_core.1 h
  rw [coreOf_grow] at hm
  split at hm
  · rename_i hi
    cases hm
    exact Or.inr ⟨hi,ht,hk⟩
  · exact Or.inl (numbered_core.2 ⟨m,hm,ht,hk⟩)

theorem Numbers.congr (h : Numbers ns g) (hn : ∀ i k, Numbered ns' i k → Numbered ns i k) : Numbers ns' g :=
  ⟨fun i k hi => h.le i k (hn i k hi),fun i j k hi hj => h.inj i j k (hn i k hi) (hn j k hj)⟩

theorem Numbers.grow {r : Loc} (h : Numbers ns g) (hn : n.type ≠ .groupS) : Numbers (Rex.grow ns r n) g :=
  h.congr fun _ _ hi => (numbered_grow hi).resolve_right fun hi => hn hi.2.1

theorem Numbers.groupS {r : Loc} (h : Numbers ns g) (hn : n.num = g + 1) : Numbers (Rex.grow ns r n) (g + 1) := by
  have hle : ∀ i k, Numbered ns i k → k ≠ g + 1 := fun i k hi => by
    have := h.le i k hi
    omega
  refine ⟨fun i k hi => ?_,fun i j k hi hj => ?_⟩
  · rcases numbered_grow hi with hi | ⟨-,-,hk⟩
    · exact (h.le i k hi).trans (Nat.le_succ g)
    · omega
  · rcases numbered_grow hi with hi | ⟨hi,-,hk⟩ <;> rcases numbered_grow hj with hj | ⟨hj,-,hk'⟩
    · exact h.inj i j k hi hj
    · exact absurd (hk'.symm.trans hn) (hle i k hi)
    · exact absurd (hk.symm.trans hn) (hle j k hj)
    · exact hi.trans hj.symm

theorem numbered_congr {v : ℕ} (h : coreOf ns' i = coreOf ns i) (hi : Numbered ns' i v) : Numbered ns i v := by
  rw [numbered_core] at hi ⊢
  rwa [← h]

theorem numbered_modify {f : RexNode → RexNode} (h : Numbered (ns.modify j f) i k) (hf : ∀ n, (f n).type = n.type ∧ (f n).num = n.num) :
    Numbered ns i k := by
  obtain ⟨m,hm,ht,hk⟩ := h
  rw [List.getElem?_modify] at hm
  obtain ⟨n,hn,rfl⟩ := Option.map_eq_some_iff.1 hm
  split at ht
  · rename_i hij
    rw [if_pos hij] at hk
    exact ⟨n,hn,(hf n).1.symm.trans ht,(hf n).2.symm.trans hk⟩
  · rename_i hij
    rw [if_neg hij] at hk
    exact ⟨n,hn,ht,hk⟩

theorem numbered_set {e : RexNode} (h : Numbered (ns.set j e) i k) (hj : ns[j]? = some n) (he : e.type = n.type ∧ e.num = n.num) :
    Numbered ns i k := by
  obtain ⟨m,hm,ht,hk⟩ := h
  rw [List.getElem?_set] at hm
  split at hm
  · rename_i hij
    subst hij
    split at hm
    · cases hm
      exact ⟨n,hj,he.1.symm.trans ht,he.2.symm.trans hk⟩
    · cases hm
  · exact ⟨m,hm,ht,hk⟩

theorem Numbers.groupE {pat : List UInt8} {x y : RexSt} (h : Numbers x.nodes x.gnum) (hp : rexParseGroupE pat x = some (.ok y)) :
    Numbers y.nodes y.gnum := by
  unfold rexParseGroupE at hp
  obtain ⟨p,r,ns,gs,lc,gnum⟩ := x
  dsimp only at h hp
  cases gs with
  | none => cases hp
  | some g =>
    simp only [RexSt.append, Option.bind_eq_bind, Option.bind_eq_some_iff] at hp
    obtain ⟨rg,-,ns3,hns3,lc',-,e,he,z,hz,hp⟩ := hp
    cases z with
    | error e => cases hp
    | ok z =>
      obtain ⟨e',q⟩ := z
      obtain rfl := Except.ok.inj (Option.some.inj hp)
      obtain ⟨a,b,rfl⟩ := rexCheckRepitions_some hz
      refine (Numbers.grow (r := r) (n := { type := .groupE, num := rg.num, other := some g }) h (by rintro ⟨⟩)).congr fun i k hi => ?_
      have h1 := numbered_set (numbered_modify hi fun _ => ⟨rfl,rfl⟩) he ⟨rfl,rfl⟩
      exact numbered_modify (numbered_congr (finalizeChoices_core hns3 i) h1) fun _ => ⟨rfl,rfl⟩

theorem Numbers.parseChoice {x y : RexSt} (h : Numbers x.nodes x.gnum) (hp : rexParseChoice x = some y) : Numbers y.nodes y.gnum := by
  simp only [rexParseChoice, Option.bind_eq_bind, Option.bind_eq_some_iff] at hp
  obtain ⟨opt1,-,hp⟩ := hp
  cases hp
  refine h.congr fun i k hi => ?_
  obtain ⟨m,hm,ht,hk⟩ := numbered_core.1 hi
  rw [coreOf_concat,length_setLink,length_setLink,coreOf_setLink,coreOf_setLink] at hm
  split at hm
  · cases hm
    cases ht
  · exact numbered_core.2 ⟨m,hm,ht,hk⟩

theorem rexBody_numbers {junk : UInt8} {pat : List UInt8} {x y : RexSt} (h : Numbers x.nodes x.gnum)
    (hb : rexBody junk pat x = some (.again y)) : Numbers y.nodes y.gnum := by
  rcases rexBody_again hb with hg | rfl | hg | ⟨-,hg⟩
  · cases hg with
    | one _ hl => exact h.grow hl.ne_groupS
    | two _ hl _ hl' => exact (h.grow hl.ne_groupS).grow hl'.ne_groupS
  · exact h.groupS rfl
  · exact h.groupE hg
  · exact h.parseChoice hg

theorem rexInit_numbers {junk : UInt8} {pat : List UInt8} {a : Bool} (h : rexInit junk pat = some (.ok (ns,a))) :
    ∀ i j k, Numbered ns i k → Numbered ns j k → i = j := by
  have hfirst : ∀ i k, Numbered rexGroups i k → i = 0 ∧ k = 0 := by
    rintro (_ | _ | i) k ⟨n,hn,ht,hk⟩
    · cases hn
      exact ⟨rfl,hk.symm⟩
    · cases hn
      cases ht
    · cases hn
  have hstart : Numbers rexGroups 0 :=
    ⟨fun i k hi => (hfirst i k hi).2.le,fun i j k hi hj => (hfirst i k hi).1.trans (hfirst j k hj).1.symm⟩
  obtain ⟨x,hx,-,hf⟩ := rexInit_invariant (I := fun x => Numbers x.nodes x.gnum) (fun x y hx hb => rexBody_numbers hx hb) hstart h
  refine (hx.congr fun i k hi => ?_).inj
  exact numbered_congr ((finalizeChoices_core hf i).trans (coreOf_setLink _)) hi

/-! ## The slots -/

/-- The slots of a match against its traversal: the one of the pattern has all that is consumed, and
each other one is valid if and only if its group is traversed, and then it has a part that the group consumes. -/
structure Captures (ns : List RexNode) (x : RexSlots) (p q : ℕ) (t : List RexStep) : Prop where
  whole : x.locs[0]? = some ⟨true,p,q - p⟩
  valid : ∀ k l, x.locs[k]? = some l → (l.valid = true ↔ ∃ s ∈ t, Numbered ns s.node k)
  part : ∀ k l, x.locs[k]? = some l → l.valid = true → ∃ s ∈ t, Numbered ns s.node k ∧ l = s.loc ∧ p ≤ s.start ∧ s.stop ≤ q

theorem SlotOk.fresh {l l' : RexMatchLoc} (h : SlotOk ns k t l l') (hl : l.valid = false) :
    (l'.valid = true ↔ ∃ s ∈ t, Numbered ns s.node k) ∧ (l'.valid = true → ∃ s ∈ t, Numbered ns s.node k ∧ l' = s.loc) := by
  have hpart : l'.valid = true → ∃ s ∈ t, Numbered ns s.node k ∧ l' = s.loc := by
    intro hv
    rcases h.written with rfl | ⟨-,hs⟩
    · rw [hl] at hv
      cases hv
    · exact hs
  exact ⟨⟨fun hv => (hpart hv).imp fun s hs => ⟨hs.1,hs.2.1⟩,fun ⟨s,hs,hn⟩ => h.valid s hs hn⟩,hpart⟩

theorem Captured.whole_slot {junk : UInt8} {pat : List UInt8} {a : Bool} {x y : RexSlots} {l : RexMatchLoc}
    (h : rexInit junk pat = some (.ok (ns,a))) (hcap : Captured ns x y t) (ht : Whole ns str p q t) (hv : 0 ∉ y.vain)
    (hx : x.locs[0]? = some l) (hl : l.valid = false) : y.locs[0]? = some ⟨true,p,q - p⟩ := by
  have hc := rexInit_compiled h
  obtain ⟨u,hu,hne⟩ := hc.whole ht
  obtain ⟨rgs,rge,hg,-,-,-,-,hnum⟩ := hc.group
  have hpos : 0 < y.locs.length := by
    rw [hcap.toSpoils.length]
    exact (List.getElem?_eq_some_iff.1 hx).1
  have hslot := List.getElem?_eq_getElem hpos
  have hfresh := (hcap.slots 0 _ _ hv hx hslot).fresh hl
  have hzero : Numbered ns 0 0 := ⟨rgs,hg.start,hg.groupS,hnum⟩
  have hvalid : (y.locs[0]).valid = true := hfresh.1.2 ⟨⟨0,p,q⟩,by rw [hu]; exact List.mem_append_right _ List.mem_cons_self,hzero⟩
  obtain ⟨s,hs,hn,he⟩ := hfresh.2 hvalid
  rw [hslot,he]
  have hnode := rexInit_numbers h s.node 0 0 hn hzero
  rw [hu] at hs
  rcases List.mem_append.1 hs with hs | hs
  · exact absurd hnode (hne s hs)
  · rw [List.mem_singleton.1 hs]
    rfl

end Catlib.Rex
