import Catlib.Peg.Ends

/-! # When cpg_parse ends

The end of a match does not depend on the actions. An input that fills a buffer of 2³² bytes
has no result at all.
-/
namespace Catlib.Peg

variable {σ : Type} {g : PegGrammar σ} {w x : List UInt8} {s : CpgState σ} {k : ℤ}

/-! ## Actions

An action that answers with an error only ends the run earlier.
-/

/-- The node with an action that never answers with an error. -/
def PegNode.tame (n : PegNode σ) : PegNode σ :=
  { n with actionCb := fun i r a => (max 0 (n.actionCb i r a).1,(n.actionCb i r a).2) }

def PegGrammar.tame (g : PegGrammar σ) : PegGrammar σ := { g with nodes := g.nodes.map PegNode.tame }

theorem tame_mild (g : PegGrammar σ) : g.tame.Mild := by
  intro pn hpn i r a
  obtain ⟨n,-,rfl⟩ := List.mem_map.1 hpn
  exact le_max_left _ _

theorem tame_node (g : PegGrammar σ) (k : ℤ) : g.tame.node k = (g.node k).map PegNode.tame := by
  rw [PegGrammar.node,PegGrammar.node]
  split
  · rfl
  · exact List.getElem?_map ..

theorem tame_valid (g : PegGrammar σ) (k : ℤ) (type : PegType) : g.tame.valid k type = (g.valid k type).map PegNode.tame := by
  rw [PegGrammar.valid,PegGrammar.valid,tame_node]
  cases g.node k with
  | none => rfl
  | some n =>
    simp only [Option.map_some, Option.bind_eq_bind, Option.bind_some]
    by_cases ht : n.type = type
    · rw [if_pos ht,if_pos (show n.tame.type = type from ht)]
      rfl
    · rw [if_neg ht,if_neg (show ¬n.tame.type = type from ht)]
      rfl

theorem matchPexp_tame (g : PegGrammar σ) (k : ℤ) : matchPexp g.tame k = matchPexp g k := by
  rw [matchPexp,matchPexp,tame_node]
  cases g.node k <;> rfl

theorem rules_tame (g : PegGrammar σ) : rules g.tame = rules g := by
  funext a
  cases a with
  | expr k | seqn k | prims k =>
    simp only [rules, tame_node]
    cases g.node k <;> rfl
  | pri k =>
    simp only [rules, tame_node, matchPexp_tame]
    cases g.node k <;> rfl
  | ident k =>
    simp only [rules, tame_node]
    cases g.node k with
    | none => rfl
    | some n =>
      simp only [Option.map_some, show n.tame.subnode = n.subnode from rfl, show g.tame.isToken = g.isToken from rfl, tame_node]
      cases g.node n.subnode <;> rfl

def Failed (r : CpgState σ × ℤ) : Prop := r.2 < 0

theorem tame_bind {β : Type} (g : PegGrammar σ) (k : ℤ) {f : PegNode σ → Option β} (hf : ∀ n, f n.tame = f n) :
    (g.tame.node k).bind f = (g.node k).bind f := by
  rw [tame_node]
  cases g.node k with
  | none => rfl
  | some n => exact hf n

section
variable {m m' : Matcher σ} (h : ∀ s k, GrowsOr Failed (m s k) (m' s k))
include h

theorem exprBody_tame (x : CpgState σ × ℤ) : GrowsOr (BadTurn Failed) (exprBody g.tame m x) (exprBody g m' x) := by
  refine GrowsOr.ite (GrowsOr.bind (h _ _) (fun a => GrowsOr.ite (GrowsOr.refl _ _) ?_) fun a ha => ?_) (GrowsOr.refl _ _)
  · rw [Option.bind_eq_bind,tame_bind g _ fun n => rfl]
    exact GrowsOr.refl _ _
  · exact ⟨.leave a,if_pos (ne_of_lt ha),a,rfl,ha⟩

theorem seqBody_tame (oc : Cursor) (x : CpgState σ × ℤ) :
    GrowsOr (BadTurn Failed) (seqBody g.tame m oc x) (seqBody g m' oc x) := by
  refine GrowsOr.ite (GrowsOr.bind (h _ _) (fun a => GrowsOr.ite (GrowsOr.refl _ _) ?_) fun a ha => ?_) (GrowsOr.refl _ _)
  · rw [Option.bind_eq_bind,tame_bind g _ fun n => rfl]
    exact GrowsOr.refl _ _
  · exact ⟨.leave ({ a.1 with cur := oc },a.2),if_pos (le_of_lt ha),_,rfl,ha⟩

end

theorem priBody_tame {m m' : CpgState σ → Option (CpgState σ × ℤ)} (h : ∀ s, GrowsOr Failed (m s) (m' s)) (rep : Bool)
    (x : CpgState σ × ℕ) :
    GrowsOr (BadTurn fun r : CpgState σ × ℕ × ℤ => r.2.2 < 0) (priBody rep m x) (priBody rep m' x) := by
  refine GrowsOr.bind (h _) (fun a => GrowsOr.refl _ _) fun a ha => ?_
  have hpos : ¬a.2 > 0 := not_lt.2 (le_of_lt ha)
  exact ⟨.leave (a.1,x.2,a.2),by simp [hpos],_,rfl,ha⟩

theorem runAction_tame (n : PegNode σ) (k : ℤ) (oc : Cursor) (s : CpgState σ) (rv : ℤ) :
    runAction n.tame k oc s rv = runAction n k oc s rv ∨ (runAction n k oc s rv).2 < 0 := by
  rw [runAction,runAction]
  by_cases hcall : rv > 0 ∧ n.action = .callback
  · rw [if_pos hcall,if_pos (show rv > 0 ∧ n.tame.action = .callback from hcall)]
    dsimp only [PegNode.tame]
    split
    · omega
    · split
      · rename_i h2
        exact Or.inr h2
      · exact Or.inl rfl
  · rw [if_neg hcall,if_neg (show ¬(rv > 0 ∧ n.tame.action = .callback) from hcall)]
    exact Or.inl rfl

theorem terminals_tame (g : PegGrammar σ) (s : CpgState σ) (k : ℤ) :
    cpgMatchToken g.tame s k = cpgMatchToken g s k ∧ cpgMatchLiteral g.tame s k = cpgMatchLiteral g s k ∧
      cpgMatchClass g.tame s k = cpgMatchClass g s k := by
  refine ⟨?_,?_,?_⟩
  · rw [cpgMatchToken,cpgMatchToken,tame_valid]
    cases g.valid k .identifier <;> rfl
  · rw [cpgMatchLiteral,cpgMatchLiteral,tame_node]
    cases g.node k <;> rfl
  · rw [cpgMatchClass,cpgMatchClass,tame_valid]
    cases g.valid k .cls <;> rfl

theorem matchNode_tame {me me' mi mi' : Matcher σ} (he : ∀ s k, GrowsOr Failed (me s k) (me' s k))
    (hi : ∀ s k, GrowsOr Failed (mi s k) (mi' s k)) (t : PegType) (k : ℤ) (s : CpgState σ) :
    GrowsOr Failed (matchNode g.tame me mi t k s) (matchNode g me' mi' t k s) := by
  cases t with
  | sequence => exact he s k
  | identifier => exact hi s k
  | literal =>
    dsimp only [matchNode]
    rw [(terminals_tame g s k).2.1]
    exact GrowsOr.refl _ _
  | cls =>
    dsimp only [matchNode]
    rw [(terminals_tame g s k).2.2]
    exact GrowsOr.refl _ _
  | _ => exact GrowsOr.refl _ _

theorem cpg_tame (g : PegGrammar σ) (f : ℕ) :
    (∀ s k, GrowsOr Failed (cpgMatchExpression g.tame f s k) (cpgMatchExpression g f s k)) ∧
    (∀ s k, GrowsOr Failed (cpgMatchSequence g.tame f s k) (cpgMatchSequence g f s k)) ∧
    (∀ s k, GrowsOr Failed (cpgMatchPrimary g.tame f s k) (cpgMatchPrimary g f s k)) ∧
    ∀ s k, GrowsOr Failed (cpgMatchIdentifier g.tame f s k) (cpgMatchIdentifier g f s k) := by
  induction f with
  | zero => exact ⟨fun _ _ => GrowsOr.refl _ _,fun _ _ => GrowsOr.refl _ _,fun _ _ => GrowsOr.refl _ _,fun _ _ => GrowsOr.refl _ _⟩
  | succ f ih =>
    obtain ⟨ihe,ihs,ihp,ihi⟩ := ih
    refine ⟨fun s k => ?_,fun s k => ?_,fun s k => ?_,fun s k => ?_⟩
    · simp only [cpgMatchExpression]
      exact loop_growsOr (exprBody_tame ihs) f _
    · simp only [cpgMatchSequence, tame_valid]
      cases g.valid k .sequence with
      | none =>
        simp only [Option.map_none, Option.bind_eq_bind, Option.bind_none]
        exact GrowsOr.refl _ _
      | some n => exact loop_growsOr (seqBody_tame ihp s.cur) f _
    · simp only [cpgMatchPrimary, tame_valid, tame_node]
      cases g.valid k .primary with
      | none =>
        simp only [Option.map_none, Option.bind_eq_bind, Option.bind_none]
        exact GrowsOr.refl _ _
      | some n =>
        simp only [Option.map_some, Option.bind_eq_bind, Option.bind_some]
        change GrowsOr _ (((g.node n.subnode).map PegNode.tame).bind _) _
        cases g.node n.subnode with
        | none => exact GrowsOr.refl _ _
        | some m =>
          change GrowsOr _ ((loop _ f (s,0)).bind _) ((loop _ f (s,0)).bind _)
          refine GrowsOr.bind (loop_growsOr (fun x => priBody_tame (fun t => matchNode_tame ihe ihi _ _ t) _ x) f _)
            (fun a => GrowsOr.ite (GrowsOr.refl _ _) ?_) fun a ha => ⟨(a.1,a.2.2),if_pos ha,ha⟩
          refine GrowsOr.bind (GrowsOr.refl (fun _ => False) _) (fun rv => ?_) (by rintro _ ⟨⟩)
          refine GrowsOr.bind (GrowsOr.refl (fun _ => False) _) (fun b => ?_) (by rintro _ ⟨⟩)
          rintro r ⟨⟩
          exact (runAction_tame n k s.cur b.1 b.2).imp (fun h => congrArg some h.symm) fun h => ⟨_,rfl,h⟩
    · simp only [cpgMatchIdentifier, tame_node]
      cases g.node k with
      | none => exact GrowsOr.refl _ _
      | some n =>
        simp only [Option.map_some, Option.bind_eq_bind, Option.bind_some]
        refine GrowsOr.ite ?_ ?_
        · rw [(terminals_tame g s k).1]
          exact GrowsOr.refl _ _
        · rw [tame_valid]
          change GrowsOr _ (((g.valid n.subnode .definition).map PegNode.tame).bind _) _
          cases g.valid n.subnode .definition with
          | none => exact GrowsOr.refl _ _
          | some d => exact ihe s d.next

theorem tame_valid_some {type : PegType} {m : PegNode σ} (h : g.tame.valid k type = some m) :
    ∃ n, g.valid k type = some n ∧ m = n.tame := by
  rw [tame_valid,Option.map_eq_some_iff] at h
  obtain ⟨n,hn,rfl⟩ := h
  exact ⟨n,hn,rfl⟩

theorem tame_valid_isSome (g : PegGrammar σ) (k : ℤ) (type : PegType) :
    (g.tame.valid k type).isSome = (g.valid k type).isSome := by
  rw [tame_valid,Option.isSome_map]

theorem link_tame {j : ℤ} (h : Link g.tame k j) : Link g k j := by
  cases h with
  | nextSequence h =>
    obtain ⟨n,hn,rfl⟩ := tame_valid_some h
    exact (show Link g k n.next from .nextSequence hn)
  | nextPrimary h =>
    obtain ⟨n,hn,rfl⟩ := tame_valid_some h
    exact (show Link g k n.next from .nextPrimary hn)
  | pri h =>
    obtain ⟨n,hn,rfl⟩ := tame_valid_some h
    exact (show Link g k n.subnode from .pri hn)
  | inner h h' =>
    obtain ⟨n,hn,rfl⟩ := tame_valid_some h
    rw [tame_valid_isSome] at h'
    exact (show Link g k n.subnode from .inner hn h')

theorem linked_tame (hl : Linked g) : Linked g.tame where
  sequence h := by
    obtain ⟨n,hn,rfl⟩ := tame_valid_some h
    rw [tame_valid_isSome,tame_valid_isSome]
    have hlinks := hl.sequence hn
    exact hlinks
  primary h := by
    obtain ⟨n,hn,rfl⟩ := tame_valid_some h
    obtain ⟨h1,h2,h3,m,hm,h4⟩ := hl.primary hn
    rw [tame_valid_isSome,tame_node]
    exact ⟨h1,h2,h3,m.tame,congrArg (Option.map PegNode.tame) hm,h4⟩
  identifier h := by
    obtain ⟨n,hn,rfl⟩ := tame_valid_some h
    rw [tame_valid_isSome]
    have hlinks := hl.identifier hn
    exact hlinks
  definition h := by
    obtain ⟨n,hn,rfl⟩ := tame_valid_some h
    rw [tame_valid_isSome]
    have hlinks := hl.definition hn
    exact hlinks
  cls h := by
    obtain ⟨n,hn,rfl⟩ := tame_valid_some h
    have hlinks := hl.cls hn
    exact hlinks
  acyclic k h := hl.acyclic k (Relation.TransGen.mono (fun _ _ => link_tame) k k h)

theorem consuming_tame (hcons : Consuming g) : Consuming g.tame := by
  intro k m h hrep
  obtain ⟨n,hn,rfl⟩ := tame_valid_some h
  rw [rules_tame,matchPexp_tame]
  exact hcons k n hn hrep

/-! ## The parse -/

theorem idle_star {n m : PegNode σ} (hv : g.valid k .primary = some n) (hsfx : isRepeat n = true)
    (hm : g.node n.subnode = some m) (hlit : m.type = .literal) (hstr : m.str = []) (f : ℕ) (s : CpgState σ) :
    cpgMatchPrimary g f s k = none := by
  have hmatch : ∀ f t, matchAt g m.type n.subnode f t = some (t,1) := by
    intro f t
    simp [matchAt, matchNode, hlit, cpgMatchLiteral, hm, hstr, literalLoop]
  have hloop : ∀ b f nmatch, loop (priBody true (matchAt g m.type n.subnode b)) f (s,nmatch) = none := by
    intro b f
    induction f with
    | zero => exact fun _ => rfl
    | succ f ih =>
      intro nmatch
      have hbody : priBody true (matchAt g m.type n.subnode b) (s,nmatch) = some (.again (s,nmatch + 1)) := by
        simp [priBody, hmatch]
      rw [loop_again hbody]
      exact ih _
  cases f with
  | zero => simp [cpgMatchPrimary]
  | succ f =>
    simp only [cpgMatchPrimary, hv, hm, Option.bind_eq_bind, Option.bind_some]
    change (loop (priBody (isRepeat n) (matchAt g m.type n.subnode f)) f (s,0)).bind _ = _
    rw [hsfx,hloop]
    rfl

/-- The table of `S <- "l"*`, as `peg_parse` numbers the nodes. -/
def starGrammar (l : List UInt8) : PegGrammar Unit where
  nodes := [⟨.identifier,[83],-1,4,.none,.none,.none,fun _ _ a => (0,a)⟩,
    ⟨.sequence,[],-1,3,.none,.none,.none,fun _ _ a => (0,a)⟩,
    ⟨.literal,l,-1,-1,.none,.none,.none,fun _ _ a => (0,a)⟩,
    ⟨.primary,[],-1,2,.none,.none,.star,fun _ _ a => (0,a)⟩,
    ⟨.definition,[],1,0,.none,.none,.none,fun _ _ a => (0,a)⟩]
  numTokens := 0

variable {l : List UInt8}

theorem star_node {n : PegNode Unit} (h : (starGrammar l).node k = some n) : k = 0 ∨ k = 1 ∨ k = 2 ∨ k = 3 ∨ k = 4 := by
  rw [PegGrammar.node] at h
  split at h
  · cases h
  · have hlt : k.toNat < 5 := (List.getElem?_eq_some_iff.1 h).1
    omega

theorem star_valid {type : PegType} {n : PegNode Unit} (h : (starGrammar l).valid k type = some n) :
    k = 0 ∧ type = .identifier ∧ n.subnode = 4 ∨ k = 1 ∧ type = .sequence ∧ n.next = -1 ∧ n.subnode = 3 ∨
    k = 2 ∧ type = .literal ∨ k = 3 ∧ type = .primary ∧ n.next = -1 ∧ n.subnode = 2 ∧ n.pfx = .none ∧ n.sfx = .star ∨
    k = 4 ∧ type = .definition ∧ n.next = 1 := by
  obtain ⟨hn,rfl⟩ := node_of_valid h
  rcases star_node hn with rfl | rfl | rfl | rfl | rfl <;> cases hn <;> simp

theorem star_link {j : ℤ} (h : Link (starGrammar l) k j) : k = 1 ∧ (j = -1 ∨ j = 3) ∨ k = 3 ∧ j = -1 := by
  cases h with
  | nextSequence h | nextPrimary h | pri h => have := star_valid h; simp_all
  | inner h h' =>
    obtain ⟨m,hm⟩ := Option.isSome_iff_exists.1 h'
    have h1 := star_valid h
    have h2 := star_valid hm
    simp_all

theorem starGrammar_linked (l : List UInt8) : Linked (starGrammar l) where
  sequence h := by
    have := star_valid h
    simp_all
    rfl
  primary h := by
    have := star_valid h
    simp_all
    exact ⟨_,rfl,by simp⟩
  identifier h := by
    have := star_valid h
    simp_all
    exact Or.inr rfl
  definition h := by
    have := star_valid h
    simp_all
    rfl
  cls h := by
    have := star_valid h
    simp_all
  acyclic k h := by
    have hend : ∀ {k j}, Relation.TransGen (Link (starGrammar l)) k j → k = 1 ∧ (j = -1 ∨ j = 3) ∨ k = 3 ∧ j = -1 := by
      intro k j h
      induction h with
      | single h => exact star_link h
      | tail _ h ih =>
        have := star_link h
        omega
    have := hend h
    omega

/-- What a run of the start symbol goes through. -/
def StarPart (l : List UInt8) (e : Pexp Sym UInt8) : Prop :=
  e = .nt (.expr 1) ∨ e = .nt (.expr (-1)) ∨ e = .alt (.nt (.seqn 1)) (.nt (.expr (-1))) ∨ e = .nt (.seqn 1) ∨
    e = .nt (.prims 3) ∨ e = .nt (.prims (-1)) ∨ e = .seq (.nt (.pri 3)) (.nt (.prims (-1))) ∨ e = .nt (.pri 3) ∨
    e = .star (.lit l) ∨ e = .lit l ∨ e = .eps ∨ e = .fail

theorem starPart_calls {e f : Pexp Sym UInt8} {x y : List UInt8} (he : StarPart l e)
    (h : Calls (rules (starGrammar l)) (e,x) (f,y)) : StarPart l f := by
  rcases he with rfl | rfl | rfl | rfl | rfl | rfl | rfl | rfl | rfl | rfl | rfl | rfl <;> cases h <;>
    simp [StarPart, rules, starGrammar, PegGrammar.node, prefixPexp, suffixPexp, matchPexp]

theorem starPart_rule (l : List UInt8) (k : ℤ) : StarPart l (rules (starGrammar l) (.ident k)) := by
  cases hn : (starGrammar l).node k with
  | none => simp [rules, hn, StarPart]
  | some n =>
    rcases star_node hn with rfl | rfl | rfl | rfl | rfl <;>
      simp [StarPart, rules, starGrammar, PegGrammar.node, PegGrammar.isToken, tokenId]

theorem starGrammar_noLeftRecursion (l : List UInt8) : NoLeftRecursion (starGrammar l) := by
  intro k x h
  have hpart : ∀ {p}, Relation.TransGen (Calls (rules (starGrammar l))) (.nt (.ident k),x) p → StarPart l p.1 := by
    intro p hp
    induction hp with
    | single h =>
      cases h with
      | nt => exact starPart_rule l k
    | tail _ h ih => exact starPart_calls ih h
  simpa [StarPart] using hpart h

theorem starGrammar_consuming : Consuming (starGrammar [97]) := by
  intro k n h hrep
  rintro ⟨x,he⟩
  have hv := star_valid h
  have hsub : n.subnode = 2 := by simp_all
  rw [hsub] at he
  cases he

theorem star_eval (m : ℕ) :
    Eval (rules (starGrammar [97])) (.nt (.ident 0)) (List.replicate m 97) (some m) := by
  have hstar : ∀ m, Eval (rules (starGrammar [97])) (.star (.lit [97])) (List.replicate m 97) (some m) := by
    intro m
    induction m with
    | zero => exact .starStop (.litMiss (by simp))
    | succ m ih =>
      have hhit : Eval (rules (starGrammar [97])) (.lit [97]) (List.replicate (m + 1) 97) (some 1) :=
        .litHit (List.prefix_iff_eq_take.2 (by simp [List.replicate_succ]))
      rw [Nat.add_comm m 1] at hhit ⊢
      refine .starStep hhit ?_
      rw [List.drop_replicate,Nat.add_sub_cancel_left]
      exact ih
  have hprims : Eval (rules (starGrammar [97])) (.nt (.prims 3)) (List.replicate m 97) (some m) := by
    have hpri : Eval (rules (starGrammar [97])) (.nt (.pri 3)) (List.replicate m 97) (some m) := .nt (hstar m)
    have hrest : Eval (rules (starGrammar [97])) (.nt (.prims (-1))) ((List.replicate m 97).drop m) (some 0) := .nt .eps
    exact .nt (.seqStep hpri hrest)
  exact .nt (.nt (.altLeft (.nt hprims)))

theorem cpgParse_long {m : ℕ} (hm : 2 ^ 32 ≤ m) (f : ℕ) :
    cpgParse (starGrammar [97]) 0 f (cpgReset (cpgInit [] ()) (List.replicate m 97)) = none := by
  have hmild : (starGrammar [97]).Mild := by simp [PegGrammar.Mild, starGrammar]
  rw [cpgParse]
  cases hr : cpgMatchIdentifier (starGrammar [97]) f (cpgReset (cpgInit [] ()) (List.replicate m 97)) 0 with
  | none => rfl
  | some r =>
    have hout := (cpg_sound hmild f).2.2.2 _ _ r (standing_reset (paged_init [] ()) _) hr
    obtain ⟨-,hi⟩ := (hout.agrees.success m).1 (star_eval m)
    have hsmall := hout.buffered.small'
    have hle := hout.buffered.le
    unfold uintMod at hsmall
    omega

end Catlib.Peg
