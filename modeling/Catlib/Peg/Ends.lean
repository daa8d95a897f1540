import Mathlib.Order.WellFoundedSet
import Catlib.Peg.Parse
import Mathlib.Data.Int.Interval

/-! # The calls of a parsing expression

An expression on an input calls its parts on the same input, or on what an earlier part has
left. A run that does not end is an endless chain of calls, and a chain that comes back to an
expression on the same input has consumed nothing on the way.
-/
namespace Catlib.Peg

variable {N α : Type} {R : N → Pexp N α} {e f : Pexp N α} {x y : List α} {n : ℕ}

/-- `Calls R (e,x) (f,y)`: the run of `e` on `x` runs `f` on `y`. -/
inductive Calls (R : N → Pexp N α) : Pexp N α × List α → Pexp N α × List α → Prop
  | seqLeft {e f : Pexp N α} {x : List α} : Calls R (.seq e f,x) (e,x)
  | seqRight {e f : Pexp N α} {x : List α} {n : ℕ} (h : Eval R e x (some n)) : Calls R (.seq e f,x) (f,x.drop n)
  | altLeft {e f : Pexp N α} {x : List α} : Calls R (.alt e f,x) (e,x)
  | altRight {e f : Pexp N α} {x : List α} (h : Eval R e x none) : Calls R (.alt e f,x) (f,x)
  | opt {e : Pexp N α} {x : List α} : Calls R (.opt e,x) (e,x)
  | star {e : Pexp N α} {x : List α} : Calls R (.star e,x) (e,x)
  | starAgain {e : Pexp N α} {x : List α} {n : ℕ} (h : Eval R e x (some n)) : Calls R (.star e,x) (.star e,x.drop n)
  | plus {e : Pexp N α} {x : List α} : Calls R (.plus e,x) (e,x)
  | plusAgain {e : Pexp N α} {x : List α} {n : ℕ} (h : Eval R e x (some n)) : Calls R (.plus e,x) (.star e,x.drop n)
  | ahead {e : Pexp N α} {x : List α} : Calls R (.ahead e,x) (e,x)
  | never {e : Pexp N α} {x : List α} : Calls R (.never e,x) (e,x)
  | nt {a : N} {x : List α} : Calls R (.nt a,x) (R a,x)

/-- The run of the expression on the input comes back to itself. -/
def Restarts (R : N → Pexp N α) (e : Pexp N α) (x : List α) : Prop := Relation.TransGen (Calls R) (e,x) (e,x)

/-- The operand of a repetition that can match nothing at all. -/
def Idles (R : N → Pexp N α) (e : Pexp N α) : Prop := ∃ x, Eval R e x (some 0)

theorem Eval.le_length {r : Option ℕ} (h : Eval R e x r) : ∀ n, r = some n → n ≤ x.length := by
  induction h with
  | eps | starStop | aheadHit | neverMiss | optMiss =>
    rintro n ⟨⟩
    exact Nat.zero_le _
  | fail | clsMiss | clsEnd | litMiss | seqFail | plusFail | aheadMiss | neverHit => nofun
  | clsHit =>
    rintro n ⟨⟩
    exact Nat.le_add_left 1 _
  | litHit h =>
    rintro n ⟨⟩
    exact h.length_le
  | @seqStep e f x m r _ _ ih ih' =>
    intro n hn
    obtain ⟨k,rfl,rfl⟩ := Option.map_eq_some_iff.1 hn
    have h1 := ih m rfl
    have h2 := ih' k rfl
    rw [List.length_drop] at h2
    omega
  | @starStep e x m k _ _ ih ih' | @plusStep e x m k _ _ ih ih' =>
    rintro n ⟨⟩
    have h1 := ih m rfl
    have h2 := ih' k rfl
    rw [List.length_drop] at h2
    omega
  | altLeft _ ih | optHit _ ih | nt _ ih => exact ih
  | altRight _ _ _ ih => exact ih

theorem Eval.drop_lt (h : Eval R e x (some n)) (hn : n ≠ 0) : (x.drop n).length < x.length := by
  have := h.le_length n rfl
  rw [List.length_drop]
  omega

theorem wellFounded_of_acyclic {α : Type*} {r : α → α → Prop} {t : Set α} (ht : t.Finite) (hr : ∀ a b, r a b → b ∈ t)
    (h : ∀ a, ¬Relation.TransGen r a a) : WellFounded r := by
  have : IsStrictOrder α (Relation.TransGen r) :=
    { irrefl := h, trans := fun _ _ _ => Relation.TransGen.trans }
  have hwf : t.WellFoundedOn (Relation.TransGen r) := ht.wellFoundedOn
  have hin : ∀ a ∈ t, Acc r a := by
    intro a ha
    refine hwf.induction ha fun a ha ih => ⟨a,fun b hb => ?_⟩
    by_cases hbt : b ∈ t
    · exact ih b hbt (.single hb)
    · exact ⟨b,fun c hc => absurd (hr c b hc) hbt⟩
  refine ⟨fun a => ⟨a,fun b hb => ?_⟩⟩
  by_cases hbt : b ∈ t
  · exact hin b hbt
  · exact ⟨b,fun c hc => absurd (hr c b hc) hbt⟩

end Catlib.Peg

/-! # When a match ends

A rule that calls itself again on the same input, and a repetition whose operand matches
nothing, go on for ever. Without them every call ends: within a rule the links of the table
lead down, the rules called on the same input never come back, and everything else is called
on less input.
-/
namespace Catlib.Peg

variable {σ : Type} {g : PegGrammar σ} {w x : List UInt8} {s : CpgState σ} {k : ℤ}

/-! ## Budgets -/

theorem matchNode_grows {me me' mi mi' : Matcher σ} (he : ∀ s k, Grows (me s k) (me' s k)) (hi : ∀ s k, Grows (mi s k) (mi' s k))
    (t : PegType) (k : ℤ) (s : CpgState σ) : Grows (matchNode g me mi t k s) (matchNode g me' mi' t k s) := by
  cases t with
  | sequence => exact he s k
  | identifier => exact hi s k
  | _ => exact Grows.refl _

theorem exprBody_grows {m m' : Matcher σ} (h : ∀ s k, Grows (m s k) (m' s k)) (x : CpgState σ × ℤ) :
    Grows (exprBody g m x) (exprBody g m' x) :=
  Grows.ite (Grows.bind (h _ _) fun _ => Grows.refl _) (Grows.refl _)

theorem seqBody_grows {m m' : Matcher σ} (h : ∀ s k, Grows (m s k) (m' s k)) (oc : Cursor) (x : CpgState σ × ℤ) :
    Grows (seqBody g m oc x) (seqBody g m' oc x) :=
  Grows.ite (Grows.bind (h _ _) fun _ => Grows.refl _) (Grows.refl _)

theorem cpg_grows (g : PegGrammar σ) {f m : ℕ} (hfm : f ≤ m) :
    (∀ s k, Grows (cpgMatchExpression g f s k) (cpgMatchExpression g m s k)) ∧
    (∀ s k, Grows (cpgMatchSequence g f s k) (cpgMatchSequence g m s k)) ∧
    (∀ s k, Grows (cpgMatchPrimary g f s k) (cpgMatchPrimary g m s k)) ∧
    ∀ s k, Grows (cpgMatchIdentifier g f s k) (cpgMatchIdentifier g m s k) := by
  induction f generalizing m with
  | zero =>
    refine ⟨?_,?_,?_,?_⟩ <;> intro s k r hr
    · simp [cpgMatchExpression] at hr
    · simp [cpgMatchSequence] at hr
    · simp [cpgMatchPrimary] at hr
    · simp [cpgMatchIdentifier] at hr
  | succ f ih =>
    obtain ⟨m,rfl⟩ : ∃ m', m = m' + 1 := ⟨m - 1,by omega⟩
    have hle : f ≤ m := by omega
    obtain ⟨ihe,ihs,ihp,ihi⟩ := ih hle
    refine ⟨fun s k => ?_,fun s k => ?_,fun s k => ?_,fun s k => ?_⟩
    · simp only [cpgMatchExpression]
      exact loop_grows_body (exprBody_grows ihs) hle _
    · simp only [cpgMatchSequence]
      exact Grows.bind (Grows.refl _) fun _ => loop_grows_body (seqBody_grows ihp _) hle _
    · simp only [cpgMatchPrimary]
      refine Grows.bind (Grows.refl _) fun pn => Grows.bind (Grows.refl _) fun mn => Grows.bind ?_ fun _ => Grows.refl _
      exact loop_grows_body (fun x => Grows.bind (matchNode_grows ihe ihi _ _ _) fun _ => Grows.refl _) hle _
    · simp only [cpgMatchIdentifier]
      exact Grows.bind (Grows.refl _) fun _ => Grows.ite (Grows.refl _) (Grows.bind (Grows.refl _) fun _ => ihe _ _)

/-! ## One function -/

/-- The run of the function for a symbol; the rest of a sequence is its loop from a primary on. -/
def run (g : PegGrammar σ) (oc : Cursor) (f : ℕ) (s : CpgState σ) : Sym → Option (CpgState σ × ℤ)
  | .expr k => cpgMatchExpression g f s k
  | .seqn k => cpgMatchSequence g f s k
  | .prims k => loop (seqBody g (cpgMatchPrimary g f) oc) f (s,k)
  | .pri k => cpgMatchPrimary g f s k
  | .ident k => cpgMatchIdentifier g f s k

/-- Some budget is enough for the symbol wherever `x` is ahead. -/
def Ends (g : PegGrammar σ) (w : List UInt8) (a : Sym) (x : List UInt8) : Prop :=
  ∀ oc s, Standing w s → ahead w s = x → ∃ f r, run g oc f s a = some r

theorem nonneg_of_valid {type : PegType} {n : PegNode σ} (h : g.valid k type = some n) : 0 ≤ k := by
  have hn := (node_of_valid h).1
  rw [PegGrammar.node] at hn
  split at hn
  · cases hn
  · omega

theorem ends_expr_none : Ends g w (.expr (-1)) x := by
  intro oc s _ _
  exact ⟨2,(s,0),rfl⟩

theorem ends_prims_none : Ends g w (.prims (-1)) x := by
  intro oc s _ _
  exact ⟨1,(s,1),rfl⟩

theorem ends_expr (hg : g.Mild) {n : PegNode σ} (hv : g.valid k .sequence = some n) (hseq : Ends g w (.seqn k) x)
    (hnext : Eval (rules g) (.nt (.seqn k)) x none → Ends g w (.expr n.next) x) : Ends g w (.expr k) x := by
  intro oc s hb hx
  obtain ⟨f,⟨t,rv⟩,hr⟩ := hseq oc s hb hx
  have hn := (node_of_valid hv).1
  have hk : k ≥ 0 := nonneg_of_valid hv
  have hout := (cpg_sound hg f).2.1 s k _ hb hr
  obtain ⟨b,-,⟨hrv,-⟩ | ⟨hrv,he,hcur⟩⟩ := hout.meaning
  · have hbody : exprBody g (cpgMatchSequence g (f + 1)) (s,k) = some (.leave (t,rv)) := by
      have h1 := (cpg_grows g (Nat.le_succ f)).2.1 s k _ hr
      dsimp only at hrv
      simp [exprBody, hk, h1, hrv]
    refine ⟨f + 2,(t,rv),?_⟩
    simp only [run, cpgMatchExpression]
    exact loop_leave hbody
  · dsimp only at hrv hcur
    have ht : ahead w t = x := by rw [← hx,ahead,ahead,hcur]
    obtain ⟨f',r',hr'⟩ := hnext (hx ▸ he.eval) oc t hout.buffered ht
    have hbody : exprBody g (cpgMatchSequence g (max f f' + 1)) (s,k) = some (.again (t,n.next)) := by
      have h1 := (cpg_grows g (show f ≤ max f f' + 1 by omega)).2.1 s k _ hr
      simp [exprBody, hk, h1, hrv, hn]
    refine ⟨max f f' + 2,r',?_⟩
    simp only [run, cpgMatchExpression] at hr' ⊢
    rw [loop_again hbody]
    obtain ⟨f',rfl⟩ : ∃ k, f' = k + 1 := by
      cases f' with
      | zero => simp [cpgMatchExpression] at hr'
      | succ k => exact ⟨k,rfl⟩
    simp only [cpgMatchExpression] at hr'
    refine loop_grows_body (exprBody_grows (cpg_grows g ?_).2.1) ?_ _ _ hr' <;> omega

theorem ends_seqn {n : PegNode σ} (hv : g.valid k .sequence = some n) (hpri : Ends g w (.prims n.subnode) x) :
    Ends g w (.seqn k) x := by
  intro oc s hb hx
  obtain ⟨f,r,hr⟩ := hpri s.cur s hb hx
  refine ⟨f + 1,r,?_⟩
  simp only [run, cpgMatchSequence, hv, Option.bind_eq_bind, Option.bind_some]
  exact hr

theorem ends_prims (hg : g.Mild) {n : PegNode σ} (hv : g.valid k .primary = some n) (hpri : Ends g w (.pri k) x)
    (hnext : ∀ m, Eval (rules g) (.nt (.pri k)) x (some m) → Ends g w (.prims n.next) (x.drop m)) :
    Ends g w (.prims k) x := by
  intro oc s hb hx
  obtain ⟨f,⟨t,rv⟩,hr⟩ := hpri oc s hb hx
  have hn := (node_of_valid hv).1
  have hk : k ≥ 0 := nonneg_of_valid hv
  have hout := (cpg_sound hg f).2.2.1 s k _ hb hr
  obtain ⟨b,-,⟨hrv,m,he,hi⟩ | ⟨hrv,-⟩⟩ := hout.meaning
  · dsimp only at hrv hi
    have ht : ahead w t = x.drop m := by rw [ahead_add hb hi,hx]
    obtain ⟨f',r',hr'⟩ := hnext m (hx ▸ he.eval) oc t hout.buffered ht
    have hbody : seqBody g (cpgMatchPrimary g (max f f' + 1)) oc (s,k) = some (.again (t,n.next)) := by
      have h1 := (cpg_grows g (show f ≤ max f f' + 1 by omega)).2.2.1 s k _ hr
      simp [seqBody, hk, h1, hrv, hn]
    refine ⟨max f f' + 1,r',?_⟩
    simp only [run] at hr' ⊢
    rw [loop_again hbody]
    refine loop_grows_body (seqBody_grows (cpg_grows g ?_).2.2.1 oc) ?_ _ _ hr' <;> omega
  · dsimp only at hrv
    have hbody : seqBody g (cpgMatchPrimary g (f + 1)) oc (s,k) = some (.leave ({ t with cur := oc },rv)) := by
      have h1 := (cpg_grows g (Nat.le_succ f)).2.2.1 s k _ hr
      simp [seqBody, hk, h1, hrv]
    exact ⟨f + 1,_,loop_leave hbody⟩

/-! ## Primaries -/

/-- The links by which a function calls another within one rule. -/
inductive Link (g : PegGrammar σ) : ℤ → ℤ → Prop
  | nextSequence {k : ℤ} {n : PegNode σ} (h : g.valid k .sequence = some n) : Link g k n.next
  | nextPrimary {k : ℤ} {n : PegNode σ} (h : g.valid k .primary = some n) : Link g k n.next
  | pri {k : ℤ} {n : PegNode σ} (h : g.valid k .sequence = some n) : Link g k n.subnode
  | inner {k : ℤ} {n : PegNode σ} (h : g.valid k .primary = some n) (h' : (g.valid n.subnode .sequence).isSome) :
      Link g k n.subnode

/-- The links of a table that `peg_parse` has built: each is -1 or leads to a node of the type
that its field asks for, an identifier is a token or has a definition, and nothing but a
definition leads back. -/
structure Linked (g : PegGrammar σ) : Prop where
  sequence : ∀ {k n}, g.valid k .sequence = some n →
    (n.next = -1 ∨ (g.valid n.next .sequence).isSome) ∧ (n.subnode = -1 ∨ (g.valid n.subnode .primary).isSome)
  primary : ∀ {k n}, g.valid k .primary = some n →
    (n.next = -1 ∨ (g.valid n.next .primary).isSome) ∧ n.pfx ∈ [PegAttr.none,.and,.not] ∧
      n.sfx ∈ [PegAttr.none,.question,.star,.plus] ∧
      ∃ m, g.node n.subnode = some m ∧ m.type ∈ [PegType.sequence,.identifier,.literal,.cls]
  identifier : ∀ {k n}, g.valid k .identifier = some n → g.isToken n.subnode = true ∨ (g.valid n.subnode .definition).isSome
  definition : ∀ {k n}, g.valid k .definition = some n → (g.valid n.next .sequence).isSome
  cls : ∀ {k n}, g.valid k .cls = some n → n.str.length = 32
  acyclic : ∀ k, ¬Relation.TransGen (Link g) k k

/-- The buffer never has to grow to the length 2³². -/
def Short (w : List UInt8) : Prop := w.length + 4097 < uintMod

theorem getc_ends (hw : Short w) (hb : Standing w s) : ∃ s' c, cpgGetc s = some (s',c) ∧ Standing w s' := by
  have h1 := hb.le
  have h2 := hb.small
  obtain ⟨s',c,h,hgot⟩ := cpgGetc_total hb (Or.inr (by unfold Short at hw; omega))
  exact ⟨s',c,h,hgot.buffered⟩

theorem token_ends (hw : Short w) (hb : Standing w s) {n : PegNode σ} (hv : g.valid k .identifier = some n) :
    ∃ r, cpgMatchToken g s k = some r := by
  obtain ⟨s',c,hc,-⟩ := getc_ends hw hb
  simp only [cpgMatchToken, hv, hc, Option.bind_eq_bind, Option.bind_some]
  cases c with
  | none => exact ⟨_,rfl⟩
  | some c =>
    dsimp only
    split <;> exact ⟨_,rfl⟩

theorem literalLoop_ends (hw : Short w) (bs : List UInt8) (hb : Standing w s) : ∃ r, literalLoop bs s = some r := by
  induction bs generalizing s with
  | nil => exact ⟨_,rfl⟩
  | cons b bs ih =>
    obtain ⟨s',c,hc,hb'⟩ := getc_ends hw hb
    simp only [literalLoop, hc, Option.bind_eq_bind, Option.bind_some]
    split
    · exact ih hb'
    · exact ⟨_,rfl⟩

theorem literal_ends (hw : Short w) (hb : Standing w s) {n : PegNode σ} (hn : g.node k = some n) :
    ∃ r, cpgMatchLiteral g s k = some r := by
  obtain ⟨⟨s',ok⟩,hl⟩ := literalLoop_ends hw n.str hb
  simp only [cpgMatchLiteral, hn, hl, Option.bind_eq_bind, Option.bind_some]
  split <;> exact ⟨_,rfl⟩

theorem class_ends (hl : Linked g) (hw : Short w) (hb : Standing w s) {n : PegNode σ} (hv : g.valid k .cls = some n) :
    ∃ r, cpgMatchClass g s k = some r := by
  obtain ⟨s',c,hc,-⟩ := getc_ends hw hb
  simp only [cpgMatchClass, hv, hc, Option.bind_eq_bind, Option.bind_some]
  cases c with
  | none => exact ⟨_,rfl⟩
  | some c =>
    have hlt : c.toNat >>> 3 < n.str.length := by
      have := c.toNat_lt
      rw [hl.cls hv,Nat.shiftRight_eq_div_pow]
      omega
    simp only [csetContains, List.getElem?_eq_getElem hlt, Option.map_some, Option.bind_some]
    split <;> exact ⟨_,rfl⟩

/-- What a primary runs in each turn of its loop. -/
def matchAt (g : PegGrammar σ) (type : PegType) (k : ℤ) (f : ℕ) (s : CpgState σ) : Option (CpgState σ × ℤ) :=
  matchNode g (cpgMatchExpression g f) (cpgMatchIdentifier g f) type k s

def MatchEnds (g : PegGrammar σ) (w : List UInt8) (type : PegType) (k : ℤ) (x : List UInt8) : Prop :=
  ∀ s, Standing w s → ahead w s = x → ∃ f r, matchAt g type k f s = some r

theorem matchAt_grows (type : PegType) {f m : ℕ} (hfm : f ≤ m) (s : CpgState σ) :
    Grows (matchAt g type k f s) (matchAt g type k m s) :=
  matchNode_grows (cpg_grows g hfm).1 (cpg_grows g hfm).2.2.2 type k s

theorem priLoop_ends (hg : g.Mild) {n : PegNode σ} (hn : g.node k = some n) {rep : Bool}
    (hrep : rep = true → ¬Idles (rules g) (matchPexp g k)) (hb : Standing w s)
    (hm : ∀ y, y = ahead w s ∨ rep = true ∧ y.length < (ahead w s).length → MatchEnds g w n.type k y) (nmatch : ℕ) :
    ∃ f r, loop (priBody rep (matchAt g n.type k f)) f (s,nmatch) = some r := by
  induction hlen : (ahead w s).length using Nat.strong_induction_on generalizing s nmatch with
  | _ len ih =>
    obtain ⟨f,⟨t,rv⟩,hr⟩ := hm _ (Or.inl rfl) s hb rfl
    have hs := cpg_sound (w := w) hg f
    have hout := matchNode_sound hs.1 hs.2.2.2 hn hb hr
    by_cases hagain : rv > 0 ∧ rep = true
    · obtain ⟨b,-,⟨hrv,m,he,hi⟩ | ⟨hrv,-⟩⟩ := hout.meaning
      · dsimp only at hi
        have ht : ahead w t = (ahead w s).drop m := ahead_add hb hi
        have hm0 : m ≠ 0 := by
          rintro rfl
          exact hrep hagain.2 ⟨_,he.eval⟩
        have hlt : (ahead w t).length < (ahead w s).length := ht ▸ he.eval.drop_lt hm0
        have hm' : ∀ y, y = ahead w t ∨ rep = true ∧ y.length < (ahead w t).length → MatchEnds g w n.type k y := by
          rintro y (rfl | ⟨h1,h2⟩)
          · exact hm _ (Or.inr ⟨hagain.2,hlt⟩)
          · exact hm _ (Or.inr ⟨h1,h2.trans hlt⟩)
        obtain ⟨f',r',hr'⟩ := ih _ (hlen ▸ hlt) hout.buffered hm' (nmatch + 1) rfl
        have hbody : priBody rep (matchAt g n.type k (max f f' + 1)) (s,nmatch) = some (.again (t,nmatch + 1)) := by
          have h1 := matchAt_grows n.type (show f ≤ max f f' + 1 by omega) s _ hr
          simp [priBody, h1, hagain.1, hagain.2]
        refine ⟨max f f' + 1,r',?_⟩
        rw [loop_again hbody]
        refine loop_grows_body (fun x => Grows.bind (matchAt_grows n.type ?_ _) fun _ => Grows.refl _) ?_ _ _ hr' <;> omega
      · exact absurd hagain.1 (by dsimp only at hrv; omega)
    · refine ⟨f + 1,(t,if rv > 0 then nmatch + 1 else nmatch,rv),loop_leave ?_⟩
      have h1 := matchAt_grows n.type (Nat.le_succ f) s _ hr
      simp only [priBody, h1, Option.bind_eq_bind, Option.bind_some, if_neg hagain]
      rfl

theorem suffixRv_ends {sfx : PegAttr} (h : sfx ∈ [PegAttr.none,.question,.star,.plus]) (nmatch : ℕ) :
    ∃ rv, suffixRv sfx nmatch = some rv := by
  cases sfx with
  | and | not => simp at h
  | _ => exact ⟨_,rfl⟩

theorem prefixRv_ends {pfx : PegAttr} (h : pfx ∈ [PegAttr.none,.and,.not]) (oc : Cursor) (s : CpgState σ) (rv : ℤ) :
    ∃ r, prefixRv pfx oc s rv = some r := by
  cases pfx with
  | question | star | plus => simp at h
  | _ => exact ⟨_,rfl⟩

def isRepeat (n : PegNode σ) : Bool := n.sfx = .star ∨ n.sfx = .plus

theorem ends_pri (hl : Linked g) (hg : g.Mild) {n m : PegNode σ} (hv : g.valid k .primary = some n)
    (hm : g.node n.subnode = some m) (hrep : isRepeat n = true → ¬Idles (rules g) (matchPexp g n.subnode))
    (hmatch : ∀ y, y = x ∨ isRepeat n = true ∧ y.length < x.length → MatchEnds g w m.type n.subnode y) :
    Ends g w (.pri k) x := by
  intro oc s hb hx
  obtain ⟨f,⟨t,nmatch,rv⟩,hr⟩ := priLoop_ends hg hm hrep hb (hx ▸ hmatch) 0
  obtain ⟨-,hpfx,hsfx,-⟩ := hl.primary hv
  have hs := cpg_sound (w := w) hg f
  have hrv : ¬rv < 0 := not_lt.2 (priLoop_sound (fun t r hbt hrt => matchNode_sound hs.1 hs.2.2.2 hm hbt hrt) hb hr).2.2.1
  obtain ⟨rv₁,h1⟩ := suffixRv_ends hsfx nmatch
  obtain ⟨⟨t',rv₂⟩,h2⟩ := prefixRv_ends hpfx s.cur t rv₁
  refine ⟨f + 1,runAction n k s.cur t' rv₂,?_⟩
  simp only [run, cpgMatchPrimary, hv, hm, Option.bind_eq_bind, Option.bind_some]
  change (loop (priBody (isRepeat n) (matchAt g m.type n.subnode f)) f (s,0)).bind _ = _
  rw [hr]
  simp only [Option.bind_some, if_neg hrv, h1, h2]
  rfl

theorem matchEnds (hl : Linked g) (hw : Short w) {n : PegNode σ} (hn : g.node k = some n)
    (htype : n.type ∈ [PegType.sequence,.identifier,.literal,.cls]) (he : n.type = .sequence → Ends g w (.expr k) x)
    (hi : n.type = .identifier → Ends g w (.ident k) x) : MatchEnds g w n.type k x := by
  intro s hb hx
  have hv : g.valid k n.type = some n := by simp [PegGrammar.valid, hn]
  cases ht : n.type with
  | sequence => exact he ht s.cur s hb hx
  | identifier => exact hi ht s.cur s hb hx
  | literal =>
    obtain ⟨r,hr⟩ := literal_ends hw hb hn
    exact ⟨0,r,hr⟩
  | cls =>
    obtain ⟨r,hr⟩ := class_ends hl hw hb (ht ▸ hv)
    exact ⟨0,r,hr⟩
  | none | definition | primary => simp [ht] at htype

theorem ends_ident (hw : Short w) {n : PegNode σ} (hv : g.valid k .identifier = some n)
    (hdef : ∀ d, g.isToken n.subnode = false → g.valid n.subnode .definition = some d → Ends g w (.expr d.next) x)
    (hlink : g.isToken n.subnode = true ∨ (g.valid n.subnode .definition).isSome) : Ends g w (.ident k) x := by
  intro oc s hb hx
  have hn := (node_of_valid hv).1
  cases ht : g.isToken n.subnode with
  | true =>
    obtain ⟨r,hr⟩ := token_ends hw hb hv
    refine ⟨1,r,?_⟩
    simp only [run, cpgMatchIdentifier, hn, ht, Option.bind_eq_bind, Option.bind_some, if_true]
    exact hr
  | false =>
    obtain ⟨d,hd⟩ := Option.isSome_iff_exists.1 (hlink.resolve_left (by simp [ht]))
    obtain ⟨f,r,hr⟩ := hdef d ht hd oc s hb hx
    refine ⟨f + 1,r,?_⟩
    simp only [run, cpgMatchIdentifier, hn, ht, hd, Option.bind_eq_bind, Option.bind_some, Bool.false_eq_true, if_false]
    exact hr

/-! ## Within a rule -/

theorem finite_nodes (g : PegGrammar σ) : {k : ℤ | ∃ n, g.node k = some n}.Finite := by
  refine (Set.finite_Icc (0 : ℤ) g.nodes.length).subset ?_
  rintro k ⟨n,hn⟩
  rw [PegGrammar.node] at hn
  split at hn
  · cases hn
  · have := (List.getElem?_eq_some_iff.1 hn).1
    exact ⟨by omega,by omega⟩

theorem link_wf (hl : Linked g) : WellFounded fun j k => Link g k j := by
  refine wellFounded_of_acyclic (finite_nodes g) ?_ ?_
  · rintro j k (⟨h⟩ | ⟨h⟩ | ⟨h⟩ | ⟨h,-⟩) <;> exact ⟨_,(node_of_valid h).1⟩
  · intro k h
    exact hl.acyclic k (Relation.transGen_swap.1 h)

/-- Everything that can be called ends on `x`. -/
structure AllEnd (g : PegGrammar σ) (w x : List UInt8) : Prop where
  expr : ∀ k, (g.valid k .sequence).isSome → Ends g w (.expr k) x
  prims : ∀ k, (g.valid k .primary).isSome → Ends g w (.prims k) x
  ident : ∀ k, (g.valid k .identifier).isSome → Ends g w (.ident k) x

/-- No operand of a repetition can match nothing. -/
def Consuming (g : PegGrammar σ) : Prop :=
  ∀ k n, g.valid k .primary = some n → isRepeat n = true → ¬Idles (rules g) (matchPexp g n.subnode)

/-- A set of expressions that is closed under calls on the same input. -/
def Closed (g : PegGrammar σ) (x : List UInt8) (P : Pexp Sym UInt8 → Prop) : Prop :=
  ∀ e f, P e → Calls (rules g) (e,x) (f,x) → P f

variable {P : Pexp Sym UInt8 → Prop}

theorem Closed.sfx (hP : Closed g x P) {sfx : PegAttr} {e : Pexp Sym UInt8} (h : P (suffixPexp sfx e)) : P e := by
  cases sfx with
  | question => exact hP _ _ h .opt
  | star => exact hP _ _ h .star
  | plus => exact hP _ _ h .plus
  | _ => exact h

theorem Closed.pfx (hP : Closed g x P) {pfx : PegAttr} {e : Pexp Sym UInt8} (h : P (prefixPexp pfx e)) : P e := by
  cases pfx with
  | and => exact hP _ _ h .ahead
  | not => exact hP _ _ h .never
  | _ => exact h

theorem rules_expr {n : PegNode σ} (hv : g.valid k .sequence = some n) :
    rules g (.expr k) = .alt (.nt (.seqn k)) (.nt (.expr n.next)) := by
  simp only [rules, not_lt.2 (nonneg_of_valid hv), if_false, (node_of_valid hv).1]

theorem rules_prims {n : PegNode σ} (hv : g.valid k .primary = some n) :
    rules g (.prims k) = .seq (.nt (.pri k)) (.nt (.prims n.next)) := by
  simp only [rules, not_lt.2 (nonneg_of_valid hv), if_false, (node_of_valid hv).1]

theorem rule_ends (hl : Linked g) (hg : g.Mild) (hw : Short w) (hcons : Consuming g)
    (hless : ∀ y : List UInt8, y.length < x.length → AllEnd g w y) (hP : Closed g x P)
    (hid : ∀ k, (g.valid k .identifier).isSome → P (.nt (.ident k)) → Ends g w (.ident k) x) (k : ℤ) :
    ((g.valid k .sequence).isSome → P (.nt (.expr k)) → Ends g w (.expr k) x) ∧
    ((g.valid k .primary).isSome → P (.nt (.prims k)) → Ends g w (.prims k) x) := by
  induction k using (link_wf hl).induction with
  | _ k ih =>
    constructor
    · intro hk hpk
      obtain ⟨n,hv⟩ := Option.isSome_iff_exists.1 hk
      obtain ⟨hnext,hsub⟩ := hl.sequence hv
      have halt : P (.alt (.nt (.seqn k)) (.nt (.expr n.next))) := rules_expr hv ▸ hP _ _ hpk .nt
      have hprims : P (.nt (.prims n.subnode)) := by
        have h := hP _ _ (hP _ _ halt .altLeft) .nt
        simpa only [rules, (node_of_valid hv).1] using h
      refine ends_expr hg hv (ends_seqn hv ?_) fun hfail => ?_
      · rcases hsub with hsub | hsub
        · exact hsub ▸ ends_prims_none
        · exact (ih _ (.pri hv)).2 hsub hprims
      · rcases hnext with hnext | hnext
        · exact hnext ▸ ends_expr_none
        · exact (ih _ (.nextSequence hv)).1 hnext (hP _ _ halt (.altRight hfail))
    · intro hk hpk
      obtain ⟨n,hv⟩ := Option.isSome_iff_exists.1 hk
      obtain ⟨hnext,-,-,m,hm,htype⟩ := hl.primary hv
      have hseq : P (.seq (.nt (.pri k)) (.nt (.prims n.next))) := rules_prims hv ▸ hP _ _ hpk .nt
      have hmatch : P (matchPexp g n.subnode) := by
        have h := hP _ _ (hP _ _ hseq .seqLeft) .nt
        simp only [rules, (node_of_valid hv).1] at h
        exact hP.sfx (hP.pfx h)
      have hvm : g.valid n.subnode m.type = some m := by simp [PegGrammar.valid, hm]
      refine ends_prims hg hv (ends_pri hl hg hv hm (hcons k n hv) fun y hy => ?_) fun j hj => ?_
      · refine matchEnds hl hw hm htype (fun ht => ?_) fun ht => ?_
        all_goals
          rw [ht] at hvm
          rcases hy with rfl | ⟨-,hy⟩
        · refine (ih _ (.inner hv (by rw [hvm]; rfl))).1 (by rw [hvm]; rfl) ?_
          simpa only [matchPexp, hm, ht] using hmatch
        · exact (hless y hy).expr _ (by rw [hvm]; rfl)
        · refine hid _ (by rw [hvm]; rfl) ?_
          simpa only [matchPexp, hm, ht] using hmatch
        · exact (hless y hy).ident _ (by rw [hvm]; rfl)
      · rcases hnext with hnext | hnext
        · exact hnext ▸ ends_prims_none
        · by_cases hj0 : j = 0
          · subst hj0
            exact (ih _ (.nextPrimary hv)).2 hnext (hP _ _ hseq (.seqRight hj))
          · exact (hless _ (hj.drop_lt hj0)).prims _ hnext

/-! ## Between the rules -/

/-- No rule calls itself again without consuming input. -/
def NoLeftRecursion (g : PegGrammar σ) : Prop := ∀ k x, ¬Restarts (rules g) (.nt (.ident k)) x

theorem rules_ident {n d : PegNode σ} (hn : g.node k = some n) (ht : g.isToken n.subnode = false)
    (hd : g.node n.subnode = some d) : rules g (.ident k) = .nt (.expr d.next) := by
  simp only [rules, hn, ht, hd, Bool.false_eq_true, if_false]

/-- The rules that a rule calls on the same input. -/
def RuleCalls (g : PegGrammar σ) (x : List UInt8) (j k : ℤ) : Prop :=
  (g.valid k .identifier).isSome ∧ Relation.TransGen (Calls (rules g)) (.nt (.ident k),x) (.nt (.ident j),x)

theorem ruleCalls_wf (hrec : NoLeftRecursion g) (x : List UInt8) : WellFounded (RuleCalls g x) := by
  have hcalls : ∀ {j k}, Relation.TransGen (RuleCalls g x) j k →
      Relation.TransGen (Calls (rules g)) (.nt (.ident k),x) (.nt (.ident j),x) := by
    intro j k h
    induction h with
    | single h => exact h.2
    | tail _ h ih => exact h.2.trans ih
  refine wellFounded_of_acyclic (finite_nodes g) (fun j k h => ?_) fun k h => hrec k x (hcalls h)
  obtain ⟨n,hv⟩ := Option.isSome_iff_exists.1 h.1
  exact ⟨n,(node_of_valid hv).1⟩

theorem idents_end (hl : Linked g) (hg : g.Mild) (hw : Short w) (hcons : Consuming g) (hrec : NoLeftRecursion g)
    (hless : ∀ y : List UInt8, y.length < x.length → AllEnd g w y) (k : ℤ) (hk : (g.valid k .identifier).isSome) :
    Ends g w (.ident k) x := by
  induction k using (ruleCalls_wf hrec x).induction with
  | _ k ih =>
    obtain ⟨n,hv⟩ := Option.isSome_iff_exists.1 hk
    refine ends_ident hw hv (fun d ht hd => ?_) (hl.identifier hv)
    let P : Pexp Sym UInt8 → Prop := fun e => Relation.TransGen (Calls (rules g)) (.nt (.ident k),x) (e,x)
    have hP : Closed g x P := fun e f he hf => he.tail hf
    have hstart : P (.nt (.expr d.next)) := by
      refine .single ?_
      rw [← rules_ident (node_of_valid hv).1 ht (node_of_valid hd).1]
      exact .nt
    exact (rule_ends hl hg hw hcons hless hP (fun j hj hpj => ih j ⟨hk,hpj⟩ hj) _).1 (hl.definition hd) hstart

theorem all_end (hl : Linked g) (hg : g.Mild) (hw : Short w) (hcons : Consuming g) (hrec : NoLeftRecursion g)
    (x : List UInt8) : AllEnd g w x := by
  induction hlen : x.length using Nat.strong_induction_on generalizing x with
  | _ len ih =>
    have hless : ∀ y : List UInt8, y.length < x.length → AllEnd g w y := fun y hy => ih _ (hlen ▸ hy) y rfl
    have hid := idents_end hl hg hw hcons hrec hless
    have hP : Closed g x fun _ => True := fun _ _ _ _ => trivial
    have hrule := rule_ends hl hg hw hcons hless hP fun k hk _ => hid k hk
    exact ⟨fun k hk => (hrule k).1 hk trivial,fun k hk => (hrule k).2 hk trivial,hid⟩

end Catlib.Peg
