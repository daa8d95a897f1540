import Catlib.Rex.Lexical

/-! # The table of nodes

What the links of the table look like while a pattern is read: they go to later nodes, the
alternatives of an open group end before the choice that closes them, and the nodes that a
choice leads to stay in front of it.
-/
namespace Catlib.Rex

variable {ns ns' : List RexNode} {n : RexNode} {l r : Loc} {i j t v lo hi : ℕ} {ty : RexType}

/-! ## Reads and writes -/

/-- The node that a link belongs to. -/
def Loc.idx : Loc → ℕ
  | .next i => i
  | .opt1 i => i
  | .opt2 i => i

def RexNode.link (n : RexNode) : Loc → Option ℕ
  | .next _ => n.next
  | .opt1 _ => n.opt1
  | .opt2 _ => n.opt2

def link (ns : List RexNode) (l : Loc) : Option ℕ := (ns[l.idx]?).bind fun n => n.link l

def typeOf (ns : List RexNode) (i : ℕ) : Option RexType := (ns[i]?).map (·.type)

def otherOf (ns : List RexNode) (i : ℕ) : Option ℕ := (ns[i]?).bind (·.other)

theorem typeOf_lt (h : typeOf ns i = some ty) : i < ns.length := by
  by_contra hge
  rw [typeOf,List.getElem?_eq_none (not_lt.1 hge)] at h
  cases h

theorem link_lt (h : link ns l = some j) : l.idx < ns.length := by
  by_contra hge
  rw [link,List.getElem?_eq_none (not_lt.1 hge)] at h
  cases h

theorem link_of_ge (h : ns.length ≤ l.idx) : link ns l = none := by
  rw [link,List.getElem?_eq_none h]
  rfl

theorem node_of_lt (h : i < ns.length) : ∃ n, ns[i]? = some n ∧ typeOf ns i = some n.type ∧ n.next = link ns (.next i) ∧
    n.opt1 = link ns (.opt1 i) ∧ n.opt2 = link ns (.opt2 i) ∧ n.other = otherOf ns i := by
  have hi : ns[i]? = some ns[i] := List.getElem?_eq_getElem h
  refine ⟨ns[i],hi,?_,?_,?_,?_,?_⟩ <;> simp [typeOf, link, otherOf, RexNode.link, Loc.idx, hi]

theorem node_of_type (h : typeOf ns i = some ty) : ∃ n, ns[i]? = some n ∧ n.type = ty ∧ n.next = link ns (.next i) ∧
    n.opt1 = link ns (.opt1 i) ∧ n.opt2 = link ns (.opt2 i) ∧ n.other = otherOf ns i := by
  obtain ⟨n,hn,ht,hl⟩ := node_of_lt (typeOf_lt h)
  rw [h] at ht
  exact ⟨n,hn,(Option.some.inj ht).symm,hl⟩

theorem getLink_eq (h : l.idx < ns.length) : getLink ns l = some (link ns l) := by
  have hget : getLink ns l = (ns[l.idx]?).map fun n => n.link l := by cases l <;> rfl
  rw [hget,link,List.getElem?_eq_getElem h]
  rfl

@[simp] theorem length_setLink (o : Option ℕ) : (setLink ns o l).length = ns.length := by
  cases l <;> simp [setLink]

theorem link_setLink (o : Option ℕ) (h : r.idx < ns.length) (l : Loc) :
    link (setLink ns o r) l = if l = r then o else link ns l := by
  cases r <;> cases l <;> simp only [Loc.idx] at h <;>
    simp only [link, setLink, Loc.idx, List.getElem?_modify, Loc.next.injEq, Loc.opt1.injEq, Loc.opt2.injEq, reduceCtorEq,
      if_false] <;> grind [RexNode.link]

@[simp] theorem typeOf_setLink (o : Option ℕ) : typeOf (setLink ns o l) i = typeOf ns i := by
  cases l <;> simp only [typeOf, setLink, List.getElem?_modify] <;> split <;> cases ns[i]? <;> simp_all

@[simp] theorem otherOf_setLink (o : Option ℕ) : otherOf (setLink ns o l) i = otherOf ns i := by
  cases l <;> simp only [otherOf, setLink, List.getElem?_modify] <;> split <;> cases ns[i]? <;> simp_all

theorem typeOf_concat : typeOf (ns ++ [n]) i = if i = ns.length then some n.type else typeOf ns i := by
  simp only [typeOf, List.getElem?_append, List.getElem?_singleton]
  grind

theorem otherOf_concat : otherOf (ns ++ [n]) i = if i = ns.length then n.other else otherOf ns i := by
  simp only [otherOf, List.getElem?_append, List.getElem?_singleton]
  grind

theorem link_concat : link (ns ++ [n]) l = if l.idx = ns.length then n.link l else link ns l := by
  simp only [link, List.getElem?_append, List.getElem?_singleton]
  grind

/-! ## Lists of nodes -/

/-- The list from a node on ends at another. -/
inductive Path (ns : List RexNode) : ℕ → ℕ → Prop
  | stop {t : ℕ} (h : link ns (.next t) = none) : Path ns t t
  | step {i j t : ℕ} (h : link ns (.next i) = some j) (hij : i < j) (hp : Path ns j t) : Path ns i t

theorem Path.le (h : Path ns j t) : j ≤ t := by
  induction h with
  | stop => exact le_rfl
  | step _ hij _ ih => exact hij.le.trans ih

theorem Path.frame (h : Path ns j t) (hk : ∀ i, j ≤ i → i ≤ t → link ns' (.next i) = link ns (.next i)) : Path ns' j t := by
  induction h with
  | stop h => exact .stop ((hk _ le_rfl le_rfl).trans h)
  | step h hij hp ih => exact .step ((hk _ le_rfl (hij.le.trans hp.le)).trans h) hij (ih fun i hi => hk i (hij.le.trans hi))

theorem Path.end_none (h : Path ns j t) : link ns (.next t) = none := by
  induction h with
  | stop h => exact h
  | step _ _ _ ih => exact ih

theorem exists_path (hup : ∀ i j, link ns (.next i) = some j → i < j ∧ j < ns.length) (hj : j < ns.length) :
    ∃ t, t < ns.length ∧ Path ns j t := by
  induction hn : ns.length - j using Nat.strong_induction_on generalizing j with
  | _ n ih =>
    cases hl : link ns (.next j) with
    | none => exact ⟨j,hj,.stop hl⟩
    | some k =>
      obtain ⟨hjk,hk⟩ := hup j k hl
      obtain ⟨t,ht,hp⟩ := ih (ns.length - k) (by omega) hk rfl
      exact ⟨t,ht,.step hl hjk hp⟩

theorem trav_path (h : Path ns j t) (ht : t < ns.length) {k : ℕ} (hk : t - j < k) :
    loop (travBody ns) k (.next j) = some (.next t) := by
  induction h generalizing k with
  | @stop t h =>
    obtain ⟨k,rfl⟩ : ∃ k', k = k' + 1 := ⟨k - 1,by omega⟩
    exact loop_leave (by rw [travBody,getLink_eq (l := .next t) ht,h]; rfl)
  | @step i j t h hij hp ih =>
    obtain ⟨k,rfl⟩ : ∃ k', k = k' + 1 := ⟨k - 1,by omega⟩
    have hle := hp.le
    rw [loop_again (t := .next j) (by rw [travBody,getLink_eq (link_lt h),h]; rfl)]
    exact ih ht (by omega)

/-! ## Chains of choices -/

/-- The alternative that a choice closes: its nodes are behind `lo` and in front of the choice. -/
structure Alt (ns : List RexNode) (lo c : ℕ) : Prop where
  type : typeOf ns c = some .choice
  list : ∃ j t, link ns (.opt1 c) = some j ∧ lo < j ∧ Path ns j t ∧ t < c

/-- The choices of a group, from one to the last. -/
inductive Chain (ns : List RexNode) : ℕ → ℕ → ℕ → Prop
  | last {lo c : ℕ} (h : Alt ns lo c) : Chain ns lo c c
  | cons {lo h h' c : ℕ} (ha : Alt ns lo h) (hn : link ns (.opt2 h) = some h') (hc : Chain ns h h' c) : Chain ns lo h c

variable {c h h' : ℕ}

theorem Alt.lt (ha : Alt ns lo c) : lo < c := by
  obtain ⟨j,t,-,hj,hp,ht⟩ := ha.list
  have := hp.le
  omega

theorem Chain.head (hc : Chain ns lo h c) : Alt ns lo h := by
  cases hc with
  | last ha => exact ha
  | cons ha => exact ha

theorem Chain.le (hc : Chain ns lo h c) : lo < h ∧ h ≤ c := by
  induction hc with
  | last ha => exact ⟨ha.lt,le_rfl⟩
  | cons ha _ _ ih => exact ⟨ha.lt,by omega⟩

theorem Chain.end_alt (hc : Chain ns lo h c) : ∃ lo', Alt ns lo' c := by
  induction hc with
  | last ha => exact ⟨_,ha⟩
  | cons _ _ _ ih => exact ih

theorem Chain.lt (hc : Chain ns lo h c) : c < ns.length := by
  obtain ⟨_,ha⟩ := hc.end_alt
  exact typeOf_lt ha.type

theorem Alt.frame (ha : Alt ns lo c) (ht : typeOf ns' c = typeOf ns c) (ho : link ns' (.opt1 c) = link ns (.opt1 c))
    (hk : ∀ i, lo < i → i < c → link ns' (.next i) = link ns (.next i)) : Alt ns' lo c := by
  obtain ⟨j,t,hj,hlo,hp,htc⟩ := ha.list
  exact ⟨ht.trans ha.type,j,t,ho.trans hj,hlo,hp.frame fun i hi hit => hk i (by omega) (by omega),htc⟩

theorem Chain.frame (hc : Chain ns lo h c) (ht : ∀ i, lo < i → i ≤ c → typeOf ns' i = typeOf ns i)
    (hk : ∀ l : Loc, lo < l.idx → l.idx < c ∨ l = .opt1 c → link ns' l = link ns l) : Chain ns' lo h c := by
  induction hc with
  | last ha =>
    have hlt := ha.lt
    exact .last (ha.frame (ht _ hlt le_rfl) (hk _ hlt (Or.inr rfl)) fun i hi hic => hk (.next i) hi (Or.inl hic))
  | @cons lo h h' c ha hn hc ih =>
    have hlt := ha.lt
    have hle := hc.le
    have ha' : Alt ns' lo h := by
      refine ha.frame (ht _ hlt (by omega)) (hk _ hlt (Or.inl (show h < c by omega))) fun i hi hih => ?_
      exact hk (.next i) hi (Or.inl (show i < c by omega))
    refine .cons ha' ((hk (.opt2 h) hlt (Or.inl (show h < c by omega))).trans hn) ?_
    exact ih (fun i hi => ht i (by omega)) fun l hl => hk l (by omega)

theorem Chain.snoc (hc : Chain ns lo h c) (hn : link ns (.opt2 c) = some h') (ha : Alt ns c h') : Chain ns lo h h' := by
  induction hc with
  | last ha' => exact .cons ha' hn (.last ha)
  | cons ha' hn' _ ih => exact .cons ha' hn' (ih hn ha)

theorem last_chain {o : ℕ} (hc : Chain ns lo h c) (ho : link ns (.opt2 c) = some o) (hlt : o < ns.length)
    (hno : typeOf ns o ≠ some .choice) {k : ℕ} (hk : c - h < k) : loop (lastBody ns) k h = some c := by
  have hbody : ∀ i o, typeOf ns i = some .choice → link ns (.opt2 i) = some o → o < ns.length →
      lastBody ns i = some (if typeOf ns o = some .choice then .again o else .leave i) := by
    intro i o hi hio ho
    obtain ⟨n,hn,-,-,-,hopt,-⟩ := node_of_type hi
    obtain ⟨m,hm,htm,-⟩ := node_of_lt ho
    rw [htm]
    simp only [lastBody, hn, Option.bind_eq_bind, Option.bind_some, hopt, hio, hm, Option.some.injEq]
    split <;> rfl
  induction hc generalizing k with
  | @last lo c ha =>
    obtain ⟨k,rfl⟩ : ∃ k', k = k' + 1 := ⟨k - 1,by omega⟩
    exact loop_leave (by rw [hbody c o ha.type ho hlt,if_neg hno])
  | @cons lo h h' c ha hn hc ih =>
    obtain ⟨k,rfl⟩ : ∃ k', k = k' + 1 := ⟨k - 1,by omega⟩
    have hle := hc.le
    have hh' := hc.head.type
    rw [loop_again (t := h') (by rw [hbody h h' ha.type hn (typeOf_lt hh'),if_pos hh'])]
    exact ih ho (by omega)

/-! ## The end of a group -/

/-- What the end of a group writes: the ends of alternatives, behind `B`, are linked to it. -/
structure Filled (ns ns' : List RexNode) (B hi rge : ℕ) : Prop where
  length : ns'.length = ns.length
  type : ∀ i, typeOf ns' i = typeOf ns i
  other : ∀ i, i < B → otherOf ns' i = otherOf ns i
  links : ∀ l, link ns' l = link ns l ∨
    ∃ i, l = .next i ∧ B ≤ i ∧ i < hi ∧ (link ns l = none ∨ typeOf ns i = some .choice) ∧ link ns' l = some rge

variable {B rge : ℕ} {ns'' : List RexNode}

theorem Filled.refl (ns : List RexNode) (B hi rge : ℕ) : Filled ns ns B hi rge :=
  ⟨rfl,fun _ => rfl,fun _ _ => rfl,fun _ => Or.inl rfl⟩

theorem Filled.trans (h : Filled ns ns' B hi rge) (h' : Filled ns' ns'' B hi rge) : Filled ns ns'' B hi rge := by
  refine ⟨h'.length.trans h.length,fun i => (h'.type i).trans (h.type i),fun i hi => (h'.other i hi).trans (h.other i hi),?_⟩
  intro l
  rcases h'.links l with hl' | ⟨i,rfl,hB,hhi,hn,hl'⟩
  · rw [hl']
    exact h.links l
  · rcases h.links (.next i) with hl | ⟨i',heq,-,-,hn',-⟩
    · rw [hl,h.type] at hn
      exact Or.inr ⟨i,rfl,hB,hhi,hn,hl'⟩
    · cases heq
      exact Or.inr ⟨i,rfl,hB,hhi,hn',hl'⟩

theorem filled_setLink (hi' : i < ns.length) (hB : B ≤ i) (hhi : i < hi)
    (hn : link ns (.next i) = none ∨ typeOf ns i = some .choice) : Filled ns (setLink ns (some rge) (.next i)) B hi rge := by
  refine ⟨length_setLink _,fun _ => typeOf_setLink _,fun _ _ => otherOf_setLink _,fun l => ?_⟩
  rw [link_setLink (r := .next i) _ hi']
  by_cases hl : l = .next i
  · subst hl
    exact Or.inr ⟨i,rfl,hB,hhi,hn,if_pos rfl⟩
  · exact Or.inl (if_neg hl)

theorem finalizeBody_spec {o : ℕ} (hi rge : ℕ) (ha : Alt ns lo c) (hB : B ≤ lo + 1) (hhi : c < hi) (ho : link ns (.opt2 c) = some o) :
    ∃ ns', finalizeBody rge (ns,c) = some (.again (ns',o)) ∧ Filled ns ns' B hi rge ∧
      ∀ l : Loc, c < l.idx → link ns' l = link ns l := by
  have hlo := ha.lt
  have hc := typeOf_lt ha.type
  obtain ⟨n,hn,htype,-⟩ := node_of_type ha.type
  have h1 : Filled ns (setLink ns (some rge) (.next c)) B hi rge := filled_setLink hc (by omega) hhi (Or.inr ha.type)
  have hl1 : ∀ l, l ≠ .next c → link (setLink ns (some rge) (.next c)) l = link ns l := fun l hl => by
    rw [link_setLink (r := .next c) _ hc,if_neg hl]
  have hbody : finalizeBody rge (ns,c) =
      ((loop (travBody (setLink ns (some rge) (.next c))) ((setLink ns (some rge) (.next c)).length + 1) (.opt1 c)).bind
        fun trav => ((setLink (setLink ns (some rge) (.next c)) (some rge) trav)[c]?).bind fun rc =>
          rc.opt2.bind fun o => some (.again (setLink (setLink ns (some rge) (.next c)) (some rge) trav,o))) := by
    simp only [finalizeBody, hn, htype, Option.bind_eq_bind, Option.bind_some, if_true]
    rfl
  generalize setLink ns (some rge) (.next c) = ns1 at h1 hl1 hbody
  obtain ⟨j,t,hj,hjlo,hp,ht⟩ := ha.list
  have hlen := h1.length
  have hle := hp.le
  have hnext : ∀ i, i ≤ t → link ns1 (.next i) = link ns (.next i) := fun i hi => hl1 _ (by rintro ⟨⟩; omega)
  have hp1 : Path ns1 j t := hp.frame fun i _ hi => hnext i hi
  have h2 : Filled ns1 (setLink ns1 (some rge) (.next t)) B hi rge :=
    filled_setLink (by omega) (by omega) (by omega) (Or.inl hp1.end_none)
  have hl2 : ∀ l, l ≠ .next t → link (setLink ns1 (some rge) (.next t)) l = link ns1 l := fun l hl => by
    rw [link_setLink (r := .next t) _ (show t < ns1.length by omega),if_neg hl]
  refine ⟨setLink ns1 (some rge) (.next t),?_,h1.trans h2,fun l hl => ?_⟩
  · have htrav : loop (travBody ns1) (ns1.length + 1) (.opt1 c) = some (.next t) := by
      have hj1 : link ns1 (.opt1 c) = some j := (hl1 (.opt1 c) nofun).trans hj
      rw [loop_again (t := .next j) (by rw [travBody,getLink_eq (link_lt hj1),hj1]; rfl)]
      exact trav_path hp1 (by omega) (by omega)
    have ho2 : link (setLink ns1 (some rge) (.next t)) (.opt2 c) = some o := by rw [hl2 (.opt2 c) nofun,hl1 (.opt2 c) nofun,ho]
    obtain ⟨rc,hrc,-,-,-,hopt,-⟩ := node_of_lt (link_lt ho2)
    have hopt' : rc.opt2 = some o := hopt.trans ho2
    rw [hbody,htrav,Option.bind_some,show (setLink ns1 (some rge) (.next t))[c]? = some rc from hrc,Option.bind_some,
      hopt',Option.bind_some]
  · rw [hl2 l (by rintro rfl; exact absurd hl (by simp only [Loc.idx]; omega)),
      hl1 l (by rintro rfl; exact absurd hl (lt_irrefl _))]

theorem finalize_chain {o : ℕ} (rge : ℕ) (hc : Chain ns lo h c) (hB : B ≤ lo + 1) (hhi : c < hi) (ho : link ns (.opt2 c) = some o)
    (hlt : o < ns.length) (hno : typeOf ns o ≠ some .choice) {k : ℕ} (hk : c - h + 1 < k) :
    ∃ ns', loop (finalizeBody rge) k (ns,h) = some ns' ∧ Filled ns ns' B hi rge := by
  induction k generalizing ns lo h with
  | zero => omega
  | succ k ih =>
    have hle := hc.le
    cases hc with
    | last ha =>
      obtain ⟨ns1,hbody,hf,-⟩ := finalizeBody_spec hi rge ha hB hhi ho
      have hlen := hf.length
      obtain ⟨m,hm,htm,-⟩ := node_of_lt (show o < ns1.length by omega)
      have hstop : finalizeBody rge (ns1,o) = some (.leave ns1) := by
        rw [hf.type] at htm
        have hne : m.type ≠ .choice := fun he => hno (htm.trans (congrArg some he))
        simp only [finalizeBody, hm, Option.bind_eq_bind, Option.bind_some, if_neg hne]
        rfl
      obtain ⟨k,rfl⟩ : ∃ k', k = k' + 1 := ⟨k - 1,by omega⟩
      exact ⟨ns1,by rw [loop_again hbody,loop_leave hstop],hf⟩
    | @cons _ _ h' _ ha hn hc =>
      have hle' := hc.le
      obtain ⟨ns1,hbody,hf,hkeep⟩ := finalizeBody_spec hi rge ha hB (by omega) hn
      have hlen := hf.length
      have hc1 : Chain ns1 h h' c := hc.frame (fun i _ _ => hf.type i) fun l hl _ => hkeep l hl
      have ho1 : link ns1 (.opt2 c) = some o := (hkeep (.opt2 c) (show h < c by omega)).trans ho
      obtain ⟨ns2,hloop,hf2⟩ := ih hc1 (by omega) ho1 (by omega) (by rwa [hf.type]) (by omega)
      exact ⟨ns2,by rw [loop_again hbody,hloop],hf.trans hf2⟩

/-! ## The search for an anchor -/

/-- The links that `all_paths_start` follows. -/
def Walked (ns : List RexNode) : Loc → Prop
  | .next i => typeOf ns i = some .groupS
  | .opt1 i => typeOf ns i = some .choice
  | .opt2 i => typeOf ns i = some .choice

theorem walked_congr (h : typeOf ns' l.idx = typeOf ns l.idx) : Walked ns' l ↔ Walked ns l := by
  cases l <;> exact Eq.congr h rfl

theorem Filled.walked (hf : Filled ns ns' B hi rge) (hw : Walked ns l) (hl : link ns l = some j) : link ns' l = some j := by
  rcases hf.links l with h | ⟨i,rfl,-,-,h | h,-⟩
  · exact h.trans hl
  · rw [hl] at h
    cases h
  · change typeOf ns i = _ at hw
    rw [hw] at h
    cases h

/-- No walk leaves the nodes from `lo` on below `hi`. -/
def Closed (ns : List RexNode) (lo hi : ℕ) : Prop :=
  ∀ l, Walked ns l → lo ≤ l.idx → l.idx < hi → ∃ j, link ns l = some j ∧ lo ≤ j ∧ j < hi

theorem Closed.frame (h : Closed ns lo hi) (ht : ∀ i, lo ≤ i → i < hi → typeOf ns' i = typeOf ns i)
    (hk : ∀ l j, Walked ns l → lo ≤ l.idx → l.idx < hi → link ns l = some j → link ns' l = some j) : Closed ns' lo hi := by
  intro l hw hlo hhi
  have hw' : Walked ns l := (walked_congr (ht _ hlo hhi)).1 hw
  obtain ⟨j,hj,hjlo,hjhi⟩ := h l hw' hlo hhi
  exact ⟨j,hk l j hw' hlo hhi hj,hjlo,hjhi⟩

/-- What a choice leads to first stays in front of the choice, together with all nodes it can come to. -/
def Sealed (ns : List RexNode) (lo c : ℕ) : Prop := ∃ j, link ns (.opt1 c) = some j ∧ lo ≤ j ∧ j < c ∧ Closed ns lo c

theorem Sealed.filledBy (h : Sealed ns lo c) (hc : typeOf ns c = some .choice) (hf : Filled ns ns' B hi rge) : Sealed ns' lo c := by
  obtain ⟨j,hj,hjlo,hjc,hcl⟩ := h
  exact ⟨j,hf.walked (l := .opt1 c) hc hj,hjlo,hjc,hcl.frame (fun i _ _ => hf.type i) fun l j hw _ _ hl => hf.walked hw hl⟩

/-- The table of a whole pattern. -/
structure Done (ns : List RexNode) : Prop where
  start : typeOf ns 0 = some .groupS
  stop : typeOf ns 1 = some .groupE
  filled : ∀ l, Walked ns l → ∃ j, link ns l = some j ∧ j < ns.length ∧ (j = 1 ∨ l = .opt1 l.idx ∨ l.idx < j)
  choice : ∀ c, typeOf ns c = some .choice → ∃ lo, Sealed ns lo c

theorem Done.walk_stop (h : Done ns) {f : ℕ} (hf : 0 < f) : ∃ b, allPathsStart ns f 1 = some b := by
  obtain ⟨f,rfl⟩ : ∃ f', f = f' + 1 := ⟨f - 1,by omega⟩
  obtain ⟨n,hn,htype,-⟩ := node_of_type h.stop
  exact ⟨false,by simp [allPathsStart, hn, htype]⟩

theorem Done.walk (h : Done ns) {f : ℕ} (hhi : hi ≤ ns.length) (hi' : i < hi)
    (hcl : ∀ l, Walked ns l → lo ≤ l.idx → l.idx < hi → ∃ j, link ns l = some j ∧ (j = 1 ∨ lo ≤ j ∧ j < hi)) (hlo : lo ≤ i)
    (hf : hi * (ns.length + 1) + (ns.length - i) < f) : ∃ b, allPathsStart ns f i = some b := by
  induction f generalizing i lo hi with
  | zero => lia
  | succ f ih =>
    obtain ⟨n,hn,htype,hnext,hopt1,hopt2,-⟩ := node_of_lt (show i < ns.length by lia)
    -- a link that goes up
    have hup : ∀ l, Walked ns l → l.idx = i → l ≠ .opt1 i → ∃ j, link ns l = some j ∧ ∃ b, allPathsStart ns f j = some b := by
      intro l hw hl hne
      subst hl
      obtain ⟨j,hj,hin⟩ := hcl l hw hlo hi'
      obtain ⟨k,hk,hlt,hcase⟩ := h.filled l hw
      rw [hj] at hk
      cases hk
      refine ⟨j,hj,?_⟩
      rcases hin with rfl | ⟨hjlo,hjhi⟩
      · exact h.walk_stop (by lia)
      · rcases hcase with rfl | heq | hlj
        · exact h.walk_stop (by lia)
        · exact absurd heq hne
        · exact ih hhi hjhi hcl hjlo (by lia)
    rw [allPathsStart.eq_2,hn,Option.bind_eq_bind,Option.bind_some]
    cases ht : n.type with
    | groupS =>
      rw [ht] at htype
      obtain ⟨j,hj,b,hb⟩ := hup (.next i) htype rfl nofun
      exact ⟨b,by simp only [hnext, hj, Option.bind_eq_bind, Option.bind_some, hb]⟩
    | choice =>
      rw [ht] at htype
      obtain ⟨lo',j,hj,hjlo,hjlt,hcl'⟩ := h.choice i htype
      have hmul : (i + 1) * (ns.length + 1) ≤ hi * (ns.length + 1) := Nat.mul_le_mul_right _ hi'
      rw [Nat.add_mul,Nat.one_mul] at hmul
      have hbelow : ∀ l, Walked ns l → lo' ≤ l.idx → l.idx < i → ∃ j, link ns l = some j ∧ (j = 1 ∨ lo' ≤ j ∧ j < i) :=
        fun l hw h1 h2 => (hcl' l hw h1 h2).imp fun _ hj => ⟨hj.1,Or.inr hj.2⟩
      obtain ⟨b,hb⟩ := ih (by lia) hjlt hbelow hjlo (by lia)
      obtain ⟨j',hj',b',hb'⟩ := hup (.opt2 i) htype rfl nofun
      simp only [hopt1, hj, hopt2, hj', Option.bind_eq_bind, Option.bind_some, hb, hb']
      split
      · exact ⟨b',rfl⟩
      · exact ⟨false,rfl⟩
    | banchor => exact ⟨true,rfl⟩
    | eanchor => exact ⟨false,rfl⟩
    | string => exact ⟨false,rfl⟩
    | cls => exact ⟨false,rfl⟩
    | groupE => exact ⟨false,rfl⟩

theorem Done.allPathsStart (h : Done ns) : ∃ b, allPathsStart ns ((ns.length + 1) * (ns.length + 1)) 0 = some b := by
  have hall : ∀ l, Walked ns l → 0 ≤ l.idx → l.idx < ns.length → ∃ j, link ns l = some j ∧ (j = 1 ∨ 0 ≤ j ∧ j < ns.length) := by
    intro l hw _ _
    obtain ⟨j,hj,hlt,-⟩ := h.filled l hw
    exact ⟨j,hj,Or.inr ⟨Nat.zero_le j,hlt⟩⟩
  refine h.walk le_rfl (typeOf_lt h.start) hall le_rfl ?_
  rw [Nat.add_mul,Nat.one_mul]
  omega

end Catlib.Rex
