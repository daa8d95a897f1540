import Catlib.Logic.Loop
import Catlib.Logic.WordTrie
import Catlib.Matching.Words

/-! # Suffix trees

`sfx_build` puts the suffixes of a text into a trie one letter of the text at a time, and `sfx_match`
walks down from the root. Nodes are numbered in the order in which they are handed out, the root is
the node 0, and the table of edges is a function of its keys. Where the source keeps the place of the
last letter of an edge or of a part of the text, `stop` is the place behind it.
-/
namespace Catlib.Matching.Sfx
open Function

structure SfxEdge where
  node : ℕ
  start : ℕ
  stop : ℕ

structure Suffix where
  node : ℕ
  start : ℕ
  stop : ℕ

structure SfxTree where
  str : List UInt8
  edges : ℕ × UInt8 → Option SfxEdge
  sptr : ℕ → Option ℕ
  nodes : ℕ

/-- `CAT_SFX_MAXLEN`. -/
def maxLen : ℕ := 0x7ffffffe

/-- `isexplicit`. -/
abbrev Suffix.Explicit (s : Suffix) : Prop := s.stop ≤ s.start

/-- `getedge` where the edge must not be there yet. -/
def newedge (t : SfxTree) (par : ℕ) (ch : UInt8) (e : SfxEdge) : Option SfxTree :=
  match t.edges (par,ch) with
  | none => some {t with edges := update t.edges (par,ch) (some e)}
  | some _ => none

/-- The tree behind `newnode`, whose answer is `t.nodes`. -/
def newnode (t : SfxTree) : SfxTree := {t with sptr := update t.sptr t.nodes none, nodes := t.nodes + 1}

/-- The first half of `split`: the edge `e` with the key `key` gets a node before its letter `off`. -/
def breakEdge (t : SfxTree) (key : ℕ × UInt8) (e : SfxEdge) (off : ℕ) : Option SfxTree := do
  let newint := t.nodes
  let d ← t.str[e.start + off]?
  let t ← newedge (newnode t) newint d ⟨e.node,e.start + off,e.stop⟩
  return {t with sptr := update t.sptr newint (some key.1), edges := update t.edges key (some ⟨newint,e.start,e.start + off⟩)}

/-- A new leaf under `par`, for the rest of the text from `index` on. -/
def newleaf (t : SfxTree) (par index : ℕ) : Option SfxTree := do
  let x ← t.str[index]?
  let t ← newedge t par x ⟨t.nodes,index,t.str.length⟩
  return newnode t

/-- `split`: the tree, and the node that it answers with. -/
def split (t : SfxTree) (key : ℕ × UInt8) (e : SfxEdge) (off index : ℕ) : Option (SfxTree × ℕ) := do
  let newint := t.nodes
  let t ← breakEdge t key e off
  return (← newleaf t newint index,newint)

/-- One turn of the loop in `canonical`: the edge that the place is on, and its length. -/
def canonicalBody (t : SfxTree) : Suffix × SfxEdge × ℕ → Option (Turn (Suffix × SfxEdge × ℕ) Suffix)
  | (s,edge,span) =>
    if span ≤ s.stop - s.start then
      let s : Suffix := ⟨edge.node,s.start + span,s.stop⟩
      if s.start < s.stop then do
        let c ← t.str[s.start]?
        let edge ← t.edges (s.node,c)
        return .again (s,edge,edge.stop - edge.start)
      else some (.again (s,edge,span))
    else some (.leave s)

def canonical (t : SfxTree) (fuel : ℕ) (s : Suffix) : Option Suffix :=
  if s.Explicit then some s
  else do
    let c ← t.str[s.start]?
    let edge ← t.edges (s.node,c)
    loop (canonicalBody t) fuel (s,edge,edge.stop - edge.start)

/-- `if ( lastpar && (lastpar != &sfx->root) ) lastpar->sptr = cur`. -/
def SfxTree.link (t : SfxTree) (lastpar : Option ℕ) (cur : ℕ) : SfxTree :=
  match lastpar with
  | some p => if p = 0 then t else {t with sptr := update t.sptr p (some cur)}
  | none => t

/-- From a place to that of the next suffix: by the link of the node, at the root by leaving a letter out. -/
def advance (t : SfxTree) (active : Suffix) : Option Suffix :=
  if active.node = 0 then some {active with start := active.start + 1}
  else (t.sptr active.node).map fun v => {active with node := v}

/-- The end of a turn of the loop over the suffixes. -/
def nextSuffix (fuel : ℕ) (t : SfxTree) (active : Suffix) (lastpar : Option ℕ) (cur : ℕ) : Option (SfxTree × Suffix × Option ℕ) := do
  let t := t.link lastpar cur
  let active ← advance t active
  return (t,← canonical t fuel active,some cur)

/-- One turn of `while (1)`: the next suffix gets the letter at `i`, or it has it already. -/
def suffixBody (fuel i : ℕ) : SfxTree × Suffix × Option ℕ → Option (Turn (SfxTree × Suffix × Option ℕ) (SfxTree × Suffix × Option ℕ))
  | (t,active,lastpar) => do
    let x ← t.str[i]?
    if active.Explicit then
      match t.edges (active.node,x) with
      | some _ => return .leave (t,active,lastpar)
      | none => return .again (← nextSuffix fuel (← newleaf t active.node i) active lastpar active.node)
    else
      let c ← t.str[active.start]?
      let edge ← t.edges (active.node,c)
      let span := active.stop - active.start
      if edge.stop - edge.start ≤ span then none
      else
        let y ← t.str[edge.start + span]?
        if y = x then return .leave (t,active,lastpar)
        else
          let (t,cur) ← split t (active.node,c) edge span i
          return .again (← nextSuffix fuel t active lastpar cur)

/-- One turn of the loop over the text. -/
def letter (fuel i : ℕ) (t : SfxTree) (active : Suffix) : Option (SfxTree × Suffix) := do
  let (t,active,lastpar) ← loop (suffixBody fuel i) fuel (t,active,none)
  let t := t.link lastpar active.node
  return (t,← canonical t fuel {active with stop := active.stop + 1})

/-- The loop over the text, with `n` letters to come. -/
def letters (fuel : ℕ) : ℕ → ℕ → SfxTree → Suffix → Option (SfxTree × Suffix)
  | 0, _, t, active => some (t,active)
  | n + 1, i, t, active => do
    let (t,active) ← letter fuel i t active
    letters fuel n (i + 1) t active

def sfxBuild (t : SfxTree) (fuel : ℕ) : Option SfxTree := do
  let (t,_) ← letters fuel t.str.length 0 t ⟨0,0,0⟩
  return t

/-- `sfx_init`; an empty text is a table without buckets, which `ht_init` refuses. -/
def sfxInit (str : List UInt8) (fuel : ℕ) : Option SfxTree :=
  if str = [] ∨ maxLen < str.length then none else sfxBuild ⟨str,fun _ => none,fun _ => none,1⟩ fuel

/-- One turn of the walk of `sfx_match`: the node, the letters matched, and the last edge with the number of letters
matched on it. It leaves with the place of the occurrence. -/
def matchBody (t : SfxTree) (pat : List UInt8) :
    ℕ × ℕ × Option (SfxEdge × ℕ) → Option (Turn (ℕ × ℕ × Option (SfxEdge × ℕ)) (Option ℕ))
  | (cur,cp,last) =>
    if cp < pat.length then do
      let c ← pat[cp]?
      match t.edges (cur,c) with
      | none => return .leave none
      | some edge =>
        let len := min (pat.length - cp) (edge.stop - edge.start)
        if len < 1 then none
        else if (t.str.drop edge.start).take len ≠ (pat.drop cp).take len then return .leave none
        else return .again (edge.node,cp + len,some (edge,len))
    else
      match last with
      | none => some (.leave (some 0))
      | some (edge,len) => if edge.start + len < pat.length then none else some (.leave (some (edge.start + len - pat.length)))

/-- `sfx_match`: the place of an occurrence, or nothing. -/
def sfxMatch (t : SfxTree) (pat : List UInt8) (fuel : ℕ) : Option (Option ℕ) :=
  if maxLen < pat.length then none else loop (matchBody t pat) fuel (0,0,none)

variable {T w w' : List UInt8} {L i k n : ℕ} {t t' : SfxTree} {path path' : ℕ → List UInt8} {s : Suffix} {e : SfxEdge} {c d x : UInt8}
  {u v p cur fuel : ℕ} {lastpar : Option ℕ} {P : ℕ → Prop}

/-! ## Words of the text -/

theorem prefix_tail (h : w <+: T.drop L) : w.tail <+: T.drop (L + 1) := by
  have ht := h.drop 1
  rwa [List.drop_one,List.drop_drop] at ht

theorem next_letter (h : w ++ [c] <+: T.drop L) : T[L + w.length]? = some c := by
  obtain ⟨r,hr⟩ := h
  rw [← List.getElem?_drop,← hr,List.append_assoc,List.getElem?_append_right le_rfl,Nat.sub_self]
  rfl

theorem with_letter (h : w <+: T.drop L) (hc : T[L + w.length]? = some c) : w ++ [c] <+: T.drop L := by
  obtain ⟨r,hr⟩ := h
  rw [← List.getElem?_drop,← hr,List.getElem?_append_right le_rfl,Nat.sub_self] at hc
  cases r with
  | nil => cases hc
  | cons b r =>
    cases hc
    exact ⟨r,by rw [← hr,List.append_assoc]; rfl⟩

theorem same_word (h : w <+: T.drop L) (h' : w' <+: T.drop L) (hl : w.length = w'.length) : w = w' :=
  (List.prefix_of_prefix_length_le h h' hl.le).eq_of_length hl

theorem exists_word (hL : L ≤ i) (hi : i ≤ T.length) : ∃ w, w <+: T.drop L ∧ L + w.length = i := by
  refine ⟨(T.drop L).take (i - L),List.take_prefix _ _,?_⟩
  rw [List.length_take,List.length_drop]
  lia

/-! ## The trie of the first suffixes -/

def SfxTree.child (t : SfxTree) : ℕ × UInt8 → Option ℕ := fun k => (t.edges k).map SfxEdge.node

theorem child_of_edge (h : t.edges (u,c) = some e) : t.child (u,c) = some e.node := by
  rw [SfxTree.child,h,Option.map_some]

theorem edge_of_child (h : t.child (u,c) = some v) : ∃ e, t.edges (u,c) = some e ∧ e.node = v := Option.map_eq_some_iff.mp h

/-- A node with an edge below it. -/
def Inner (t : SfxTree) (v : ℕ) : Prop := ∃ c e, t.edges (v,c) = some e

/-- The tree spells the first `L` suffixes of the text: an edge is a part of the text behind an occurrence of the
word of its upper node, and a node without edges is the end of a suffix. -/
structure Holds (T : List UInt8) (L : ℕ) (t : SfxTree) (path : ℕ → List UInt8) : Prop where
  str : t.str = T
  trie : WordTrie t.child 0 (· < t.nodes) path
  edge : ∀ {u c e}, t.edges (u,c) = some e →
    ∃ k < L, path e.node <+: T.drop k ∧ k + (path u).length = e.start ∧ k + (path e.node).length = e.stop
  suffix : ∀ j < L, ∃ v < t.nodes, path v = T.drop j
  ends : ∀ v < t.nodes, v ≠ 0 → Inner t v ∨ ∃ j < L, path v = T.drop j

namespace Holds

theorem sound (h : Holds T L t path) (hs : Spelled (· < t.nodes) path w) (hw : w ≠ []) : ∃ k < L, w <+: T.drop k := by
  obtain ⟨v,hv,hp⟩ := hs
  have hne : v ≠ 0 := by
    intro h0
    rw [h0,h.trie.root_path] at hp
    exact hw (List.prefix_nil.mp hp)
  obtain ⟨u,c,hc⟩ := h.trie.parent hv hne
  obtain ⟨e,he,rfl⟩ := edge_of_child hc
  obtain ⟨k,hk,hpk,-,-⟩ := h.edge he
  exact ⟨k,hk,hp.trans hpk⟩

theorem complete (h : Holds T L t path) (hk : k < L) (hw : w <+: T.drop k) : Spelled (· < t.nodes) path w := by
  obtain ⟨v,hv,hp⟩ := h.suffix k hk
  exact ⟨v,hv,by rwa [hp]⟩

theorem spelled_nil (h : Holds T L t path) : Spelled (· < t.nodes) path [] := ⟨0,h.trie.root_live,List.nil_prefix⟩

theorem edge_lt (h : Holds T L t path) (he : t.edges (u,c) = some e) : u < t.nodes := (h.trie.below (child_of_edge he)).1

theorem congr (h : Holds T L t path) (hstr : t'.str = t.str) (hed : t'.edges = t.edges) (hn : t'.nodes = t.nodes) :
    Holds T L t' path := by
  have hch : t'.child = t.child := congrArg (Option.map SfxEdge.node ∘ ·) hed
  have hin : ∀ v, Inner t v → Inner t' v := by
    rintro v ⟨c,e,he⟩
    exact ⟨c,e,by rw [hed,he]⟩
  refine ⟨hstr.trans h.str,?_,fun {u c e} he => h.edge (hed ▸ he),?_,fun v hv hne => (h.ends v (hn ▸ hv) hne).imp_left (hin v)⟩
  · rw [hch,hn]
    exact h.trie
  · rw [hn]
    exact h.suffix

end Holds

/-- The nodes of the old tree stay, with their words, their links and their edges, and no leaf of it gets edges. -/
structure Grew (t : SfxTree) (path : ℕ → List UInt8) (t' : SfxTree) (path' : ℕ → List UInt8) : Prop where
  nodes : t.nodes ≤ t'.nodes
  path : ∀ v < t.nodes, path' v = path v
  sptr : ∀ v < t.nodes, t'.sptr v = t.sptr v
  keep : ∀ {v c e}, t.edges (v,c) = some e → ∃ e', t'.edges (v,c) = some e'
  inner : ∀ v < t.nodes, Inner t' v → v = 0 ∨ Inner t v

theorem Grew.trans {t₁ t₂ : SfxTree} {path₁ path₂ : ℕ → List UInt8} (h : Grew t path t₁ path₁) (h' : Grew t₁ path₁ t₂ path₂) :
    Grew t path t₂ path₂ := by
  have hlt : ∀ v < t.nodes, v < t₁.nodes := fun v hv => hv.trans_le h.nodes
  refine ⟨h.nodes.trans h'.nodes,fun v hv => (h'.path v (hlt v hv)).trans (h.path v hv),
    fun v hv => (h'.sptr v (hlt v hv)).trans (h.sptr v hv),fun {v c e} he => ?_,fun v hv hin => ?_⟩
  · obtain ⟨e',he'⟩ := h.keep he
    exact h'.keep he'
  · exact (h'.inner v (hlt v hv) hin).elim .inl (h.inner v hv)

/-- The next suffix gets a leaf of its own. -/
theorem newleaf_spec (h : Holds T L t path) (hu : u < t.nodes) (hx : T[i]? = some x) (hfree : t.edges (u,x) = none)
    (hw : path u <+: T.drop L) (hlen : L + (path u).length = i) (hin : u = 0 ∨ Inner t u) :
    ∃ t', newleaf t u i = some t' ∧ Holds T (L + 1) t' (update path t.nodes (T.drop L)) ∧
      Grew t path t' (update path t.nodes (T.drop L)) ∧ t'.nodes = t.nodes + 1 ∧ (∃ e, t'.edges (u,x) = some e) ∧
      ∀ v, t.nodes ≤ v → ¬Inner t' v := by
  obtain rfl := h.str
  have hwx : path u ++ [x] <+: t.str.drop L := with_letter hw (by rw [hlen,hx])
  have hi : i < t.str.length := (List.getElem?_eq_some_iff.mp hx).1
  have hold : ∀ v < t.nodes, update path t.nodes (t.str.drop L) v = path v := fun v hv => update_of_ne hv.ne _ _
  have hch : (newnode {t with edges := update t.edges (u,x) (some ⟨t.nodes,i,t.str.length⟩)}).child =
      update t.child (u,x) (some t.nodes) := comp_update (Option.map SfxEdge.node) t.edges (u,x) _
  have hnew : newleaf t u i = some (newnode {t with edges := update t.edges (u,x) (some ⟨t.nodes,i,t.str.length⟩)}) := by
    rw [newleaf,hx,Option.bind_eq_bind,Option.bind_some,newedge,hfree]
    rfl
  have hnone : ∀ v c, t.nodes ≤ v → t.edges (v,c) = none := by
    intro v c hv
    cases he : t.edges (v,c) with
    | none => rfl
    | some e => exact absurd (h.edge_lt he) (Nat.not_lt.mpr hv)
  have hkeep : ∀ {v c e}, t.edges (v,c) = some e → update t.edges (u,x) (some ⟨t.nodes,i,t.str.length⟩) (v,c) = some e := by
    intro v c e he
    rwa [update_of_ne (fun heq => by rw [heq,hfree] at he; cases he)]
  have hinner : ∀ v, Inner t v → Inner (newnode {t with edges := update t.edges (u,x) (some ⟨t.nodes,i,t.str.length⟩)}) v := by
    rintro v ⟨c,e,he⟩
    exact ⟨c,e,hkeep he⟩
  refine ⟨_,hnew,⟨rfl,?_,?_,?_,?_⟩,⟨Nat.le_succ _,hold,?_,fun {v c e} he => ⟨e,hkeep he⟩,?_⟩,rfl,⟨_,update_self ..⟩,?_⟩
  · rw [hch]
    refine h.trie.graft hu ?_ (lt_irrefl t.nodes) hwx fun z => Nat.lt_succ_iff_lt_or_eq
    rw [SfxTree.child,hfree,Option.map_none]
  · intro v c e he
    by_cases hk : (v,c) = (u,x)
    · obtain ⟨rfl,rfl⟩ := Prod.mk.inj hk
      have he : update t.edges (v,c) (some ⟨t.nodes,i,t.str.length⟩) (v,c) = some e := he
      rw [update_self] at he
      cases he
      refine ⟨L,Nat.lt_succ_self L,?_⟩
      rw [update_self,hold v hu,List.length_drop]
      exact ⟨List.prefix_refl _,hlen,by dsimp only; lia⟩
    · have he : update t.edges (u,x) (some ⟨t.nodes,i,t.str.length⟩) (v,c) = some e := he
      rw [update_of_ne hk] at he
      obtain ⟨k,hkL,hp⟩ := h.edge he
      obtain ⟨hv,hn,-⟩ := h.trie.below (child_of_edge he)
      rw [hold v hv,hold e.node hn]
      exact ⟨k,Nat.lt_succ_of_lt hkL,hp⟩
  · intro j hj
    rcases Nat.lt_succ_iff_lt_or_eq.mp hj with hj | rfl
    · obtain ⟨v,hv,hp⟩ := h.suffix j hj
      exact ⟨v,Nat.lt_succ_of_lt hv,by rw [hold v hv,hp]⟩
    · exact ⟨t.nodes,Nat.lt_succ_self _,update_self ..⟩
  · intro v hv hne
    rcases Nat.lt_succ_iff_lt_or_eq.mp hv with hv | rfl
    · rw [hold v hv]
      exact (h.ends v hv hne).imp (hinner v) fun ⟨j,hj,hp⟩ => ⟨j,Nat.lt_succ_of_lt hj,hp⟩
    · exact .inr ⟨L,Nat.lt_succ_self L,update_self ..⟩
  · intro v hv
    exact update_of_ne hv.ne _ _
  · rintro v hv ⟨c,e,he⟩
    by_cases hk : (v,c) = (u,x)
    · rw [(Prod.mk.inj hk).1]
      exact hin
    · have he : update t.edges (u,x) (some ⟨t.nodes,i,t.str.length⟩) (v,c) = some e := he
      rw [update_of_ne hk] at he
      exact .inr ⟨c,e,he⟩
  · rintro v hv ⟨c,e,he⟩
    have he : update t.edges (u,x) (some ⟨t.nodes,i,t.str.length⟩) (v,c) = some e := he
    rw [update_of_ne (fun heq => absurd (Prod.mk.inj heq).1 (Nat.ne_of_gt (hu.trans_le hv))),hnone v c hv] at he
    cases he

/-- A new node in the middle of an edge. -/
theorem breakEdge_spec (h : Holds T L t path) (he : t.edges (u,c) = some e) (hu : path u <+: w) (hw : w <+: path e.node)
    (hlt : (path u).length < w.length) (hlt' : w.length < (path e.node).length) :
    ∃ t' d e', breakEdge t (u,c) e (w.length - (path u).length) = some t' ∧ Holds T L t' (update path t.nodes w) ∧
      Grew t path t' (update path t.nodes w) ∧ t'.nodes = t.nodes + 1 ∧ w ++ [d] <+: path e.node ∧ t'.edges (t.nodes,d) = some e' ∧
      (∀ c e', t'.edges (t.nodes,c) = some e' → c = d) := by
  obtain rfl := h.str
  obtain ⟨k,hkL,hpk,hstart,hstop⟩ := h.edge he
  obtain ⟨hun,hen,hpc⟩ := h.trie.below (child_of_edge he)
  have hold : ∀ v < t.nodes, update path t.nodes w v = path v := fun v hv => update_of_ne hv.ne _ _
  have hoff : e.start + (w.length - (path u).length) = k + w.length := by lia
  obtain ⟨d,hd⟩ : ∃ d, w ++ [d] <+: path e.node := by
    obtain ⟨r,hr⟩ := hw
    cases r with
    | nil => rw [← hr,List.append_nil] at hlt'; exact absurd hlt' (lt_irrefl _)
    | cons d r => exact ⟨d,r,by rw [← hr,List.append_assoc]; rfl⟩
  have hletter : t.str[e.start + (w.length - (path u).length)]? = some d := by
    rw [hoff]
    exact next_letter (hd.trans hpk)
  have hcw : path u ++ [c] <+: w := by
    refine List.prefix_of_prefix_length_le hpc hw ?_
    rw [List.length_append]
    exact hlt
  have hnone : ∀ c, t.edges (t.nodes,c) = none := by
    intro c
    cases he : t.edges (t.nodes,c) with
    | none => rfl
    | some e => exact absurd (h.edge_lt he) (lt_irrefl _)
  have hne : (t.nodes,d) ≠ (u,c) := fun heq => Nat.ne_of_gt hun (Prod.mk.inj heq).1
  generalize hlow : SfxEdge.mk e.node (e.start + (w.length - (path u).length)) e.stop = low
  generalize hup : SfxEdge.mk t.nodes e.start (e.start + (w.length - (path u).length)) = up
  have hbelow : update (update t.edges (t.nodes,d) (some low)) (u,c) (some up) (t.nodes,d) = some low := by
    rw [update_of_ne hne,update_self]
  have hnew : breakEdge t (u,c) e (w.length - (path u).length) = some
      ⟨t.str,update (update t.edges (t.nodes,d) (some low)) (u,c) (some up),update (update t.sptr t.nodes none) t.nodes (some u),
        t.nodes + 1⟩ := by
    rw [breakEdge,hletter,Option.bind_eq_bind,Option.bind_some,newedge,newnode,hnone d,hlow,hup]
    rfl
  have hedge : ∀ {v b e'}, update (update t.edges (t.nodes,d) (some low)) (u,c) (some up) (v,b) = some e' →
      (v = u ∧ b = c ∧ e' = up) ∨ (v = t.nodes ∧ b = d ∧ e' = low) ∨ (v < t.nodes ∧ t.edges (v,b) = some e') := by
    intro v b e' he'
    by_cases h1 : (v,b) = (u,c)
    · rw [h1,update_self] at he'
      cases he'
      exact .inl ⟨(Prod.mk.inj h1).1,(Prod.mk.inj h1).2,rfl⟩
    · rw [update_of_ne h1] at he'
      by_cases h2 : (v,b) = (t.nodes,d)
      · rw [h2,update_self] at he'
        cases he'
        exact .inr (.inl ⟨(Prod.mk.inj h2).1,(Prod.mk.inj h2).2,rfl⟩)
      · rw [update_of_ne h2] at he'
        exact .inr (.inr ⟨h.edge_lt he',he'⟩)
  have hkeep : ∀ {v b e'}, t.edges (v,b) = some e' →
      ∃ e'', update (update t.edges (t.nodes,d) (some low)) (u,c) (some up) (v,b) = some e'' := by
    intro v b e' he'
    by_cases h1 : (v,b) = (u,c)
    · exact ⟨up,by rw [h1,update_self]⟩
    · have h2 : (v,b) ≠ (t.nodes,d) := fun heq => Nat.ne_of_lt (h.edge_lt he') (Prod.mk.inj heq).1
      exact ⟨e',by rw [update_of_ne h1,update_of_ne h2,he']⟩
  refine ⟨_,d,low,hnew,⟨rfl,?_,?_,?_,?_⟩,⟨Nat.le_succ _,hold,?_,hkeep,?_⟩,rfl,hd,?_,?_⟩
  · have hch : (Option.map SfxEdge.node ∘ update (update t.edges (t.nodes,d) (some low)) (u,c) (some up)) =
        update (update t.child (t.nodes,d) (some e.node)) (u,c) (some t.nodes) := by
      rw [comp_update,comp_update,← hlow,← hup]
      rfl
    change WordTrie (Option.map SfxEdge.node ∘ update (update t.edges (t.nodes,d) (some low)) (u,c) (some up)) 0 _ _
    rw [hch]
    exact h.trie.split (child_of_edge he) (lt_irrefl t.nodes) hcw hd fun z => Nat.lt_succ_iff_lt_or_eq
  · intro v b e' he'
    rcases hedge he' with ⟨rfl,rfl,rfl⟩ | ⟨rfl,rfl,rfl⟩ | ⟨hv,he'⟩
    · refine ⟨k,hkL,?_⟩
      rw [hold v hun,← hup,update_self]
      exact ⟨hw.trans hpk,hstart,hoff.symm⟩
    · refine ⟨k,hkL,?_⟩
      rw [← hlow,update_self,hold e.node hen]
      exact ⟨hpk,hoff.symm,hstop⟩
    · rw [hold v hv,hold e'.node (h.trie.below (child_of_edge he')).2.1]
      exact h.edge he'
  · intro j hj
    obtain ⟨v,hv,hp⟩ := h.suffix j hj
    exact ⟨v,Nat.lt_succ_of_lt hv,by rw [hold v hv,hp]⟩
  · intro v hv hv0
    rcases Nat.lt_succ_iff_lt_or_eq.mp hv with hv | rfl
    · rw [hold v hv]
      refine (h.ends v hv hv0).imp_left ?_
      rintro ⟨b,e',he'⟩
      exact ⟨b,hkeep he'⟩
    · exact .inl ⟨d,low,hbelow⟩
  · intro v hv
    change update (update t.sptr t.nodes none) t.nodes (some u) v = t.sptr v
    rw [update_of_ne hv.ne,update_of_ne hv.ne]
  · rintro v hv ⟨b,e',he'⟩
    rcases hedge he' with ⟨rfl,-,-⟩ | ⟨rfl,-,-⟩ | ⟨-,he'⟩
    · exact .inr ⟨c,e,he⟩
    · exact absurd hv (lt_irrefl _)
    · exact .inr ⟨b,e',he'⟩
  · exact hbelow
  · intro b e' he'
    rcases hedge he' with ⟨hv,-,-⟩ | ⟨-,hb,-⟩ | ⟨hv,-⟩
    · exact absurd hv (Nat.ne_of_gt hun)
    · exact hb
    · exact absurd hv (lt_irrefl _)

end Catlib.Matching.Sfx
