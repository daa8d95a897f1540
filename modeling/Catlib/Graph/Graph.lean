import Catlib.Graph.Arrays

/-! # The graphs of graph.c

A directed graph lists every edge in the out array of its first and the in array of its
second end. In a bidirectional graph the two views of a node share one array. The allocator
is part of the run: each call is given the addresses of the blocks that it gets.
-/
namespace Catlib.Graph

structure GrNode where
  out : EdgeArr
  inn : EdgeArr

structure GrEdge where
  n1 : ℕ
  n2 : ℕ

/-- `struct graph` with the nodes, edges and arrays behind its pointers. -/
structure GrGraph where
  isbi : Bool
  nodes : List ℕ
  edges : List ℕ
  node : ℕ → GrNode
  edge : ℕ → GrEdge
  mem : Mem

/-- `gr_new`; the memory is what the allocator will give. -/
def grNew (isbi : Bool) (mem : Mem) : GrGraph := ⟨isbi,[],[],fun _ => ⟨⟨0,0,0⟩,⟨0,0,0⟩⟩,fun _ => ⟨0,0⟩,mem⟩

/-- The out array of a node, or its in array. -/
def GrGraph.view (g : GrGraph) (n : ℕ) (out : Bool) : EdgeArr := if out then (g.node n).out else (g.node n).inn

/-- A node with new arrays: `ea` on the one side, `ea2` on the other. -/
def GrGraph.setViews (g : GrGraph) (n : ℕ) (out : Bool) (ea ea2 : EdgeArr) : GrGraph :=
  { g with node := fun m => if m = n then if out then ⟨ea,ea2⟩ else ⟨ea2,ea⟩ else g.node m }

/-- `gr_add_node`: the node is at `n`, its arrays are at `o` and `i`. -/
def grAddNode (g : GrGraph) (n o i : ℕ) : GrGraph :=
  { g.setViews n true ⟨o,0,initEdgeLen⟩ ⟨if g.isbi then o else i,0,initEdgeLen⟩ with nodes := n :: g.nodes }

/-- A call of `add_edge_help` on one view of a node. -/
def GrGraph.addHelp (g : GrGraph) (edge n : ℕ) (out : Bool) (new : ℕ) : Option GrGraph := do
  let (mem,ea,ea2) ← addEdgeHelp g.mem edge (g.view n out) (if g.isbi then some (g.view n !out) else none) new
  return { g.setViews n out ea (ea2.getD (g.view n !out)) with mem := mem }

/-- `gr_add_edge`: the edge is at `edge`, and the arrays that grow move to `new1` and `new2`. -/
def grAddEdge (g : GrGraph) (src dst edge new1 new2 : ℕ) : Option GrGraph := do
  let g := { g with edges := edge :: g.edges, edge := fun e => if e = edge then ⟨src,dst⟩ else g.edge e }
  let g ← g.addHelp edge src true new1
  if src ≠ dst ∨ ¬g.isbi then g.addHelp edge dst false new2 else return g

/-- `del_edge_help`. -/
def GrGraph.delHelp (g : GrGraph) (edge n : ℕ) (out : Bool) : Option GrGraph := do
  let (mem,ea,last) ← clearEntry g.mem edge (g.view n out)
  let ea2 := g.view n !out
  let ea2 := if last ∧ g.isbi then { ea2 with fill := ea.fill } else ea2
  return { g.setViews n out ea ea2 with mem := mem, edges := g.edges.erase edge }

def grDelEdge (g : GrGraph) (edge : ℕ) : Option GrGraph := do
  let n1 := (g.edge edge).n1
  let n2 := (g.edge edge).n2
  let g ← g.delHelp edge n1 true
  if n1 ≠ n2 ∨ ¬g.isbi then g.delHelp edge n2 false else return g

/-- A loop of `gr_del_node` over the array at `arr`, from index `i` on; the fill is read again
in every turn. -/
def delWalk (arr n : ℕ) (out : Bool) : ℕ → ℕ → GrGraph → Option GrGraph
  | 0, _, g => some g
  | k + 1, i, g =>
    if i < (g.view n out).fill then
      match g.mem arr i with
      | some e => (grDelEdge g e).bind (delWalk arr n out k (i + 1))
      | none => delWalk arr n out k (i + 1) g
    else some g

def grDelNode (g : GrGraph) (n : ℕ) : Option GrGraph := do
  let g ← delWalk (g.view n true).arr n true (g.view n true).fill 0 g
  let g ← if g.isbi then some g else delWalk (g.view n false).arr n false (g.view n false).fill 0 g
  return { g with nodes := g.nodes.erase n }

/-! ## Consistency -/

variable {g g' : GrGraph} {n edge new : ℕ} {out : Bool} {L : ℕ → Bool → ℕ → Prop}

/-- The view of the node is about the edge. -/
def GrGraph.Ends (g : GrGraph) (n : ℕ) (out : Bool) (e : ℕ) : Prop :=
  if g.isbi then (g.edge e).n1 = n ∨ (g.edge e).n2 = n else if out then (g.edge e).n1 = n else (g.edge e).n2 = n

/-- The view has to list the edge. -/
def GrGraph.Listed (g : GrGraph) (n : ℕ) (out : Bool) (e : ℕ) : Prop := e ∈ g.edges ∧ g.Ends n out e

/-- Every view holds the edges that `L` says, and only the views of one node of a
bidirectional graph share an array. -/
structure Views (g : GrGraph) (L : ℕ → Bool → ℕ → Prop) : Prop where
  holds : ∀ n ∈ g.nodes, ∀ out, Holds g.mem (g.view n out) (L n out)
  own : ∀ n ∈ g.nodes, ∀ m ∈ g.nodes, ∀ s t, (g.view n s).arr = (g.view m t).arr → n = m ∧ (s = t ∨ g.isbi)
  shared : g.isbi → ∀ n ∈ g.nodes, ∀ s t, g.view n s = g.view n t

structure Ok (g : GrGraph) : Prop where
  nodes : g.nodes.Nodup
  edges : g.edges.Nodup
  ends : ∀ e ∈ g.edges, (g.edge e).n1 ∈ g.nodes ∧ (g.edge e).n2 ∈ g.nodes
  views : Views g g.Listed

/-- The block is that of the view itself, or it is not in use. -/
def Usable (g : GrGraph) (n : ℕ) (out : Bool) (p : ℕ) : Prop :=
  p = (g.view n out).arr ∨ ∀ m ∈ g.nodes, ∀ t, (g.view m t).arr ≠ p

theorem side_cases (t out : Bool) : t = out ∨ t = !out := by
  cases t <;> cases out <;> decide

@[simp] theorem view_setViews_self {ea ea2 : EdgeArr} : (g.setViews n out ea ea2).view n out = ea := by
  cases out <;> simp [GrGraph.setViews, GrGraph.view]

@[simp] theorem view_setViews_not {ea ea2 : EdgeArr} : (g.setViews n out ea ea2).view n (!out) = ea2 := by
  cases out <;> simp [GrGraph.setViews, GrGraph.view]

theorem view_setViews_ne {m : ℕ} {t : Bool} {ea ea2 : EdgeArr} (h : m ≠ n) :
    (g.setViews n out ea ea2).view m t = g.view m t := by
  simp [GrGraph.setViews, GrGraph.view, h]

/-- What a change of one view leaves alone. -/
structure Changed (g g' : GrGraph) (n : ℕ) (out : Bool) : Prop where
  isbi : g'.isbi = g.isbi
  nodes : g'.nodes = g.nodes
  edge : g'.edge = g.edge
  view : ∀ m t, ¬(m = n ∧ (t = out ∨ g.isbi)) → g'.view m t = g.view m t

theorem Views.apart (h : Views g L) (hn : n ∈ g.nodes) {p : ℕ} (hp : Usable g n out p) {m : ℕ} {t : Bool}
    (hm : m ∈ g.nodes) (hP : ¬(m = n ∧ (t = out ∨ g.isbi))) : (g.view m t).arr ≠ p := by
  intro he
  rcases hp with hp | hp
  · exact hP (h.own m hm n hn t out (he.trans hp))
  · exact hp m hm t he

theorem Views.change {L' : ℕ → Bool → ℕ → Prop} (h : Views g L) (hn : n ∈ g.nodes) (hc : Changed g g' n out)
    (harr : Usable g n out (g'.view n out).arr) (htwin : g.isbi → g'.view n (!out) = g'.view n out)
    (hmem : ∀ p, p ≠ (g'.view n out).arr → g'.mem p = g.mem p)
    (hholds : Holds g'.mem (g'.view n out) (L' n out)) (hL : g.isbi → ∀ e, L' n (!out) e ↔ L' n out e)
    (hL' : ∀ m t, ¬(m = n ∧ (t = out ∨ g.isbi)) → ∀ e, L' m t e ↔ L m t e) : Views g' L' := by
  -- the changed views are all the same, and nobody else has their array
  have hsame : ∀ {t : Bool}, t = out ∨ g.isbi → g'.view n t = g'.view n out := by
    intro t ht
    rcases side_cases t out with rfl | rfl
    · rfl
    · rcases ht with ht | ht
      · exact absurd ht (by cases out <;> decide)
      · exact htwin ht
  have hapart : ∀ {m t}, m ∈ g.nodes → ¬(m = n ∧ (t = out ∨ g.isbi)) → (g.view m t).arr ≠ (g'.view n out).arr :=
    fun hm hP => h.apart hn harr hm hP
  refine ⟨fun m hm t => ?_,fun m hm k hk s t he => ?_,fun hb m hm s t => ?_⟩
  · rw [hc.nodes] at hm
    by_cases hP : m = n ∧ (t = out ∨ g.isbi)
    · obtain ⟨rfl,ht⟩ := hP
      rw [hsame ht]
      refine hholds.congr (fun _ _ => rfl) fun e => ?_
      rcases side_cases t out with rfl | rfl
      · exact Iff.rfl
      · exact hL (ht.resolve_left (by cases out <;> decide)) e
    · rw [hc.view m t hP]
      refine (h.holds m hm t).congr (fun i _ => ?_) (hL' m t hP)
      rw [hmem _ (hapart hm hP)]
  · rw [hc.nodes] at hm hk
    rw [hc.isbi]
    by_cases hP : m = n ∧ (s = out ∨ g.isbi) <;> by_cases hQ : k = n ∧ (t = out ∨ g.isbi)
    · refine ⟨hP.1.trans hQ.1.symm,?_⟩
      rcases hP.2 with h1 | h1
      · exact hQ.2.imp_left fun h2 => h1.trans h2.symm
      · exact Or.inr h1
    · rw [hP.1,hsame hP.2,hc.view k t hQ] at he
      exact absurd he.symm (hapart hk hQ)
    · rw [hQ.1,hsame hQ.2,hc.view m s hP] at he
      exact absurd he (hapart hm hP)
    · rw [hc.view m s hP,hc.view k t hQ] at he
      exact h.own m hm k hk s t he
  · rw [hc.isbi] at hb
    rw [hc.nodes] at hm
    by_cases hmn : m = n
    · rw [hmn,hsame (t := s) (Or.inr hb),hsame (t := t) (Or.inr hb)]
    · rw [hc.view m s fun hP => hmn hP.1,hc.view m t fun hP => hmn hP.1]
      exact h.shared hb m hm s t

/-! ## One call of a helper -/

theorem changed_setViews {ea ea2 : EdgeArr} (mem : Mem) (edges : List ℕ) (h : ¬g.isbi → ea2 = g.view n !out) :
    Changed g { g.setViews n out ea ea2 with mem := mem, edges := edges } n out := by
  refine ⟨rfl,rfl,rfl,fun m t hP => ?_⟩
  by_cases hmn : m = n
  · -- the other view of a directed graph
    have ht : t = !out := (side_cases t out).resolve_left fun ht => hP ⟨hmn,Or.inl ht⟩
    have hb : ¬g.isbi = true := fun hb => hP ⟨hmn,Or.inr hb⟩
    rw [hmn,ht]
    exact view_setViews_not.trans (h hb)
  · exact view_setViews_ne hmn

theorem addHelp_spec (h : Views g L) (hn : n ∈ g.nodes) {edge : ℕ} (hL : ¬L n out edge)
    (hLb : g.isbi → ∀ e, L n (!out) e ↔ L n out e) (hfull : ¬Full g.mem (g.view n out)) (hnew : Usable g n out new) :
    ∃ g', g.addHelp edge n out new = some g' ∧ Changed g g' n out ∧ g'.edges = g.edges ∧
      (∀ p, p ≠ (g'.view n out).arr → g'.mem p = g.mem p) ∧ Usable g n out (g'.view n out).arr ∧
      Views g' fun m t e => (e = edge ∧ m = n ∧ (t = out ∨ g.isbi)) ∨ L m t e := by
  obtain ⟨⟨mem,ea,ea2⟩,hr,hh,harr,hother,hshared,halone⟩ := addEdgeHelp_spec (h.holds n hn out) hfull hL
    (if g.isbi then some (g.view n !out) else none) new
  dsimp only at hh harr hother hshared halone
  refine ⟨{ g.setViews n out ea (ea2.getD (g.view n !out)) with mem := mem },by rw [GrGraph.addHelp,hr]; rfl,?_⟩
  have hc : Changed g { g.setViews n out ea (ea2.getD (g.view n !out)) with mem := mem } n out :=
    changed_setViews mem g.edges fun hb => by rw [halone (if_neg hb)]; rfl
  have hview : { g.setViews n out ea (ea2.getD (g.view n !out)) with mem := mem }.view n out = ea := view_setViews_self
  have husable : Usable g n out ea.arr := by
    rcases harr with harr | harr
    · exact Or.inl harr
    · rw [harr]
      exact hnew
  rw [hview]
  refine ⟨hc,rfl,hother,husable,h.change hn hc (by rw [hview]; exact husable) (fun hb => ?_) (by rw [hview]; exact hother)
    ?_ (fun hb e => ?_) (fun m t hP e => ?_)⟩
  · rw [hview]
    refine view_setViews_not.trans ?_
    rw [hshared (by rw [if_pos hb,h.shared hb n hn (!out) out])]
    rfl
  · rw [hview]
    refine hh.congr (fun _ _ => rfl) fun e => ?_
    simp
  · rw [hLb hb]
    simp [hb]
  · rw [or_iff_right fun h' => hP h'.2]

theorem delHelp_spec (h : Views g L) (hn : n ∈ g.nodes) (hL : L n out edge) (hLb : g.isbi → ∀ e, L n (!out) e ↔ L n out e) :
    ∃ g', g.delHelp edge n out = some g' ∧ Changed g g' n out ∧ g'.edges = g.edges.erase edge ∧
      (∀ m ∈ g.nodes, ∀ t, (g'.view m t).arr = (g.view m t).arr ∧ (g'.view m t).fill ≤ (g.view m t).fill) ∧
      (∀ p i, g'.mem p i = g.mem p i ∨ g'.mem p i = none) ∧
      Views g' fun m t e => L m t e ∧ ¬(e = edge ∧ m = n ∧ (t = out ∨ g.isbi)) := by
  obtain ⟨⟨mem,ea,last⟩,hr,hh,harr,hfill,hle,hkept,hother,hentry⟩ := clearEntry_spec (h.holds n hn out) hL
  dsimp only at hh harr hfill hle hkept hother hentry
  generalize h2 : (if last ∧ g.isbi then { g.view n !out with fill := ea.fill } else g.view n !out) = ea2
  refine ⟨{ g.setViews n out ea ea2 with mem := mem, edges := g.edges.erase edge },?_,?_⟩
  · rw [GrGraph.delHelp,hr,← h2]
    rfl
  have hdir : ¬g.isbi → ea2 = g.view n !out := by
    intro hb
    rw [← h2,if_neg fun h' => hb h'.2]
  have htwin : g.isbi → ea2 = ea := by
    intro hb
    have hsh := h.shared hb n hn (!out) out
    rw [← h2,hsh]
    by_cases hl : last = true
    · rw [if_pos ⟨hl,hb⟩,hfill]
    · rw [if_neg fun h' => hl h'.1,hkept (by simpa using hl)]
  have hc : Changed g { g.setViews n out ea ea2 with mem := mem, edges := g.edges.erase edge } n out :=
    changed_setViews mem (g.edges.erase edge) hdir
  have hview : { g.setViews n out ea ea2 with mem := mem, edges := g.edges.erase edge }.view n out = ea :=
    view_setViews_self
  have hviews : ∀ m ∈ g.nodes, ∀ t,
      ({ g.setViews n out ea ea2 with mem := mem, edges := g.edges.erase edge }.view m t).arr = (g.view m t).arr ∧
      ({ g.setViews n out ea ea2 with mem := mem, edges := g.edges.erase edge }.view m t).fill ≤ (g.view m t).fill := by
    intro m hm t
    by_cases hP : m = n ∧ (t = out ∨ g.isbi)
    · obtain ⟨rfl,ht⟩ := hP
      rcases side_cases t out with rfl | rfl
      · rw [hview]
        exact ⟨harr,hle⟩
      · have hb : g.isbi = true := ht.resolve_left (by cases out <;> decide)
        have hnot : { g.setViews m out ea ea2 with mem := mem, edges := g.edges.erase edge }.view m (!out) = ea :=
          view_setViews_not.trans (htwin hb)
        rw [hnot,h.shared hb m hm (!out) out]
        exact ⟨harr,hle⟩
    · rw [hc.view m t hP]
      exact ⟨rfl,le_rfl⟩
  refine ⟨hc,rfl,hviews,fun p i => ?_,h.change hn hc (Or.inl (by rw [hview,harr])) (fun hb => ?_)
    (by rw [hview,harr]; exact hother) ?_ (fun hb e => ?_) (fun m t hP e => ?_)⟩
  · change mem p i = _ ∨ mem p i = none
    by_cases hpa : p = (g.view n out).arr
    · subst hpa
      exact hentry i
    · exact Or.inl (congrFun (hother p hpa) i)
  · rw [hview]
    exact view_setViews_not.trans (htwin hb)
  · rw [hview]
    refine hh.congr (fun _ _ => rfl) fun e => ?_
    simp
  · rw [hLb hb]
    simp [hb]
  · rw [and_iff_left fun h' => hP h'.2]

end Catlib.Graph
