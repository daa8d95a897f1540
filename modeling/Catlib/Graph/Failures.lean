import Catlib.Graph.GraphRuns
import Catlib.Logic.Runs
import Mathlib.Data.Set.Finite.Basic

/-! # Failed allocations and the search for an edge

Here the allocator may have no block to give. A failed addition takes back what it has done to
the arrays; the one case in which the new edge stays behind in the list of edges is that the
first array cannot grow. The search goes through the array of a node and looks at the far ends.
-/
namespace Catlib.Graph

variable {g g₁ g₂ : GrGraph} {n edge new : ℕ} {out : Bool} {L : ℕ → Bool → ℕ → Prop}
  {mem : Mem} {ea : EdgeArr} {S : ℕ → Prop}

/-- The edges in an array, in their order. -/
def contents (mem : Mem) (ea : EdgeArr) : List ℕ := (List.range ea.fill).filterMap (mem ea.arr)

def GrGraph.contents (g : GrGraph) (n : ℕ) (out : Bool) : List ℕ := Graph.contents g.mem (g.view n out)

/-- One more edge needs a larger array. -/
def Grows (mem : Mem) (ea : EdgeArr) : Prop := firstHole mem ea = none ∧ ea.fill = ea.len

instance : Decidable (Grows mem ea) := inferInstanceAs (Decidable (_ ∧ _))

/-- `gr_add_node` with the answers of the allocator; a bidirectional graph has one array for each node. -/
def grAddNodeTry (g : GrGraph) (n o i : Option ℕ) : GrGraph :=
  match n,o with
  | some n,some o =>
    if g.isbi then grAddNode g n o o
    else match i with
      | some i => grAddNode g n o i
      | none => g
  | _,_ => g

/-- `add_edge_help` with the answer of `mem_resize`; the inner `none` is a return of -1. -/
def GrGraph.addHelpTry (g : GrGraph) (edge n : ℕ) (out : Bool) (new : Option ℕ) : Option (Option GrGraph) :=
  if new = none ∧ Grows g.mem (g.view n out) then some none
  else (g.addHelp edge n out (new.getD 0)).map some

/-- What `gr_add_edge` leaves behind: the graph, the pointer it returns, and the blocks it has freed. -/
structure AddReply where
  graph : GrGraph
  ret : Option ℕ
  freedEdges : List ℕ
  freedArrs : List ℕ

/-- The block that a moved array leaves. -/
def moved (g g' : GrGraph) (n : ℕ) (out : Bool) : List ℕ :=
  if (g'.view n out).arr = (g.view n out).arr then [] else [(g.view n out).arr]

/-- `gr_add_edge` with the answers of the allocator. -/
def grAddEdgeTry (g : GrGraph) (src dst : ℕ) (edge new1 new2 : Option ℕ) : Option AddReply :=
  match edge with
  | none => some ⟨g,none,[],[]⟩
  | some edge =>
    ((withEdge g src dst edge).addHelpTry edge src true new1).bind fun
      | none => some ⟨withEdge g src dst edge,none,[edge],[]⟩
      | some g₁ =>
        if src ≠ dst ∨ ¬g.isbi then
          (g₁.addHelpTry edge dst false new2).bind fun
            | none => (g₁.delHelp edge src true).map fun g₂ => ⟨g₂,none,[edge],moved g g₁ src true⟩
            | some g₂ => some ⟨g₂,some edge,[],moved g g₁ src true ++ moved g₁ g₂ dst false⟩
        else some ⟨g₁,some edge,[],moved g g₁ src true⟩

/-- The test of `gr_find_edge`. -/
def GrGraph.reaches (g : GrGraph) (dst e : ℕ) : Bool := (g.edge e).n2 = dst ∨ g.isbi ∧ (g.edge e).n1 = dst

def grFindEdge (g : GrGraph) (src dst : ℕ) : Option ℕ := (g.contents src true).find? (g.reaches dst)

/-! ## An addition taken back -/

theorem contents_trim (a : ℕ → Option ℕ) (n : ℕ) : (List.range (trim a n)).filterMap a = (List.range n).filterMap a := by
  induction n with
  | zero => rfl
  | succ n ih =>
    rw [trim]
    split
    · rename_i hn
      rw [ih,List.range_succ,List.filterMap_append]
      simp [hn]
    · rfl

theorem contents_congr {mem' : Mem} {ea' : EdgeArr} (hf : ea'.fill = ea.fill)
    (hm : ∀ i < ea.fill, mem' ea'.arr i = mem ea.arr i) : contents mem' ea' = contents mem ea := by
  rw [contents,contents,hf]
  exact List.filterMap_congr fun i hi => hm i (List.mem_range.mp hi)

theorem mem_contents {e : ℕ} : e ∈ contents mem ea ↔ ∃ i < ea.fill, mem ea.arr i = some e := by
  simp [contents, List.mem_filterMap, List.mem_range]

theorem Holds.mem_contents (h : Holds mem ea S) {e : ℕ} : e ∈ contents mem ea ↔ S e := by
  rw [Graph.mem_contents]
  exact ⟨fun ⟨i,hi,hie⟩ => h.live i hi e hie,h.found e⟩

theorem clearEntry_at {i : ℕ} (hi : i < ea.fill) (hie : mem ea.arr i = some edge)
    (hone : ∀ j < ea.fill, mem ea.arr j = some edge → j = i) : ∃ c, clearEntry mem edge ea = some c ∧
      c.1 = mem.store ea.arr i none ∧ c.2.1.arr = ea.arr ∧
      contents c.1 c.2.1 = (List.range ea.fill).filterMap (mem.store ea.arr i none ea.arr) := by
  have hfind : (List.range ea.fill).find? (fun i => mem ea.arr i = some edge) = some i := by
    cases hf : (List.range ea.fill).find? fun i => mem ea.arr i = some edge with
    | none =>
      have := List.find?_eq_none.1 hf i (List.mem_range.2 hi)
      simp [hie] at this
    | some j =>
      rw [hone j (List.mem_range.1 (List.mem_of_find?_eq_some hf)) (by simpa using List.find?_some hf)]
  rw [clearEntry,hfind]
  dsimp only
  split
  · exact ⟨_,rfl,rfl,rfl,contents_trim _ _⟩
  · exact ⟨_,rfl,rfl,rfl,rfl⟩

theorem clear_added (h : Holds mem ea S) (he : ¬S edge) {ea2 : Option EdgeArr} {r : Mem × EdgeArr × Option EdgeArr}
    (hfull : ¬Full mem ea) (hr : addEdgeHelp mem edge ea ea2 new = some r) :
    ∃ c, clearEntry r.1 edge r.2.1 = some c ∧ c.2.1.arr = r.2.1.arr ∧ contents c.1 c.2.1 = contents mem ea ∧
      ∀ p, p ≠ r.2.1.arr → c.1 p = r.1 p := by
  have hnone : ∀ i < ea.fill, mem ea.arr i ≠ some edge := fun i hi hie => he (h.live i hi edge hie)
  rw [addEdgeHelp] at hr
  cases hhole : firstHole mem ea with
  | some i =>
    rw [hhole] at hr
    cases hr
    obtain ⟨hi,hn⟩ := firstHole_some hhole
    obtain ⟨c,hc,hmem,harr,hcont⟩ := @clearEntry_at edge (mem.store ea.arr i (some edge)) _ _ hi Mem.store_self
      fun j hj hje => by
        by_contra hji
        exact hnone j hj ((Mem.store_index hji).symm.trans hje)
    refine ⟨c,hc,harr,hcont.trans (List.filterMap_congr fun j hj => ?_),fun p hp => by rw [hmem,Mem.store_other hp]⟩
    by_cases hji : j = i
    · rw [hji,Mem.store_self,hn]
    · rw [Mem.store_index hji,Mem.store_index hji]
  | none =>
    rw [hhole] at hr
    obtain ⟨hg,hfill,hlt,-,-⟩ := growArr_spec h hfull hhole new
    dsimp only at hr
    rw [if_pos hlt] at hr
    have hold : ∀ i < ea.fill, (growArr mem ea new).1 (growArr mem ea new).2.arr i = mem ea.arr i := by
      intro i hi
      rw [growArr]
      split
      · change memResize mem ea.arr new ea.len new i = _
        rw [memResize,if_pos ⟨rfl,lt_of_lt_of_le hi h.fits⟩]
      · rfl
    generalize growArr mem ea new = w at *
    cases hr
    obtain ⟨c,hc,hmem,harr,hcont⟩ := @clearEntry_at edge (w.1.store w.2.arr w.2.fill (some edge))
      { w.2 with fill := w.2.fill + 1 } _ (Nat.lt_succ_self _) Mem.store_self fun j hj hje => by
        by_contra hji
        have hjf : j < ea.fill := by
          dsimp only at hj
          omega
        rw [Mem.store_index hji,hold j hjf] at hje
        exact hnone j hjf hje
    refine ⟨c,hc,harr,hcont.trans ?_,fun p hp => by rw [hmem,Mem.store_other hp]⟩
    rw [List.range_succ,List.filterMap_append,contents,← hfill]
    simp only [List.filterMap_cons, Mem.store_self, List.filterMap_nil, List.append_nil]
    refine List.filterMap_congr fun j hj => ?_
    have hj := List.mem_range.mp hj
    rw [Mem.store_index hj.ne,Mem.store_index hj.ne,hold j (hfill ▸ hj)]

theorem not_full_of_addHelp (h : Views g L) (hn : n ∈ g.nodes) (hr : g.addHelp edge n out new = some g₁) :
    ¬Full g.mem (g.view n out) := by
  rintro ⟨hfill,hno⟩
  have hhole : firstHole g.mem (g.view n out) = none :=
    List.find?_eq_none.2 fun i hi => by simpa using hno i (List.mem_range.1 hi)
  rw [GrGraph.addHelp,addEdgeHelp_full (h.holds n hn out) hhole hfill] at hr
  cases hr

theorem addHelp_array (hr : g.addHelp edge n out new = some g₁) :
    ∃ ea2 r, addEdgeHelp g.mem edge (g.view n out) ea2 new = some r ∧ g₁.mem = r.1 ∧ g₁.view n out = r.2.1 := by
  rw [GrGraph.addHelp] at hr
  obtain ⟨r,hadd,hg₁⟩ := Option.bind_eq_some_iff.mp hr
  cases hg₁
  exact ⟨_,r,hadd,rfl,view_setViews_self⟩

theorem delHelp_array {c : Mem × EdgeArr × Bool} (hc : clearEntry g.mem edge (g.view n out) = some c)
    (hr : g.delHelp edge n out = some g₁) : g₁.mem = c.1 ∧ g₁.view n out = c.2.1 := by
  rw [GrGraph.delHelp,hc] at hr
  cases hr
  exact ⟨rfl,view_setViews_self⟩

/-- What a taken back change of one view leaves behind. -/
structure Undid (g g₁ g₂ : GrGraph) (n : ℕ) (out : Bool) (edge : ℕ) : Prop where
  isbi : g₂.isbi = g.isbi
  nodes : g₂.nodes = g.nodes
  edges : g₂.edges = g.edges.erase edge
  edge : g₂.edge = g.edge
  contents : ∀ m ∈ g.nodes, ∀ t, g₂.contents m t = g.contents m t
  moved : ∀ p ∈ Graph.moved g g₁ n out, ∀ m ∈ g.nodes, ∀ t, (g₂.view m t).arr ≠ p

theorem undo (h : Views g L) (hn : n ∈ g.nodes) (hL : ¬L n out edge) (hLb : g.isbi → ∀ e, L n (!out) e ↔ L n out e)
    (hnew : Usable g n out new) (hadd : g.addHelp edge n out new = some g₁) :
    ∃ g₂, g₁.delHelp edge n out = some g₂ ∧ Undid g g₁ g₂ n out edge ∧ Views g₂ L := by
  have hfull := not_full_of_addHelp h hn hadd
  obtain ⟨g₁',hg₁,hc₁,hedges₁,hmem₁,hus₁,hv₁⟩ := addHelp_spec h hn hL hLb hfull hnew
  rw [hadd] at hg₁
  cases hg₁
  obtain ⟨g₂,hg₂,hc₂,hedges₂,-,-,hv₂⟩ := delHelp_spec hv₁ (hc₁.nodes ▸ hn) (Or.inl ⟨rfl,rfl,Or.inl rfl⟩) fun hb e => by
    rw [hc₁.isbi] at hb
    simp [hb, hLb hb]
  have hv : Views g₂ L := hv₂.congr fun m hm t e => by
    rw [hc₁.isbi]
    constructor
    · intro hLe
      refine ⟨Or.inr hLe,?_⟩
      rintro ⟨rfl,rfl,ht⟩
      rcases side_cases t out with rfl | rfl
      · exact hL hLe
      · exact hL ((hLb (ht.resolve_left (by cases out <;> decide)) e).mp hLe)
    · rintro ⟨hor,hne⟩
      exact hor.resolve_left hne
  obtain ⟨ea2,r,hr,hm₁,hview₁⟩ := addHelp_array hadd
  obtain ⟨c,hc,harr,hcont,hother⟩ := clear_added (h.holds n hn out) hL hfull hr
  obtain ⟨hm₂,hview₂⟩ := delHelp_array (by rw [hm₁,hview₁]; exact hc) hg₂
  have hnodes : g₂.nodes = g.nodes := hc₂.nodes.trans hc₁.nodes
  have hisbi : g₂.isbi = g.isbi := hc₂.isbi.trans hc₁.isbi
  -- a view that is not changed, and its array
  have hkept : ∀ m ∈ g.nodes, ∀ t, ¬(m = n ∧ (t = out ∨ g.isbi)) →
      g₂.view m t = g.view m t ∧ g₂.mem (g.view m t).arr = g.mem (g.view m t).arr := by
    intro m hm t hP
    have hne := h.apart hn hus₁ hm hP
    refine ⟨(hc₂.view m t (by rw [hc₁.isbi]; exact hP)).trans (hc₁.view m t hP),?_⟩
    rw [hm₂,hother _ (by rw [← hview₁]; exact hne),← hm₁,hmem₁ _ hne]
  have hself : ∀ {t}, t = out ∨ g.isbi → g₂.view n t = c.2.1 ∧ g.view n t = g.view n out := by
    intro t ht
    rcases side_cases t out with rfl | rfl
    · exact ⟨hview₂,rfl⟩
    · have hb : g.isbi = true := ht.resolve_left (by cases out <;> decide)
      exact ⟨(hv.shared (hisbi.trans hb) n (hnodes ▸ hn) _ out).trans hview₂,h.shared hb n hn _ out⟩
  refine ⟨g₂,hg₂,⟨hisbi,hnodes,hedges₂.trans (by rw [hedges₁]),hc₂.edge.trans hc₁.edge,fun m hm t => ?_,
    fun p hp m hm t => ?_⟩,hv⟩
  · by_cases hP : m = n ∧ (t = out ∨ g.isbi)
    · obtain ⟨rfl,ht⟩ := hP
      obtain ⟨h2,h0⟩ := hself ht
      rw [GrGraph.contents,GrGraph.contents,h2,h0,hm₂,hcont]
    · obtain ⟨hvw,hmm⟩ := hkept m hm t hP
      rw [GrGraph.contents,GrGraph.contents,hvw]
      exact contents_congr rfl fun i _ => congrFun hmm i
  · -- the old block is that of no other view
    rw [Graph.moved] at hp
    split at hp
    · cases hp
    · rename_i hne
      obtain rfl := List.mem_singleton.mp hp
      by_cases hP : m = n ∧ (t = out ∨ g.isbi)
      · obtain ⟨rfl,ht⟩ := hP
        rw [(hself ht).1,harr,← hview₁]
        exact hne
      · rw [(hkept m hm t hP).1]
        exact h.apart hn (Or.inl rfl) hm hP

/-! ## Calls that can fail -/

/-- The block is no array of a node. -/
def Unused (g : GrGraph) (p : ℕ) : Prop := ∀ m ∈ g.nodes, ∀ t, (g.view m t).arr ≠ p

theorem addHelpTry_none {ans : Option ℕ} (hr : g.addHelpTry edge n out ans = some none) :
    ans = none ∧ Grows g.mem (g.view n out) := by
  rw [GrGraph.addHelpTry] at hr
  split at hr
  · assumption
  · simp at hr

theorem addHelp_of_not_grows (hg : ¬Grows g.mem (g.view n out)) (p q : ℕ) :
    g.addHelp edge n out p = g.addHelp edge n out q := by
  have hsame : ∀ ea2, addEdgeHelp g.mem edge (g.view n out) ea2 p = addEdgeHelp g.mem edge (g.view n out) ea2 q := by
    intro ea2
    rw [addEdgeHelp,addEdgeHelp]
    cases hhole : firstHole g.mem (g.view n out) with
    | some i => rfl
    | none =>
      have hne : (g.view n out).fill ≠ (g.view n out).len := fun he => hg ⟨hhole,he⟩
      rw [growArr,growArr,if_neg hne,if_neg hne]
  rw [GrGraph.addHelp,GrGraph.addHelp,hsame]

theorem addHelpTry_some {ans : Option ℕ} (hr : g.addHelpTry edge n out ans = some (some g₁))
    (hnew : ∀ p, ans = some p → Usable g n out p) : ∃ p, Usable g n out p ∧ g.addHelp edge n out p = some g₁ := by
  rw [GrGraph.addHelpTry] at hr
  split at hr
  · cases hr
  · rename_i hno
    obtain ⟨g',hadd,he⟩ := Option.map_eq_some_iff.mp hr
    cases he
    cases ans with
    | some p => exact ⟨p,hnew p rfl,hadd⟩
    | none => exact ⟨(g.view n out).arr,Or.inl rfl,(addHelp_of_not_grows (fun hg => hno ⟨rfl,hg⟩) _ _).trans hadd⟩

inductive Call where
  | addNode (n o i : Option ℕ)
  | addEdge (src dst : ℕ) (edge new1 new2 : Option ℕ)
  | delEdge (edge : ℕ)
  | delNode (n : ℕ)

def grCall (g : GrGraph) : Call → Option GrGraph
  | .addNode n o i => some (grAddNodeTry g n o i)
  | .addEdge src dst edge new1 new2 => (grAddEdgeTry g src dst edge new1 new2).map (·.graph)
  | .delEdge edge => grDelEdge g edge
  | .delNode n => grDelNode g n

/-- The client passes live nodes and edges, and the blocks that the allocator gives are not in use. -/
def GrGraph.Permits (g : GrGraph) : Call → Prop
  | .addNode n o i => (∀ p, n = some p → p ∉ g.nodes) ∧ (∀ p, o = some p → Unused g p) ∧
      ∀ p, i = some p → Unused g p ∧ o ≠ some p
  | .addEdge src dst edge new1 new2 => src ∈ g.nodes ∧ dst ∈ g.nodes ∧ (∀ e, edge = some e → e ∉ g.edges) ∧
      (∀ p, new1 = some p → Usable g src true p) ∧
      (src ≠ dst ∨ ¬g.isbi → ∀ e, edge = some e → ∀ g₁, (withEdge g src dst e).addHelpTry e src true new1 = some (some g₁) →
        ∀ p, new2 = some p → Usable g₁ dst false p)
  | .delEdge edge => edge ∈ g.edges
  | .delNode n => n ∈ g.nodes

/-- No addition gets an edge without the memory for the array of its first end. -/
def GrGraph.Keeps (g : GrGraph) : Call → Prop
  | .addEdge src _ edge new1 _ => edge = none ∨ new1 ≠ none ∨ ¬Grows g.mem (g.view src true)
  | _ => True

/-- A failed addition has left the graph as it was, without a freed block. -/
structure Undone (g : GrGraph) (r : AddReply) : Prop where
  isbi : r.graph.isbi = g.isbi
  nodes : r.graph.nodes = g.nodes
  edges : r.graph.edges = g.edges
  edge : ∀ e ∈ g.edges, r.graph.edge e = g.edge e
  contents : ∀ m ∈ g.nodes, ∀ t, r.graph.contents m t = g.contents m t
  freedEdges : ∀ e ∈ r.freedEdges, e ∉ r.graph.edges ∧ ∀ m ∈ g.nodes, ∀ t, e ∉ r.graph.contents m t
  freedArrs : ∀ p ∈ r.freedArrs, Unused r.graph p

variable {src dst : ℕ} {ans new1 new2 : Option ℕ} {r : AddReply}

theorem withEdge_views (h : Ok g) (src dst edge : ℕ) : Views (withEdge g src dst edge) g.Listed :=
  ⟨h.views.holds,h.views.own,h.views.shared⟩

theorem undo_first (h : Ok g) (hs : src ∈ g.nodes) (he : edge ∉ g.edges) {p : ℕ}
    (hp : Usable g src true p) (hadd : (withEdge g src dst edge).addHelp edge src true p = some g₁) :
    ∃ g₂, g₁.delHelp edge src true = some g₂ ∧ Ok g₂ ∧ Undone g ⟨g₂,none,[edge],moved g g₁ src true⟩ := by
  obtain ⟨g₂,hg₂,hu,hv⟩ := undo (withEdge_views h src dst edge) hs (fun hL => he hL.1)
    (fun hb e => listed_twin (g := g) hb _ _ e) hp hadd
  have hedges : g₂.edges = g.edges := hu.edges.trans (List.erase_cons_head ..)
  have hedge : ∀ e ∈ g.edges, g₂.edge e = g.edge e := by
    intro e hmem
    rw [hu.edge]
    exact if_neg fun hx : e = edge => he (hx ▸ hmem)
  have hmem : ∀ m ∈ g.nodes, ∀ t e, e ∈ g₂.contents m t ↔ g.Listed m t e := fun m hm t e =>
    (hv.holds m (hu.nodes ▸ hm) t).mem_contents
  refine ⟨g₂,hg₂,⟨hu.nodes ▸ h.nodes,hedges ▸ h.edges,fun e hmem => ?_,hv.congr fun m _ t e => ?_⟩,
    ⟨hu.isbi,hu.nodes,hedges,hedge,hu.contents,fun e hmemf => ?_,fun p hpm m hm => ?_⟩⟩
  · rw [hedges] at hmem
    rw [hedge e hmem,hu.nodes]
    exact h.ends e hmem
  · simp only [GrGraph.Listed, hedges, GrGraph.Ends, hu.isbi]
    refine and_congr_right fun hmem => ?_
    rw [hedge e hmem]
    rfl
  · obtain rfl := List.mem_singleton.mp hmemf
    exact ⟨hedges ▸ he,fun m hm t hc => he ((hmem m hm t e).mp hc).1⟩
  · exact hu.moved p hpm m (hu.nodes ▸ hm)

/-- The graph between the two calls of `add_edge_help`. -/
structure Between (g g₁ : GrGraph) (src dst edge : ℕ) : Prop where
  isbi : g₁.isbi = g.isbi
  nodes : g₁.nodes = g.nodes
  room : ¬Full g.mem (g.view src true)
  views : ∃ L, Views g₁ L ∧ ((src ≠ dst ∨ ¬g.isbi) → ¬L dst false edge) ∧ (g.isbi → ∀ e, L dst true e ↔ L dst false e)
  second : (src ≠ dst ∨ ¬g.isbi) → (Full g₁.mem (g₁.view dst false) ↔ Full g.mem (g.view dst false)) ∧
    (Grows g₁.mem (g₁.view dst false) ↔ Grows g.mem (g.view dst false))

theorem between (h : Ok g) (hs : src ∈ g.nodes) (hd : dst ∈ g.nodes) (he : edge ∉ g.edges) {p : ℕ}
    (hp : Usable g src true p) (hadd : (withEdge g src dst edge).addHelp edge src true p = some g₁) :
    Between g g₁ src dst edge := by
  have hv₀ := withEdge_views h src dst edge
  have hfs := not_full_of_addHelp hv₀ hs hadd
  obtain ⟨g₁',hg₁,hc₁,-,hmem₁,hus₁,hv₁⟩ := addHelp_spec hv₀ hs (fun hL => he hL.1)
    (fun hb e => listed_twin (g := g) hb _ _ e) hfs hp
  rw [hadd] at hg₁
  cases hg₁
  have hP : (src ≠ dst ∨ ¬g.isbi) → ¬(dst = src ∧ (false = true ∨ (withEdge g src dst edge).isbi)) := by
    rintro htwo ⟨hds,hf | hb⟩
    · cases hf
    · exact htwo.elim (fun hne => hne hds.symm) fun hnb => hnb hb
  refine ⟨hc₁.isbi,hc₁.nodes,hfs,⟨_,hv₁,fun htwo hL => ?_,fun hb e => ?_⟩,fun htwo => ?_⟩
  · exact hL.elim (fun hL => hP htwo hL.2) fun hL => he hL.1
  · rw [listed_twin (g := g) hb true false]
    have hb : (withEdge g src dst edge).isbi = true := hb
    simp [hb]
  · have hview : g₁.view dst false = g.view dst false := hc₁.view dst false (hP htwo)
    have hmem : g₁.mem (g.view dst false).arr = g.mem (g.view dst false).arr := hmem₁ _ (hv₀.apart hs hus₁ hd (hP htwo))
    rw [hview,Full,Full,Grows,Grows,firstHole,firstHole,hmem]
    exact ⟨Iff.rfl,Iff.rfl⟩

theorem add_both (h : Ok g) (hs : src ∈ g.nodes) (hd : dst ∈ g.nodes) (he : edge ∉ g.edges) {p q : ℕ}
    (hp : Usable g src true p) (hadd : (withEdge g src dst edge).addHelp edge src true p = some g₁)
    (htwo : src ≠ dst ∨ ¬g.isbi) (hq : Usable g₁ dst false q) (hadd₂ : g₁.addHelp edge dst false q = some g₂) : Ok g₂ := by
  obtain ⟨hisbi,hnodes,hfs,⟨L,hv₁,-,-⟩,hfull⟩ := between h hs hd he hp hadd
  have hfd : ¬Full g.mem (g.view dst false) := by
    rw [← (hfull htwo).1]
    exact not_full_of_addHelp hv₁ (hnodes ▸ hd) hadd₂
  obtain ⟨g',hg',hok,-⟩ := grAddEdge_spec h hs hd he hfs hfd hp fun _ g₃ hg₃ => by
    rw [hadd] at hg₃
    cases hg₃
    exact hq
  have hfold : grAddEdge g src dst edge p q = some g₂ := by
    rw [grAddEdge]
    change ((withEdge g src dst edge).addHelp edge src true p).bind _ = _
    rw [hadd]
    change (if src ≠ dst ∨ ¬g₁.isbi then _ else _) = _
    rw [if_pos (by rw [hisbi]; exact htwo),hadd₂]
  rw [hfold] at hg'
  cases hg'
  exact hok

theorem add_loop (h : Ok g) (hs : src ∈ g.nodes) (he : edge ∉ g.edges) {p : ℕ} (hp : Usable g src true p)
    (hadd : (withEdge g src src edge).addHelp edge src true p = some g₁) (hb : g.isbi) : Ok g₁ := by
  obtain ⟨hisbi,-,hfs,-,-⟩ := between h hs hs he hp hadd
  have hfd : ¬Full g.mem (g.view src false) := by
    rw [h.views.shared hb src hs false true]
    exact hfs
  have hno : ¬(src ≠ src ∨ ¬g.isbi) := fun h => h.elim (fun hne => hne rfl) fun hnb => hnb hb
  have hone : src ≠ src ∨ ¬g.isbi → ∀ g₁, (withEdge g src src edge).addHelp edge src true p = some g₁ → Usable g₁ src false 0 :=
    fun htwo => absurd htwo hno
  obtain ⟨g',hg',hok,-⟩ := grAddEdge_spec h hs hs he hfs hfd hp hone
  have hfold : grAddEdge g src src edge p 0 = some g₁ := by
    rw [grAddEdge]
    change ((withEdge g src src edge).addHelp edge src true p).bind _ = _
    rw [hadd]
    change (if src ≠ src ∨ ¬g₁.isbi then _ else _) = _
    rw [if_neg (by rw [hisbi]; exact hno)]
    rfl
  rw [hfold] at hg'
  cases hg'
  exact hok

theorem grAddEdgeTry_spec (h : Ok g) (hp : g.Permits (.addEdge src dst ans new1 new2))
    (hr : grAddEdgeTry g src dst ans new1 new2 = some r) :
    (g.Keeps (.addEdge src dst ans new1 new2) → Ok r.graph ∧ (r.ret = none → Undone g r)) ∧
      (¬g.Keeps (.addEdge src dst ans new1 new2) → r.ret = none ∧ ¬Undone g r) := by
  obtain ⟨hs,hd,he,hn1,hn2⟩ := hp
  cases ans with
  | none =>
    cases hr
    refine ⟨fun _ => ⟨h,fun _ => ⟨rfl,rfl,rfl,fun _ _ => rfl,fun _ _ _ => rfl,nofun,nofun⟩⟩,fun hk => absurd (Or.inl rfl) hk⟩
  | some edge =>
    obtain ⟨a,ha,hrest⟩ := Option.bind_eq_some_iff.mp hr
    replace he := he edge rfl
    cases a with
    | none =>
      cases hrest
      obtain ⟨hnone,hgrows⟩ := addHelpTry_none ha
      refine ⟨fun hk => ?_,fun _ => ⟨rfl,fun hu => ?_⟩⟩
      · rcases hk with hk | hk | hk
        · cases hk
        · exact absurd hnone hk
        · exact absurd hgrows hk
      · have : edge :: g.edges = g.edges := hu.edges
        simp at this
    | some g₁ =>
      obtain ⟨p,hp,hadd⟩ := addHelpTry_some ha hn1
      have hkeeps : g.Keeps (.addEdge src dst (some edge) new1 new2) := by
        by_contra hk
        obtain ⟨-,hk⟩ := not_or.mp hk
        obtain ⟨hk1,hk2⟩ := not_or.mp hk
        rw [GrGraph.addHelpTry,if_pos ⟨not_not.mp hk1,not_not.mp hk2⟩] at ha
        cases ha
      refine ⟨fun _ => ?_,fun hk => absurd hkeeps hk⟩
      dsimp only at hrest
      split at hrest
      · rename_i htwo
        obtain ⟨b,hb,hlast⟩ := Option.bind_eq_some_iff.mp hrest
        cases b with
        | none =>
          obtain ⟨g₂,hg₂,hok,hun⟩ := undo_first h hs he hp hadd
          rw [hg₂] at hlast
          cases hlast
          exact ⟨hok,fun _ => hun⟩
        | some g₂ =>
          cases hlast
          obtain ⟨q,hq,hadd₂⟩ := addHelpTry_some hb fun q hq => hn2 htwo edge rfl g₁ ha q hq
          exact ⟨add_both h hs hd he hp hadd htwo hq hadd₂,nofun⟩
      · rename_i htwo
        obtain ⟨hsd,hb⟩ := not_or.mp htwo
        obtain rfl := not_not.mp hsd
        cases hrest
        exact ⟨add_loop h hs he hp hadd (not_not.mp hb),nofun⟩

theorem addHelpTry_returns (h : Views g L) (hn : n ∈ g.nodes) (hL : ¬L n out edge)
    (hLb : g.isbi → ∀ e, L n (!out) e ↔ L n out e) (hfull : ¬Full g.mem (g.view n out))
    (hnew : ∀ p, ans = some p → Usable g n out p) : ∃ a, g.addHelpTry edge n out ans = some a := by
  rw [GrGraph.addHelpTry]
  split
  · exact ⟨_,rfl⟩
  · rename_i hno
    have hadd : ∃ g', g.addHelp edge n out (ans.getD 0) = some g' := by
      cases ans with
      | some p =>
        obtain ⟨g',hg',-⟩ := addHelp_spec h hn hL hLb hfull (hnew p rfl)
        exact ⟨g',hg'⟩
      | none =>
        obtain ⟨g',hg',-⟩ := addHelp_spec h hn hL hLb hfull (Or.inl rfl)
        exact ⟨g',(addHelp_of_not_grows (fun hg => hno ⟨rfl,hg⟩) _ _).trans hg'⟩
    obtain ⟨g',hg'⟩ := hadd
    exact ⟨some g',by rw [hg']; rfl⟩

theorem grAddEdgeTry_returns (h : Ok g) (hp : g.Permits (.addEdge src dst ans new1 new2))
    (hfs : ¬Full g.mem (g.view src true)) (hfd : ¬Full g.mem (g.view dst false)) :
    ∃ r, grAddEdgeTry g src dst ans new1 new2 = some r := by
  obtain ⟨hs,hd,he,hn1,hn2⟩ := hp
  cases ans with
  | none => exact ⟨_,rfl⟩
  | some edge =>
    replace he := he edge rfl
    obtain ⟨a,ha⟩ := addHelpTry_returns (withEdge_views h src dst edge) hs (fun hL => he hL.1)
      (fun hb e => listed_twin (g := g) hb _ _ e) hfs hn1
    simp only [grAddEdgeTry, ha, Option.bind_some]
    cases a with
    | none => exact ⟨_,rfl⟩
    | some g₁ =>
      obtain ⟨p,hp,hadd⟩ := addHelpTry_some ha hn1
      obtain ⟨hisbi,hnodes,-,⟨L,hv₁,hL,hLb⟩,hfull⟩ := between h hs hd he hp hadd
      dsimp only
      split
      · rename_i htwo
        obtain ⟨b,hb⟩ := addHelpTry_returns hv₁ (hnodes ▸ hd) (hL htwo) (fun hb => hLb (hisbi ▸ hb))
          (fun hf => hfd ((hfull htwo).1.mp hf)) (hn2 htwo edge rfl g₁ ha)
        rw [hb,Option.bind_some]
        cases b with
        | none =>
          obtain ⟨g₂,hg₂,-,-⟩ := undo_first h hs he hp hadd
          exact ⟨_,by dsimp only; rw [hg₂]; rfl⟩
        | some g₂ => exact ⟨_,rfl⟩
      · exact ⟨_,rfl⟩

theorem ret_none_of_second (h : Ok g) (hp : g.Permits (.addEdge src dst (some edge) new1 none))
    (htwo : src ≠ dst ∨ ¬g.isbi) (hgrows : Grows g.mem (g.view dst false))
    (hr : grAddEdgeTry g src dst (some edge) new1 none = some r) : r.ret = none := by
  obtain ⟨hs,hd,he,hn1,-⟩ := hp
  simp only [grAddEdgeTry] at hr
  obtain ⟨a,ha,hrest⟩ := Option.bind_eq_some_iff.mp hr
  cases a with
  | none =>
    cases hrest
    rfl
  | some g₁ =>
    obtain ⟨p,hp,hadd⟩ := addHelpTry_some ha hn1
    have hgrows₁ := ((between h hs hd (he edge rfl) hp hadd).second htwo).2.mpr hgrows
    have hb : g₁.addHelpTry edge dst false none = some none := if_pos ⟨rfl,hgrows₁⟩
    dsimp only at hrest
    rw [if_pos htwo,hb,Option.bind_some] at hrest
    obtain ⟨g₂,-,rfl⟩ := Option.map_eq_some_iff.mp hrest
    rfl

/-! ## Runs -/

theorem grAddNodeTry_ok (h : Ok g) {n o i : Option ℕ} (hp : g.Permits (.addNode n o i)) : Ok (grAddNodeTry g n o i) := by
  obtain ⟨hn,ho,hi⟩ := hp
  cases n with
  | none => exact h
  | some n =>
    cases o with
    | none => exact h
    | some o =>
      simp only [grAddNodeTry]
      split
      · rename_i hb
        -- the second array is not asked for: any address will do
        obtain ⟨p,hp⟩ := Infinite.exists_notMem_finset
          (insert o (g.nodes.flatMap fun m => [(g.view m true).arr,(g.view m false).arr]).toFinset)
        simp only [Finset.mem_insert, List.mem_toFinset, List.mem_flatMap, not_or, not_exists, not_and] at hp
        have hsame : grAddNode g n o o = grAddNode g n o p := by simp [grAddNode, hb]
        rw [hsame]
        refine grAddNode_spec h (hn n rfl) (ho o rfl) (fun m hm t he => hp.2 m hm ?_) (Ne.symm hp.1)
        cases t <;> simp [← he]
      · cases i with
        | none => exact h
        | some i => exact grAddNode_spec h (hn n rfl) (ho o rfl) (hi i rfl).1 fun he => (hi i rfl).2 (congrArg some he)

theorem grCall_ok (h : Ok g) {c : Call} (hp : g.Permits c) (hk : g.Keeps c) (hr : grCall g c = some g₁) : Ok g₁ := by
  cases c with
  | addNode n o i =>
    cases hr
    exact grAddNodeTry_ok h hp
  | addEdge src dst edge new1 new2 =>
    obtain ⟨r,hadd,rfl⟩ := Option.map_eq_some_iff.mp hr
    exact ((grAddEdgeTry_spec h hp hadd).1 hk).1
  | delEdge edge =>
    obtain ⟨g',hg',hd⟩ := grDelEdge_spec h hp
    rw [grCall,hg'] at hr
    cases hr
    exact hd.ok
  | delNode n =>
    obtain ⟨g',hg',hok,-⟩ := grDelNode_spec h hp
    rw [grCall,hg'] at hr
    cases hr
    exact hok

/-- The graphs of the runs in which no addition lacks the memory for its first array. -/
def Reachable (isbi : Bool) (mem : Mem) (g : GrGraph) : Prop :=
  Reach (fun g c g' => grCall g c = some g') (fun g c => g.Permits c ∧ g.Keeps c) (grNew isbi mem) g

theorem Reachable.ok {isbi : Bool} (h : Reachable isbi mem g) : Ok g :=
  Reach.inv (fun _ _ _ hok hp hn => grCall_ok hok hp.1 hp.2 hn) (grNew_ok isbi mem) h

/-! ## The search -/

/-- The edge has the two ends, in this direction or, in a bidirectional graph, in either. -/
def GrGraph.Joins (g : GrGraph) (src dst e : ℕ) : Prop :=
  (g.edge e).n1 = src ∧ (g.edge e).n2 = dst ∨ g.isbi ∧ (g.edge e).n1 = dst ∧ (g.edge e).n2 = src

/-- The answer is an edge between the two nodes, or there is none. -/
def FindRight (g : GrGraph) (src dst : ℕ) : Prop :=
  match grFindEdge g src dst with
  | some e => e ∈ g.edges ∧ g.Joins src dst e
  | none => ∀ e ∈ g.edges, ¬g.Joins src dst e

theorem Ok.mem_contents (h : Ok g) (hn : n ∈ g.nodes) {e : ℕ} : e ∈ g.contents n out ↔ g.Listed n out e :=
  (h.views.holds n hn out).mem_contents

theorem reaches_iff {e : ℕ} (hl : g.Listed src true e) : g.reaches dst e = true ↔ g.Joins src dst e ∨ g.isbi ∧ src = dst := by
  have hends := hl.2
  simp only [GrGraph.reaches, GrGraph.Joins, GrGraph.Ends, decide_eq_true_eq, if_true] at hends ⊢
  split at hends
  · rename_i hb
    simp only [hb, true_and]
    rcases hends with rfl | rfl
    · tauto
    · tauto
  · rename_i hb
    subst hends
    simp [hb]

theorem joins_listed {e : ℕ} (he : e ∈ g.edges) (hj : g.Joins src dst e) : g.Listed src true e := by
  refine ⟨he,?_⟩
  rw [GrGraph.Ends]
  rcases hj with ⟨h1,-⟩ | ⟨hb,-,h2⟩
  · split
    · exact Or.inl h1
    · exact h1
  · rw [if_pos hb]
    exact Or.inr h2

theorem findRight_iff (h : Ok g) (hs : src ∈ g.nodes) : FindRight g src dst ↔
    (g.isbi → src = dst → ∀ e, (g.contents src true).head? = some e → (g.edge e).n1 = src ∧ (g.edge e).n2 = src) := by
  by_cases hsame : g.isbi ∧ src = dst
  · obtain ⟨hb,rfl⟩ := hsame
    have hall : ∀ e ∈ g.contents src true, g.reaches src e = true := fun e he =>
      (reaches_iff (h.mem_contents hs |>.mp he)).mpr (Or.inr ⟨hb,rfl⟩)
    rw [FindRight,grFindEdge]
    cases hc : g.contents src true with
    | nil =>
      refine iff_of_true (fun e he hj => ?_) nofun
      have := (h.mem_contents hs).mpr (joins_listed he hj)
      rw [hc] at this
      cases this
    | cons e es =>
      have he : e ∈ g.contents src true := hc ▸ List.mem_cons_self
      rw [List.find?_cons_of_pos (hall e he)]
      simp only [List.head?_cons, Option.some.injEq, forall_eq', hb, true_implies, GrGraph.Joins, true_and, or_self]
      have hmem := (h.mem_contents hs |>.mp he).1
      exact ⟨fun hj => hj.2,fun hj => ⟨hmem,hj⟩⟩
  · refine iff_of_true ?_ fun hb he => absurd ⟨hb,he⟩ hsame
    rw [FindRight]
    cases hf : grFindEdge g src dst with
    | some e =>
      have hl := (h.mem_contents hs).mp (List.mem_of_find?_eq_some hf)
      exact ⟨hl.1,((reaches_iff hl).mp (List.find?_some hf)).resolve_right hsame⟩
    | none =>
      intro e he hj
      have hl := joins_listed he hj
      exact List.find?_eq_none.mp hf e ((h.mem_contents hs).mpr hl) ((reaches_iff hl).mpr (Or.inl hj))

/-- `gr_find_edge` in every graph that is reached, between any two of its nodes. -/
theorem grFindEdge_iff {isbi : Bool} (h : Reachable isbi mem g) (hs : src ∈ g.nodes) : FindRight g src dst ↔
    (g.isbi → src = dst → ∀ e, (g.contents src true).head? = some e → (g.edge e).n1 = src ∧ (g.edge e).n2 = src) :=
  findRight_iff h.ok hs

theorem node_reachable {isbi : Bool} (hb : isbi = true) : Reachable isbi mem (grAddNode (grNew isbi mem) 0 0 0) := by
  subst hb
  exact .step (i := .addNode (some 0) (some 0) none) .start ⟨⟨nofun,nofun,nofun⟩,trivial⟩ rfl

theorem second_reachable (h : Reachable true mem g) (hb : g.isbi = true) (hn : g.nodes = [0])
    (ha : ∀ t, (g.view 0 t).arr = 0) : Reachable true mem (grAddNode g 1 1 1) := by
  refine .step (i := .addNode (some 1) (some 1) none) h ⟨⟨fun p hp => ?_,fun p hp m hm t => ?_,nofun⟩,trivial⟩ ?_
  · cases hp
    rw [hn]
    decide
  · cases hp
    rw [hn] at hm
    cases List.mem_singleton.mp hm
    rw [ha]
    decide
  · simp [grCall, grAddNodeTry, hb]

theorem pair_reachable : ∃ g, Reachable true (fun _ _ => none) g ∧ g.isbi = true ∧ g.nodes = [1,0] ∧
    g.contents 0 true = [0] ∧ g.edge 0 = ⟨0,1⟩ := by
  have h := @second_reachable _ (fun _ _ => none) (node_reachable rfl) rfl rfl (by decide)
  exact ⟨_,.step (i := .addEdge 0 1 (some 0) none none) h ⟨⟨by decide,by decide,nofun,nofun,nofun⟩,
    Or.inr (Or.inr (by decide))⟩ rfl,rfl,rfl,rfl,rfl⟩

theorem grFindEdge_iff_pair : ∃ g, Reachable true (fun _ _ => none) g ∧ FindRight g 0 1 := by
  obtain ⟨g,hg,hb,hn,-,-⟩ := pair_reachable
  exact ⟨g,hg,(grFindEdge_iff hg (by rw [hn]; decide)).mpr fun _ h => absurd h (by decide)⟩

/-- The search for a loop comes back with the edge to another node. -/
theorem grFindEdge_loop : ¬∀ (isbi : Bool) (mem : Mem) (g : GrGraph), Reachable isbi mem g →
    ∀ src ∈ g.nodes, ∀ dst ∈ g.nodes, FindRight g src dst := by
  intro hall
  obtain ⟨g,hg,hb,hn,hc,he⟩ := pair_reachable
  have h0 : 0 ∈ g.nodes := by rw [hn]; decide
  have := (findRight_iff hg.ok h0).mp (hall _ _ g hg 0 h0 0 h0) hb rfl 0 (by rw [hc]; rfl)
  rw [he] at this
  exact absurd this.2 (by decide)

/-- `gr_add_edge` in every graph that is reached, whatever the allocator answers: it returns, and if it
returns null it has taken everything back, except where the array of the first end cannot grow. -/
theorem grAddEdge_undone_iff {isbi : Bool} (h : Reachable isbi mem g) (hp : g.Permits (.addEdge src dst ans new1 new2)) :
    (¬Full g.mem (g.view src true) → ¬Full g.mem (g.view dst false) → ∃ r, grAddEdgeTry g src dst ans new1 new2 = some r) ∧
    ∀ r, grAddEdgeTry g src dst ans new1 new2 = some r → r.ret = none →
      (Undone g r ↔ ans = none ∨ new1 ≠ none ∨ ¬Grows g.mem (g.view src true)) := by
  refine ⟨grAddEdgeTry_returns h.ok hp,fun r hr hnone => ?_⟩
  obtain ⟨hkeeps,hloses⟩ := grAddEdgeTry_spec h.ok hp hr
  constructor
  · intro hu
    by_contra hk
    exact (hloses hk).2 hu
  · exact fun hk => (hkeeps hk).2 hnone

/-! ## A full array -/

theorem grAddEdgeTry_of_some {p q : ℕ} (hr : grAddEdge g src dst edge p q = some g₁) :
    ∃ r, grAddEdgeTry g src dst (some edge) (some p) (some q) = some r ∧ r.graph = g₁ := by
  have htry : ∀ (g : GrGraph) n out p, g.addHelpTry edge n out (some p) = (g.addHelp edge n out p).map some :=
    fun g n out p => if_neg fun h => absurd h.1 nofun
  obtain ⟨g₂,hg₂,hrest⟩ := Option.bind_eq_some_iff.mp (show ((withEdge g src dst edge).addHelp edge src true p).bind
    (fun g => if src ≠ dst ∨ ¬g.isbi then g.addHelp edge dst false q else some g) = some g₁ from hr)
  have hisbi : g₂.isbi = g.isbi := by
    obtain ⟨r,-,hg₂⟩ := Option.bind_eq_some_iff.mp hg₂
    cases hg₂
    rfl
  simp only [grAddEdgeTry, htry, hg₂, Option.map_some, Option.bind_some]
  rw [hisbi] at hrest
  split at hrest
  · rename_i htwo
    rw [if_pos htwo,hrest]
    exact ⟨_,rfl,rfl⟩
  · rename_i htwo
    cases hrest
    rw [if_neg htwo]
    exact ⟨_,rfl,rfl⟩

theorem addEdgeHelp_len {ea2 : Option EdgeArr} {w : Mem × EdgeArr × Option EdgeArr} (hno : firstHole mem ea = none)
    (hne : ea.fill ≠ ea.len) (hw : addEdgeHelp mem edge ea ea2 new = some w) : w.2.1.len = ea.len := by
  rw [addEdgeHelp,hno,growArr,if_neg hne] at hw
  dsimp only at hw
  split at hw
  · cases hw
    rfl
  · cases hw

theorem loops_reachable {k : ℕ} (hk : k ≤ 16) :
    ∃ g, Reachable true (fun _ _ => none) g ∧ Loops g k ∧ (g.view 0 true).len = 16 := by
  induction k with
  | zero =>
    obtain ⟨g,hg,hl⟩ := loops_start
    cases hg
    exact ⟨_,node_reachable rfl,hl,rfl⟩
  | succ k ih =>
    obtain ⟨g,hg,hl,hlen⟩ := ih (by omega)
    obtain ⟨g',hg',hl'⟩ := hl.step (by omega)
    obtain ⟨r,hr,rfl⟩ := grAddEdgeTry_of_some (show grAddEdge g 0 0 k 0 0 = some g' from hg')
    obtain ⟨hs,hd,he,h1,-⟩ := hl.allows
    refine ⟨_,.step (i := .addEdge 0 0 (some k) (some 0) (some 0)) hg ⟨⟨hs,hd,fun e h => ?_,fun p h => ?_,
      fun h => absurd h (by simp [hl.isbi])⟩,Or.inr (Or.inl nofun)⟩ (by rw [grCall,hr]; rfl),hl',?_⟩
    · cases h
      exact he
    · cases h
      exact h1
    · rw [show step g (.addEdge 0 0 k 0 0) = _ from hl.addEdge] at hg'
      obtain ⟨w,hw,hview⟩ := Option.map_eq_some_iff.mp hg'
      have hne : (g.view 0 true).fill ≠ (g.view 0 true).len := by
        rw [hl.fill,hlen]
        omega
      rw [← hview]
      exact (congrArg EdgeArr.len view_setViews_self).trans ((addEdgeHelp_len hl.dense hne hw).trans hlen)

theorem full_reachable : ∃ g, Reachable true (fun _ _ => none) g ∧ Loops g 16 ∧ Grows g.mem (g.view 0 true) := by
  obtain ⟨g,hg,hl,hlen⟩ := loops_reachable le_rfl
  exact ⟨g,hg,hl,hl.dense,hl.fill.trans hlen.symm⟩

/-- The seventeenth edge stays in the list of edges after it is freed. -/
theorem grAddEdge_dangling : ¬∀ (isbi : Bool) (mem : Mem) (g : GrGraph), Reachable isbi mem g →
    ∀ src dst ans new1 new2, g.Permits (.addEdge src dst ans new1 new2) →
      ∀ r, grAddEdgeTry g src dst ans new1 new2 = some r → r.ret = none → Undone g r := by
  intro hall
  obtain ⟨g,hg,hl,hgrows⟩ := full_reachable
  obtain ⟨hs,hd,he,-,-⟩ := hl.allows
  have hp : g.Permits (.addEdge 0 0 (some 16) none none) := by
    refine ⟨hs,hd,fun e h => ?_,nofun,fun h => absurd h (by simp [hl.isbi])⟩
    cases h
    exact he
  have hr : grAddEdgeTry g 0 0 (some 16) none none = some ⟨withEdge g 0 0 16,none,[16],[]⟩ := by
    have htry : (withEdge g 0 0 16).addHelpTry 16 0 true none = some none := if_pos ⟨rfl,hgrows⟩
    simp only [grAddEdgeTry, htry, Option.bind_some]
  have hu := hall _ _ g hg 0 0 _ _ _ hp _ hr rfl
  exact (hu.freedEdges 16 (List.mem_singleton.mpr rfl)).1 List.mem_cons_self

/-- An edge from a new node to the full one: the second array cannot grow. -/
theorem grAddEdge_undone_iff_full : ∃ g, Reachable true (fun _ _ => none) g ∧
    ∃ r, grAddEdgeTry g 1 0 (some 16) none none = some r ∧ r.ret = none ∧ Undone g r := by
  obtain ⟨g₀,hg₀,hl,hgrows⟩ := full_reachable
  have h0 : (0 : ℕ) ∈ g₀.nodes := hl.nodes ▸ List.mem_cons_self
  have hsh : g₀.view 0 false = g₀.view 0 true := hl.ok.views.shared hl.isbi 0 h0 _ _
  have harr : ∀ t, (g₀.view 0 t).arr = 0 := fun t => by rw [hl.ok.views.shared hl.isbi 0 h0 t true,hl.arr]
  have hg := second_reachable hg₀ hl.isbi hl.nodes harr
  have hview0 : (grAddNode g₀ 1 1 1).view 0 false = g₀.view 0 true := (view_setViews_ne (by decide)).trans hsh
  have hview1 : (grAddNode g₀ 1 1 1).view 1 true = ⟨1,0,initEdgeLen⟩ := view_setViews_self
  have hs : 1 ∈ (grAddNode g₀ 1 1 1).nodes := List.mem_cons_self
  have hd : 0 ∈ (grAddNode g₀ 1 1 1).nodes := List.mem_cons_of_mem _ h0
  have he : 16 ∉ (grAddNode g₀ 1 1 1).edges := fun he => absurd (hl.edges 16 he) (by decide)
  have hp : (grAddNode g₀ 1 1 1).Permits (.addEdge 1 0 (some 16) none none) := by
    refine ⟨hs,hd,fun e h => ?_,nofun,fun _ _ _ _ _ => nofun⟩
    cases h
    exact he
  have hno : ¬Grows (grAddNode g₀ 1 1 1).mem ((grAddNode g₀ 1 1 1).view 1 true) := by
    rw [hview1]
    exact fun h => absurd h.2 (by decide)
  obtain ⟨hret,hiff⟩ := grAddEdge_undone_iff hg hp
  obtain ⟨r,hr⟩ := hret (by rw [hview1]; exact fun h => absurd h.1 (by decide))
    (by rw [hview0]; exact fun h => absurd (hl.fill.symm.trans h.1) (by decide))
  have hnone := ret_none_of_second hg.ok hp (Or.inl (by decide)) (by rw [hview0]; exact hgrows) hr
  exact ⟨_,hg,r,hr,hnone,(hiff r hr hnone).mpr (Or.inr (Or.inr hno))⟩

end Catlib.Graph
