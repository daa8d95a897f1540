import Catlib.Graph.Graph
import Mathlib.Data.List.Nodup

/-! # Runs of graph operations

Every operation keeps the graph consistent, as long as no edge is added to an array of 2³¹
entries that are all in use.
-/
namespace Catlib.Graph

variable {g g' : GrGraph} {n edge : ℕ} {L L' : ℕ → Bool → ℕ → Prop}

theorem Views.congr (h : Views g L) (hL : ∀ m ∈ g.nodes, ∀ t e, L' m t e ↔ L m t e) : Views g L' :=
  ⟨fun m hm t => (h.holds m hm t).congr (fun _ _ => rfl) (hL m hm t),h.own,h.shared⟩

theorem listed_twin (hb : g.isbi) (s t : Bool) (e : ℕ) : g.Listed n s e ↔ g.Listed n t e := by
  simp [GrGraph.Listed, GrGraph.Ends, hb]

theorem grNew_ok (isbi : Bool) (mem : Mem) : Ok (grNew isbi mem) :=
  ⟨List.nodup_nil,List.nodup_nil,nofun,⟨nofun,nofun,fun _ => nofun⟩⟩

/-! ## Nodes -/

theorem grAddNode_spec (h : Ok g) (hn : n ∉ g.nodes) {o i : ℕ} (ho : ∀ m ∈ g.nodes, ∀ t, (g.view m t).arr ≠ o)
    (hi : ∀ m ∈ g.nodes, ∀ t, (g.view m t).arr ≠ i) (hoi : o ≠ i) : Ok (grAddNode g n o i) := by
  have hview : ∀ m ∈ g.nodes, ∀ t, (grAddNode g n o i).view m t = g.view m t :=
    fun m hm t => view_setViews_ne (fun e => hn (e ▸ hm))
  have hnew : ∀ t, (grAddNode g n o i).view n t = ⟨if t ∨ g.isbi then o else i,0,initEdgeLen⟩ := by
    intro t
    cases t <;> simp [grAddNode, GrGraph.view, GrGraph.setViews]
  have harr : ∀ {m s t}, m ∈ g.nodes → (g.view m s).arr ≠ ((grAddNode g n o i).view n t).arr := by
    intro m s t hm
    rw [hnew]
    dsimp only
    split
    · exact ho m hm s
    · exact hi m hm s
  refine ⟨List.nodup_cons.2 ⟨hn,h.nodes⟩,h.edges,fun e he => ?_,⟨fun m hm t => ?_,fun m hm k hk s t he => ?_,
    fun hb m hm s t => ?_⟩⟩
  · exact ⟨List.mem_cons_of_mem _ (h.ends e he).1,List.mem_cons_of_mem _ (h.ends e he).2⟩
  · rcases List.mem_cons.1 hm with rfl | hm
    · rw [hnew]
      refine ⟨Nat.zero_le _,⟨0,by decide,rfl⟩,by rintro _ ⟨⟩,fun e he => ?_,by rintro _ ⟨⟩⟩
      -- no edge has the new node as an end
      have hends := h.ends e he.1
      have he := he.2
      change g.Ends m t e at he
      unfold GrGraph.Ends at he
      split at he
      · rcases he with rfl | rfl
        · exact absurd hends.1 hn
        · exact absurd hends.2 hn
      · split at he <;> subst he
        · exact absurd hends.1 hn
        · exact absurd hends.2 hn
    · rw [hview m hm]
      exact h.views.holds m hm t
  · rcases List.mem_cons.1 hm with rfl | hm' <;> rcases List.mem_cons.1 hk with rfl | hk'
    · refine ⟨rfl,?_⟩
      rw [hnew,hnew] at he
      change _ ∨ g.isbi = true
      by_cases hb : g.isbi = true
      · exact Or.inr hb
      · cases s <;> cases t <;> simp_all
    · rw [hview k hk'] at he
      exact absurd he.symm (harr hk')
    · rw [hview m hm'] at he
      exact absurd he (harr hm')
    · rw [hview m hm',hview k hk'] at he
      exact h.views.own m hm' k hk' s t he
  · have hb' : g.isbi = true := hb
    rcases List.mem_cons.1 hm with rfl | hm'
    · rw [hnew,hnew]
      simp [hb']
    · rw [hview m hm',hview m hm']
      exact h.views.shared hb' m hm' s t

/-! ## Edges -/

/-- The graph of an addition before the arrays change. -/
def withEdge (g : GrGraph) (src dst edge : ℕ) : GrGraph :=
  { g with edges := edge :: g.edges, edge := fun e => if e = edge then ⟨src,dst⟩ else g.edge e }

theorem withEdge_listed (he : edge ∉ g.edges) (src dst m : ℕ) (t : Bool) (x : ℕ) :
    (withEdge g src dst edge).Listed m t x ↔
      (x = edge ∧ if g.isbi then src = m ∨ dst = m else if t then src = m else dst = m) ∨ g.Listed m t x := by
  simp only [GrGraph.Listed, GrGraph.Ends, withEdge, List.mem_cons]
  by_cases hx : x = edge
  · subst hx
    simp [he]
  · simp [hx]

theorem grAddEdge_spec (h : Ok g) {src dst new1 new2 : ℕ} (hs : src ∈ g.nodes) (hd : dst ∈ g.nodes) (he : edge ∉ g.edges)
    (hfs : ¬Full g.mem (g.view src true)) (hfd : ¬Full g.mem (g.view dst false)) (h1 : Usable g src true new1)
    (h2 : src ≠ dst ∨ ¬g.isbi → ∀ g₁, (withEdge g src dst edge).addHelp edge src true new1 = some g₁ →
      Usable g₁ dst false new2) :
    ∃ g', grAddEdge g src dst edge new1 new2 = some g' ∧ Ok g' ∧ g'.nodes = g.nodes ∧ g'.edges = edge :: g.edges ∧
      g'.edge = (withEdge g src dst edge).edge ∧ g'.isbi = g.isbi := by
  have hv₀ : Views (withEdge g src dst edge) g.Listed := ⟨h.views.holds,h.views.own,h.views.shared⟩
  obtain ⟨g₁,hg₁,hc₁,hedges₁,hmem₁,hus₁,hv₁⟩ := addHelp_spec hv₀ hs (fun hL => he hL.1)
    (fun hb e => listed_twin (g := g) hb _ _ e) hfs h1
  have hlisted := withEdge_listed he src dst
  have hends : ∀ e ∈ edge :: g.edges, ((withEdge g src dst edge).edge e).n1 ∈ g.nodes ∧
      ((withEdge g src dst edge).edge e).n2 ∈ g.nodes := by
    intro e hmem
    by_cases hx : e = edge
    · simp [withEdge, hx, hs, hd]
    · have := h.ends e ((List.mem_cons.1 hmem).resolve_left hx)
      simpa [withEdge, hx] using this
  have hok : ∀ {g₂}, g₂.nodes = g.nodes → g₂.edges = edge :: g.edges → g₂.edge = (withEdge g src dst edge).edge →
      g₂.isbi = g.isbi → Views g₂ (withEdge g src dst edge).Listed → Ok g₂ := by
    intro g₂ hn hee hed hb hv
    refine ⟨hn ▸ h.nodes,hee ▸ List.nodup_cons.2 ⟨he,h.edges⟩,?_,hv.congr fun m _ t e => ?_⟩
    · rw [hee,hed,hn]
      exact hends
    · simp only [GrGraph.Listed, GrGraph.Ends, hee, hed, hb]
      rfl
  have hfold : grAddEdge g src dst edge new1 new2 =
      if src ≠ dst ∨ ¬g₁.isbi then g₁.addHelp edge dst false new2 else some g₁ := by
    rw [grAddEdge]
    change ((withEdge g src dst edge).addHelp edge src true new1).bind _ = _
    rw [hg₁]
    rfl
  have hb₁ : g₁.isbi = g.isbi := hc₁.isbi
  by_cases htwo : src ≠ dst ∨ ¬g.isbi
  · have hP : ¬(dst = src ∧ (false = true ∨ (withEdge g src dst edge).isbi)) := by
      rintro ⟨hds,hf | hb⟩
      · cases hf
      · rcases htwo with hne | hnb
        · exact hne hds.symm
        · exact hnb hb
    have hview : g₁.view dst false = g.view dst false := hc₁.view dst false hP
    have hmem : g₁.mem (g.view dst false).arr = g.mem (g.view dst false).arr := hmem₁ _ (hv₀.apart hs hus₁ hd hP)
    have hno : ¬((edge = edge ∧ dst = src ∧ (false = true ∨ (withEdge g src dst edge).isbi)) ∨ g.Listed dst false edge) :=
      fun hL => hL.elim (fun hL => hP hL.2) fun hL => he hL.1
    obtain ⟨g₂,hg₂,hc₂,hedges₂,-,-,hv₂⟩ := addHelp_spec hv₁ (hc₁.nodes ▸ hd) hno (fun hb e => by
        rw [listed_twin (g := g) (hb₁ ▸ hb) (!false) false]
        have hb : (withEdge g src dst edge).isbi = true := hb₁ ▸ hb
        simp [hb]) (by rw [hview,Full,hmem]; exact hfd) (h2 htwo g₁ hg₁)
    refine ⟨g₂,by rw [hfold,if_pos (by rw [hb₁]; exact htwo),hg₂],?_,hc₂.nodes.trans hc₁.nodes,hedges₂.trans hedges₁,
      hc₂.edge.trans hc₁.edge,hc₂.isbi.trans hb₁⟩
    refine hok (hc₂.nodes.trans hc₁.nodes) (hedges₂.trans hedges₁) (hc₂.edge.trans hc₁.edge) (hc₂.isbi.trans hb₁)
      (hv₂.congr fun m _ t e => ?_)
    rw [hlisted,hb₁]
    change _ ↔ _ ∨ (e = edge ∧ m = src ∧ (t = true ∨ g.isbi)) ∨ _
    by_cases hb : g.isbi = true
    · simp only [hb, if_true, or_true, and_true]
      tauto
    · cases t <;> simp [hb, eq_comm, or_comm]
  · obtain ⟨hsd,hb⟩ := not_or.1 htwo
    replace hsd : src = dst := not_not.1 hsd
    replace hb : g.isbi = true := not_not.1 hb
    refine ⟨g₁,by rw [hfold,if_neg (by rw [hb₁]; exact htwo)],?_,hc₁.nodes,hedges₁,hc₁.edge,hb₁⟩
    refine hok hc₁.nodes hedges₁ hc₁.edge hb₁ (hv₁.congr fun m _ t e => ?_)
    rw [hlisted]
    change _ ↔ (e = edge ∧ m = src ∧ (t = true ∨ g.isbi)) ∨ _
    simp [hb, ← hsd, eq_comm]

/-- What the deletion of an edge does. -/
structure Deleted (g g' : GrGraph) (edge : ℕ) : Prop where
  ok : Ok g'
  nodes : g'.nodes = g.nodes
  edges : g'.edges = g.edges.erase edge
  edge : g'.edge = g.edge
  isbi : g'.isbi = g.isbi
  views : ∀ m ∈ g.nodes, ∀ t, (g'.view m t).arr = (g.view m t).arr ∧ (g'.view m t).fill ≤ (g.view m t).fill
  mem : ∀ p i, g'.mem p i = g.mem p i ∨ g'.mem p i = none

theorem grDelEdge_spec (h : Ok g) (he : edge ∈ g.edges) : ∃ g', grDelEdge g edge = some g' ∧ Deleted g g' edge := by
  obtain ⟨hn1,hn2⟩ := h.ends edge he
  have hL1 : g.Listed (g.edge edge).n1 true edge := ⟨he,by simp [GrGraph.Ends]⟩
  have hL2 : g.Listed (g.edge edge).n2 false edge := ⟨he,by simp [GrGraph.Ends]⟩
  obtain ⟨g₁,hg₁,hc₁,hedges₁,hviews₁,hmem₁,hv₁⟩ := delHelp_spec h.views hn1 hL1 (fun hb e => listed_twin hb _ _ e)
  have hb₁ : g₁.isbi = g.isbi := hc₁.isbi
  have hok : ∀ {g₂}, g₂.nodes = g.nodes → g₂.edges = g.edges.erase edge → g₂.edge = g.edge → g₂.isbi = g.isbi →
      (Views g₂ fun m t e => g.Listed m t e ∧ e ≠ edge) → Ok g₂ := by
    intro g₂ hn hee hed hb hv
    refine ⟨hn ▸ h.nodes,hee ▸ h.edges.erase _,?_,hv.congr fun m _ t e => ?_⟩
    · rw [hee,hed,hn]
      exact fun e hmem => h.ends e (List.mem_of_mem_erase hmem)
    · simp only [GrGraph.Listed, GrGraph.Ends, hee, hed, hb, h.edges.mem_erase_iff]
      tauto
  have hfold : grDelEdge g edge =
      if (g.edge edge).n1 ≠ (g.edge edge).n2 ∨ ¬g₁.isbi then g₁.delHelp edge (g.edge edge).n2 false else some g₁ := by
    rw [grDelEdge,hg₁]
    rfl
  -- an edge is only listed where it ends
  have hends : ∀ {m t}, g.Listed m t edge → m = (g.edge edge).n1 ∧ (t = true ∨ g.isbi) ∨
      m = (g.edge edge).n2 ∧ (t = false ∨ g.isbi) := by
    intro m t hL
    have hL := hL.2
    unfold GrGraph.Ends at hL
    split at hL
    · rename_i hb
      exact hL.imp (fun h => ⟨h.symm,Or.inr hb⟩) fun h => ⟨h.symm,Or.inr hb⟩
    · split at hL
      · rename_i ht
        exact Or.inl ⟨hL.symm,Or.inl ht⟩
      · rename_i ht
        exact Or.inr ⟨hL.symm,Or.inl (by simpa using ht)⟩
  by_cases htwo : (g.edge edge).n1 ≠ (g.edge edge).n2 ∨ ¬g.isbi
  · have hP : ¬((g.edge edge).n2 = (g.edge edge).n1 ∧ (false = true ∨ g.isbi)) := by
      rintro ⟨hnn,hf | hb⟩
      · cases hf
      · rcases htwo with hne | hnb
        · exact hne hnn.symm
        · exact hnb hb
    have hyes : g.Listed (g.edge edge).n2 false edge ∧
        ¬(edge = edge ∧ (g.edge edge).n2 = (g.edge edge).n1 ∧ (false = true ∨ g.isbi)) := ⟨hL2,fun h' => hP h'.2⟩
    obtain ⟨g₂,hg₂,hc₂,hedges₂,hviews₂,hmem₂,hv₂⟩ := delHelp_spec hv₁ (hc₁.nodes ▸ hn2) hyes (fun hb e => by
        rw [listed_twin (g := g) (hb₁ ▸ hb) (!false) false]
        have hb : g.isbi = true := hb₁ ▸ hb
        simp [hb])
    have hedges : g₂.edges = g.edges.erase edge := by
      rw [hedges₂,hedges₁]
      exact List.erase_of_not_mem (h.edges.not_mem_erase)
    refine ⟨g₂,by rw [hfold,if_pos (by rw [hb₁]; exact htwo),hg₂],hok (hc₂.nodes.trans hc₁.nodes) hedges
      (hc₂.edge.trans hc₁.edge) (hc₂.isbi.trans hb₁) (hv₂.congr fun m _ t e => ?_),hc₂.nodes.trans hc₁.nodes,hedges,
      hc₂.edge.trans hc₁.edge,hc₂.isbi.trans hb₁,fun m hm t => ?_,fun p i => ?_⟩
    · rw [hb₁]
      constructor
      · rintro ⟨hL,hne⟩
        exact ⟨⟨hL,fun h' => hne h'.1⟩,fun h' => hne h'.1⟩
      · rintro ⟨⟨hL,h1⟩,h2⟩
        refine ⟨hL,?_⟩
        rintro rfl
        rcases hends hL with h' | h'
        · exact h1 ⟨rfl,h'⟩
        · exact h2 ⟨rfl,h'⟩
    · obtain ⟨ha,hf⟩ := hviews₁ m hm t
      obtain ⟨ha',hf'⟩ := hviews₂ m (hc₁.nodes ▸ hm) t
      exact ⟨ha'.trans ha,hf'.trans hf⟩
    · rcases hmem₂ p i with h' | h'
      · rw [h']
        exact hmem₁ p i
      · exact Or.inr h'
  · obtain ⟨hnn,hb⟩ := not_or.1 htwo
    replace hnn : (g.edge edge).n1 = (g.edge edge).n2 := not_not.1 hnn
    replace hb : g.isbi = true := not_not.1 hb
    refine ⟨g₁,by rw [hfold,if_neg (by rw [hb₁]; exact htwo)],hok hc₁.nodes hedges₁ hc₁.edge hb₁
      (hv₁.congr fun m _ t e => ?_),hc₁.nodes,hedges₁,hc₁.edge,hb₁,hviews₁,hmem₁⟩
    constructor
    · rintro ⟨hL,hne⟩
      exact ⟨hL,fun h' => hne h'.1⟩
    · rintro ⟨hL,h1⟩
      refine ⟨hL,?_⟩
      rintro rfl
      rcases hends hL with h' | h'
      · exact h1 ⟨rfl,h'⟩
      · exact h1 ⟨rfl,h'.1.trans hnn.symm,Or.inr hb⟩

/-! ## Deletion of a node -/

theorem listed_none (h : Ok g) (hn : n ∈ g.nodes) {out : Bool}
    (hnone : ∀ j < (g.view n out).fill, g.mem (g.view n out).arr j = none) : ∀ x ∈ g.edges, ¬g.Ends n out x := by
  intro x hx he
  obtain ⟨i,hi,hie⟩ := (h.views.holds n hn out).found x ⟨hx,he⟩
  rw [hnone i hi] at hie
  cases hie

theorem delWalk_spec (h : Ok g) (hn : n ∈ g.nodes) {out : Bool} {arr k i : ℕ} (harr : arr = (g.view n out).arr)
    (hk : (g.view n out).fill ≤ i + k) (hpast : ∀ j < i, j < (g.view n out).fill → g.mem arr j = none) :
    ∃ g', delWalk arr n out k i g = some g' ∧ Ok g' ∧ g'.nodes = g.nodes ∧ g'.edge = g.edge ∧ g'.isbi = g.isbi ∧
      ∀ x, x ∈ g'.edges ↔ x ∈ g.edges ∧ ¬g.Ends n out x := by
  have hdone : (g.view n out).fill ≤ i → ∀ x, x ∈ g.edges ↔ x ∈ g.edges ∧ ¬g.Ends n out x := by
    intro hi x
    have hno := listed_none h hn fun j hj => harr ▸ hpast j (lt_of_lt_of_le hj hi) hj
    exact ⟨fun hx => ⟨hx,hno x hx⟩,fun hx => hx.1⟩
  induction k generalizing g i with
  | zero => exact ⟨g,rfl,h,rfl,rfl,rfl,hdone hk⟩
  | succ k ih =>
    rw [delWalk]
    split
    · rename_i hi
      cases hent : g.mem arr i with
      | none =>
        have hpast' : ∀ j < i + 1, j < (g.view n out).fill → g.mem arr j = none := by
          intro j hj hjf
          rcases Nat.lt_succ_iff_lt_or_eq.1 hj with hj | rfl
          · exact hpast j hj hjf
          · exact hent
        refine ih h hn harr (by omega) hpast' fun hfi x => ?_
        have hno := listed_none h hn fun j hj => harr ▸ hpast' j (lt_of_lt_of_le hj hfi) hj
        exact ⟨fun hx => ⟨hx,hno x hx⟩,fun hx => hx.1⟩
      | some e =>
        -- the entry is a live edge with an end here
        obtain ⟨he,hend⟩ := (h.views.holds n hn out).live i hi e (harr ▸ hent)
        obtain ⟨g₁,hg₁,hok,hnodes,hedges,hedge,hisbi,hviews,hmem⟩ := grDelEdge_spec h he
        obtain ⟨ha₁,hf₁⟩ := hviews n hn out
        have hgone : e ∉ g₁.edges := by
          rw [hedges]
          exact h.edges.not_mem_erase
        have hpast' : ∀ j < i + 1, j < (g₁.view n out).fill → g₁.mem arr j = none := by
          intro j hj hjf
          rcases hmem arr j with h' | h'
          · rw [h']
            rcases Nat.lt_succ_iff_lt_or_eq.1 hj with hj | rfl
            · exact hpast j hj (lt_of_lt_of_le hjf hf₁)
            · rw [hent] at h'
              rw [harr,← ha₁] at h'
              exact absurd ((hok.views.holds n (hnodes ▸ hn) out).live j hjf e h').1 hgone
          · exact h'
        have hends : ∀ x, g₁.Ends n out x ↔ g.Ends n out x := by
          intro x
          simp only [GrGraph.Ends, hedge, hisbi]
        have hrest : ∀ x, x ∈ g₁.edges ↔ x ∈ g.edges ∧ x ≠ e := by
          intro x
          rw [hedges,h.edges.mem_erase_iff]
          exact And.comm
        obtain ⟨g',hg',hok',hn',hed',hb',he'⟩ := ih hok (hnodes ▸ hn) (harr.trans ha₁.symm) (by omega) hpast'
          fun hfi x => by
            have hno := listed_none hok (hnodes ▸ hn) fun j hj =>
              (harr.trans ha₁.symm) ▸ hpast' j (lt_of_lt_of_le hj hfi) hj
            exact ⟨fun hx => ⟨hx,hno x hx⟩,fun hx => hx.1⟩
        refine ⟨g',by dsimp only; rw [hg₁]; exact hg',hok',hn'.trans hnodes,hed'.trans hedge,hb'.trans hisbi,fun x => ?_⟩
        rw [he',hends,hrest]
        constructor
        · rintro ⟨⟨hx,-⟩,hne⟩
          exact ⟨hx,hne⟩
        · rintro ⟨hx,hne⟩
          refine ⟨⟨hx,?_⟩,hne⟩
          rintro rfl
          exact hne hend
    · rename_i hi
      exact ⟨g,rfl,h,rfl,rfl,rfl,hdone (not_lt.1 hi)⟩

theorem grDelNode_spec (h : Ok g) (hn : n ∈ g.nodes) : ∃ g', grDelNode g n = some g' ∧ Ok g' ∧
    ∀ x, x ∈ g'.edges ↔ x ∈ g.edges ∧ (g.edge x).n1 ≠ n ∧ (g.edge x).n2 ≠ n := by
  -- both loops, or the one that is enough
  have hwalks : ∃ g₂, ((delWalk (g.view n true).arr n true (g.view n true).fill 0 g).bind fun g₁ =>
      if g₁.isbi then some g₁ else delWalk (g₁.view n false).arr n false (g₁.view n false).fill 0 g₁) = some g₂ ∧
      Ok g₂ ∧ g₂.nodes = g.nodes ∧ g₂.edge = g.edge ∧ g₂.isbi = g.isbi ∧
      ∀ x, x ∈ g₂.edges ↔ x ∈ g.edges ∧ (g.edge x).n1 ≠ n ∧ (g.edge x).n2 ≠ n := by
    obtain ⟨g₁,hg₁,hok₁,hn₁,hed₁,hb₁,he₁⟩ := delWalk_spec (i := 0) h hn rfl (Nat.zero_add _).ge nofun
    rw [hg₁,Option.bind_some]
    by_cases hb : g.isbi = true
    · rw [if_pos (hb₁.trans hb)]
      refine ⟨g₁,rfl,hok₁,hn₁,hed₁,hb₁,fun x => ?_⟩
      rw [he₁]
      simp only [GrGraph.Ends, hb, if_true, not_or, ne_eq]
    · rw [if_neg (by rw [hb₁]; exact hb)]
      obtain ⟨g₂,hg₂,hok₂,hn₂,hed₂,hb₂,he₂⟩ := delWalk_spec (i := 0) hok₁ (hn₁ ▸ hn) rfl (Nat.zero_add _).ge nofun
      refine ⟨g₂,hg₂,hok₂,hn₂.trans hn₁,hed₂.trans hed₁,hb₂.trans hb₁,fun x => ?_⟩
      rw [he₂,he₁]
      simp only [GrGraph.Ends, hb, hb₁, hed₁, if_true, Bool.false_eq_true, if_false, ne_eq, and_assoc]
  obtain ⟨g₂,hg₂,hok,hnodes,hedge,hisbi,hedges⟩ := hwalks
  refine ⟨{ g₂ with nodes := g₂.nodes.erase n },?_,?_,hedges⟩
  · rw [grDelNode]
    simp only [Option.bind_eq_bind]
    obtain ⟨g₁,hg₁,hg₂⟩ := Option.bind_eq_some_iff.1 hg₂
    rw [hg₁,Option.bind_some]
    split at hg₂
    · rename_i hb
      rw [if_pos hb,hg₂]
      rfl
    · rename_i hb
      rw [if_neg hb,hg₂]
      rfl
  · have hsub : ∀ {m}, m ∈ g₂.nodes.erase n → m ∈ g₂.nodes := fun hm => List.mem_of_mem_erase hm
    refine ⟨hok.nodes.erase n,hok.edges,fun e he => ?_,⟨fun m hm t => hok.views.holds m (hsub hm) t,
      fun m hm k hk s t => hok.views.own m (hsub hm) k (hsub hk) s t,fun hb m hm => hok.views.shared hb m (hsub hm)⟩⟩
    obtain ⟨h1,h2⟩ := hok.ends e he
    obtain ⟨-,h3,h4⟩ := (hedges e).1 he
    rw [← hedge] at h3 h4
    exact ⟨(List.mem_erase_of_ne h3).2 h1,(List.mem_erase_of_ne h4).2 h2⟩

/-! ## Runs -/

inductive Op where
  | addNode (n o i : ℕ)
  | addEdge (src dst edge new1 new2 : ℕ)
  | delEdge (edge : ℕ)
  | delNode (n : ℕ)

def step (g : GrGraph) : Op → Option GrGraph
  | .addNode n o i => some (grAddNode g n o i)
  | .addEdge src dst edge new1 new2 => grAddEdge g src dst edge new1 new2
  | .delEdge edge => grDelEdge g edge
  | .delNode n => grDelNode g n

def grRun (g : GrGraph) (ops : List Op) : Option GrGraph := ops.foldlM step g

/-- The client passes live nodes and edges, and the allocator gives blocks that are not in use. -/
def GrGraph.Allows (g : GrGraph) : Op → Prop
  | .addNode n o i => n ∉ g.nodes ∧ (∀ m ∈ g.nodes, ∀ t, (g.view m t).arr ≠ o) ∧ (∀ m ∈ g.nodes, ∀ t, (g.view m t).arr ≠ i) ∧
      o ≠ i
  | .addEdge src dst edge new1 new2 => src ∈ g.nodes ∧ dst ∈ g.nodes ∧ edge ∉ g.edges ∧ Usable g src true new1 ∧
      (src ≠ dst ∨ ¬g.isbi → ∀ g₁, (withEdge g src dst edge).addHelp edge src true new1 = some g₁ →
        Usable g₁ dst false new2)
  | .delEdge edge => edge ∈ g.edges
  | .delNode n => n ∈ g.nodes

/-- No edge goes to an array of 2³¹ entries that are all in use. -/
def GrGraph.Room (g : GrGraph) : Op → Prop
  | .addEdge src dst _ _ _ => ¬Full g.mem (g.view src true) ∧ ¬Full g.mem (g.view dst false)
  | _ => True

/-- Along the run every operation meets the condition. -/
def Along (P : GrGraph → Op → Prop) : GrGraph → List Op → Prop
  | _, [] => True
  | g, op :: ops => P g op ∧ ∀ g', step g op = some g' → Along P g' ops

theorem step_ok (h : Ok g) {op : Op} (ha : g.Allows op) (hr : g.Room op) : ∃ g', step g op = some g' ∧ Ok g' := by
  cases op with
  | addNode n o i =>
    obtain ⟨h1,h2,h3,h4⟩ := ha
    exact ⟨_,rfl,grAddNode_spec h h1 h2 h3 h4⟩
  | addEdge src dst edge new1 new2 =>
    obtain ⟨h1,h2,h3,h4,h5⟩ := ha
    obtain ⟨g',hg',hok,-⟩ := grAddEdge_spec h h1 h2 h3 hr.1 hr.2 h4 h5
    exact ⟨g',hg',hok⟩
  | delEdge edge =>
    obtain ⟨g',hg',hd⟩ := grDelEdge_spec h ha
    exact ⟨g',hg',hd.ok⟩
  | delNode n =>
    obtain ⟨g',hg',hok,-⟩ := grDelNode_spec h ha
    exact ⟨g',hg',hok⟩

theorem grRun_ok (h : Ok g) {ops : List Op} (ha : Along GrGraph.Allows g ops) (hr : Along GrGraph.Room g ops) :
    ∃ g', grRun g ops = some g' ∧ Ok g' := by
  induction ops generalizing g with
  | nil => exact ⟨g,rfl,h⟩
  | cons op ops ih =>
    obtain ⟨g₁,hg₁,hok⟩ := step_ok h ha.1 hr.1
    obtain ⟨g',hg',hok'⟩ := ih hok (ha.2 g₁ hg₁) (hr.2 g₁ hg₁)
    refine ⟨g',?_,hok'⟩
    rw [grRun,List.foldlM_cons,hg₁]
    exact hg'

theorem Along.split {P : GrGraph → Op → Prop} {ops rest : List Op} (h : Along P g (ops ++ rest)) :
    Along P g ops ∧ ∀ g', grRun g ops = some g' → Along P g' rest := by
  induction ops generalizing g with
  | nil => exact ⟨trivial,fun g' hg' => by cases hg'; exact h⟩
  | cons op ops ih =>
    refine ⟨⟨h.1,fun g' hg' => (ih (h.2 g' hg')).1⟩,fun g' hg' => ?_⟩
    rw [grRun,List.foldlM_cons] at hg'
    obtain ⟨g₁,hg₁,hg'⟩ := Option.bind_eq_some_iff.1 hg'
    exact (ih (h.2 g₁ hg₁)).2 g' hg'

/-- **Every run of the graph operations keeps the graph consistent**, as long as no edge is
added to an array of 2³¹ entries that are all in use; no assertion fails, and the deletion of
a node takes exactly the edges that end there. -/
theorem grRun_spec {isbi : Bool} {mem : Mem} {ops : List Op} {op : Op}
    (ha : Along GrGraph.Allows (grNew isbi mem) (ops ++ [op])) (hr : Along GrGraph.Room (grNew isbi mem) (ops ++ [op])) :
    ∃ g g', grRun (grNew isbi mem) ops = some g ∧ step g op = some g' ∧ Ok g ∧ Ok g' ∧
      ∀ n, op = .delNode n → ∀ e, e ∈ g'.edges ↔ e ∈ g.edges ∧ (g.edge e).n1 ≠ n ∧ (g.edge e).n2 ≠ n := by
  obtain ⟨g,hg,hok⟩ := grRun_ok (grNew_ok isbi mem) ha.split.1 hr.split.1
  have halast := (ha.split.2 g hg).1
  obtain ⟨g',hg',hok'⟩ := step_ok hok halast (hr.split.2 g hg).1
  refine ⟨g,g',hg,hg',hok,hok',?_⟩
  rintro n rfl
  obtain ⟨g₂,hg₂,-,he⟩ := grDelNode_spec hok halast
  rw [show step g (.delNode n) = grDelNode g n from rfl,hg₂] at hg'
  cases hg'
  exact he

/-! ## A node with too many edges -/

/-- Loops at the node 0 of a bidirectional graph, whose array never moves. -/
def loops (k : ℕ) : List Op := (List.range k).map fun e => .addEdge 0 0 e 0 0

def loopRun (k : ℕ) : List Op := .addNode 0 0 1 :: loops k

/-- The graph of a node and `k` loops: the array is dense. -/
structure Loops (g : GrGraph) (k : ℕ) : Prop where
  ok : Ok g
  isbi : g.isbi = true
  nodes : g.nodes = [0]
  edges : ∀ e ∈ g.edges, e < k
  arr : (g.view 0 true).arr = 0
  fill : (g.view 0 true).fill = k
  dense : firstHole g.mem (g.view 0 true) = none

theorem loops_start : ∃ g, step (grNew true fun _ _ => none) (.addNode 0 0 1) = some g ∧ Loops g 0 :=
  ⟨_,rfl,grAddNode_spec (grNew_ok true _) nofun nofun nofun (by decide),rfl,rfl,nofun,rfl,rfl,rfl⟩

theorem Loops.allows {k : ℕ} (h : Loops g k) : g.Allows (.addEdge 0 0 k 0 0) := by
  have hn : (0 : ℕ) ∈ g.nodes := by rw [h.nodes]; exact List.mem_cons_self
  refine ⟨hn,hn,fun he => absurd (h.edges k he) (lt_irrefl k),Or.inl h.arr.symm,fun h' => ?_⟩
  rcases h' with h' | h'
  · exact absurd rfl h'
  · exact absurd h.isbi h'

theorem Loops.addEdge {k : ℕ} (h : Loops g k) : grAddEdge g 0 0 k 0 0 =
    (addEdgeHelp g.mem k (g.view 0 true) (some (g.view 0 false)) 0).map fun r =>
      { (withEdge g 0 0 k).setViews 0 true r.2.1 (r.2.2.getD (g.view 0 false)) with mem := r.1 } := by
  rw [grAddEdge]
  change ((withEdge g 0 0 k).addHelp k 0 true 0).bind _ = _
  rw [GrGraph.addHelp]
  change ((addEdgeHelp g.mem k (g.view 0 true) (if g.isbi then some (g.view 0 false) else none) 0).bind _).bind _ = _
  rw [if_pos h.isbi]
  cases addEdgeHelp g.mem k (g.view 0 true) (some (g.view 0 false)) 0 with
  | none => rfl
  | some r =>
    change (if (0 : ℕ) ≠ 0 ∨ ¬g.isbi then _ else _) = _
    rw [if_neg (by simp [h.isbi])]
    rfl

theorem Loops.room {k : ℕ} (h : Loops g k) (hk : k < 2 ^ 31) (t : Bool) : ¬Full g.mem (g.view 0 t) := by
  rintro ⟨hf,-⟩
  rw [h.ok.views.shared h.isbi 0 (h.nodes ▸ List.mem_cons_self) t true,h.fill] at hf
  omega

theorem Loops.step {k : ℕ} (h : Loops g k) (hk : k < 2 ^ 31) :
    ∃ g', step g (.addEdge 0 0 k 0 0) = some g' ∧ Loops g' (k + 1) := by
  obtain ⟨hs,hd,he,h1,h2⟩ := h.allows
  have hfull := h.room hk
  obtain ⟨g',hg',hok,hn,hed,-,hb⟩ := grAddEdge_spec h.ok hs hd he (hfull true) (hfull false) h1 h2
  obtain ⟨r,hr,ha⟩ := addEdgeHelp_spec (h.ok.views.holds 0 hs true) (hfull true) (fun hL => he hL.1)
    (some (g.view 0 false)) 0
  obtain ⟨hfill,hdense⟩ := addEdgeHelp_dense (h.ok.views.holds 0 hs true) h.dense (hfull true) hr
  have hview : g'.view 0 true = r.2.1 ∧ g'.mem = r.1 := by
    rw [h.addEdge,hr] at hg'
    cases hg'
    exact ⟨view_setViews_self,rfl⟩
  refine ⟨g',hg',hok,hb.trans h.isbi,hn.trans h.nodes,fun e hmem => ?_,?_,?_,?_⟩
  · rw [hed] at hmem
    rcases List.mem_cons.1 hmem with rfl | hmem
    · exact Nat.lt_succ_self _
    · exact Nat.lt_succ_of_lt (h.edges e hmem)
  · rw [hview.1]
    rcases ha.arr with harr | harr
    · exact harr.trans h.arr
    · exact harr
  · rw [hview.1,hfill,h.fill]
  · rw [hview.1,hview.2]
    exact hdense

theorem loopRun_succ (k : ℕ) : loopRun (k + 1) = loopRun k ++ [.addEdge 0 0 k 0 0] := by
  rw [loopRun,loopRun,loops,loops,List.range_succ,List.map_append]
  rfl

theorem grRun_concat {ops : List Op} {op : Op} : grRun g (ops ++ [op]) = (grRun g ops).bind fun g => step g op := by
  rw [grRun,List.foldlM_append]
  simp only [List.foldlM_cons, List.foldlM_nil, Option.bind_eq_bind, Option.pure_def, Option.bind_fun_some]
  rfl

theorem Along.concat {P : GrGraph → Op → Prop} {ops : List Op} {op : Op} (h : Along P g ops)
    (hop : ∀ g', grRun g ops = some g' → P g' op) : Along P g (ops ++ [op]) := by
  induction ops generalizing g with
  | nil => exact ⟨hop g rfl,fun _ _ => trivial⟩
  | cons x ops ih =>
    refine ⟨h.1,fun g₁ hg₁ => ih (h.2 g₁ hg₁) fun g' hg' => hop g' ?_⟩
    rw [grRun,List.foldlM_cons,hg₁]
    exact hg'

theorem loopRun_spec {k : ℕ} (hk : k ≤ 2 ^ 31) :
    Along GrGraph.Allows (grNew true fun _ _ => none) (loopRun k) ∧
      ∃ g, grRun (grNew true fun _ _ => none) (loopRun k) = some g ∧ Loops g k := by
  induction k with
  | zero =>
    obtain ⟨g,hg,hl⟩ := loops_start
    exact ⟨⟨⟨nofun,nofun,nofun,by decide⟩,fun _ _ => trivial⟩,g,hg,hl⟩
  | succ k ih =>
    obtain ⟨ha,g,hg,hl⟩ := ih (by omega)
    obtain ⟨g',hg',hl'⟩ := hl.step (by omega)
    rw [loopRun_succ]
    refine ⟨ha.concat fun g₁ hg₁ => ?_,g',?_,hl'⟩
    · rw [hg] at hg₁
      cases hg₁
      exact hl.allows
    · rw [grRun_concat,hg]
      exact hg'

/-- After 2³¹ loops at one node the next one finds no room: doubling the length wraps to 0,
and the entry would be stored behind the array. -/
theorem grRun_overflow : Along GrGraph.Allows (grNew true fun _ _ => none) (loopRun (2 ^ 31 + 1)) ∧
    grRun (grNew true fun _ _ => none) (loopRun (2 ^ 31 + 1)) = none := by
  obtain ⟨ha,g,hg,hl⟩ := loopRun_spec (le_refl (2 ^ 31))
  rw [loopRun_succ]
  refine ⟨ha.concat fun g₁ hg₁ => ?_,?_⟩
  · rw [hg] at hg₁
    cases hg₁
    exact hl.allows
  · rw [grRun_concat,hg]
    change grAddEdge g 0 0 (2 ^ 31) 0 0 = none
    have hn : (0 : ℕ) ∈ g.nodes := by rw [hl.nodes]; exact List.mem_cons_self
    rw [hl.addEdge,addEdgeHelp_full (hl.ok.views.holds 0 hn true) hl.dense hl.fill]
    rfl

theorem loopRun_room {k : ℕ} (hk : k ≤ 2 ^ 31) : Along GrGraph.Room (grNew true fun _ _ => none) (loopRun k) := by
  induction k with
  | zero => exact ⟨trivial,fun _ _ => trivial⟩
  | succ k ih =>
    rw [loopRun_succ]
    refine (ih (by omega)).concat fun g₁ hg₁ => ?_
    obtain ⟨-,g,hg,hl⟩ := loopRun_spec (k := k) (by omega)
    rw [hg] at hg₁
    cases hg₁
    exact ⟨hl.room (by omega) true,hl.room (by omega) false⟩

theorem grRun_spec_sample : ∃ g g', grRun (grNew true fun _ _ => none) (loopRun 3) = some g ∧
    step g (.delNode 0) = some g' ∧ Ok g ∧ Ok g' ∧
      ∀ n, Op.delNode 0 = .delNode n → ∀ e, e ∈ g'.edges ↔ e ∈ g.edges ∧ (g.edge e).n1 ≠ n ∧ (g.edge e).n2 ≠ n := by
  obtain ⟨ha,g,hg,hl⟩ := loopRun_spec (k := 3) (by decide)
  refine grRun_spec (ha.concat fun g₁ hg₁ => ?_) ((loopRun_room (by decide)).concat fun _ _ => trivial)
  rw [hg] at hg₁
  cases hg₁
  change 0 ∈ g.nodes
  rw [hl.nodes]
  exact List.mem_cons_self

end Catlib.Graph
