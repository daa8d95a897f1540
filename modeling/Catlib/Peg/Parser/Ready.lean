import Catlib.Peg.Parser.Release
import Mathlib.Data.Finset.Card

/-! # The nodes while the parser goes on

The nodes are the first slots of the array. A link leads to a node without kids, to one that is nested
deeper, or to a later one, so the links have ranks. An identifier is counted as often as the links and
the parser itself refer to it.
-/
namespace Catlib.Peg.Parser

open Traced (Run)

/-- The order of nodes that have kids, by depth and then by index. -/
def Prior (dep : ℕ → ℕ) (i j : ℕ) : Prop := dep i < dep j ∨ dep i = dep j ∧ i < j

instance (dep : ℕ → ℕ) (i j : ℕ) : Decidable (Prior dep i j) := inferInstanceAs (Decidable (_ ∨ _))

/-- What a node can have as its kid. -/
def Under (dep : ℕ → ℕ) (ns : List PegNode) (i j : ℕ) : Prop := ∃ q, ns[j]? = some q ∧ q.type ≠ .none ∧ (q.kids = [] ∨ Prior dep i j)

/-- The string of a node is as its type asks for. -/
structure PegNode.Filled (pn : PegNode) : Prop where
  spare : pn.type = .none → pn.str.data.blocks = []
  set : pn.owns = true → pn.str.data ≠ .unset
  named : pn.type = .identifier → ∃ id b, pn.str = ⟨.block id b,some b.length⟩

/-- The array of a parser that holds references to the nodes of a list. -/
structure Graph (dep : ℕ → ℕ) (held : List ℕ) (m : Table) : Prop where
  fits : m.num ≤ m.nodes.length
  small : m.max ≤ 2 ^ 31
  dense : ∀ (i : ℕ) (pn : PegNode), m.nodes[i]? = some pn → (i < m.num ↔ pn.type ≠ .none)
  filled : ∀ (i : ℕ) (pn : PegNode), m.nodes[i]? = some pn → pn.Filled
  above : ∀ (i : ℕ) (pn : PegNode), m.nodes[i]? = some pn → ∀ j ∈ pn.kids, 0 ≤ j → Under dep m.nodes i j.toNat
  counts : ∀ (k : ℕ) (pn : PegNode), m.nodes[k]? = some pn → pn.type = .identifier →
    pn.status = links m.nodes k + held.count k ∧ 1 ≤ pn.status ∧ pn.status < 65536
  held : ∀ k ∈ held, k < m.num

variable {dep : ℕ → ℕ} {held : List ℕ} {m : Table} {i j k : ℕ} {p q : PegNode} {ns : List PegNode}

theorem Prior.trans (h : Prior dep i j) (h' : Prior dep j k) : Prior dep i k := by
  rw [Prior] at h h' ⊢
  omega

theorem Prior.irrefl : ¬Prior dep i i := by
  rw [Prior]
  omega

/-! ## Ranks -/

/-- A rank that goes down with the links: how many nodes are nested deeper or later. -/
def rank (dep : ℕ → ℕ) (ns : List PegNode) (i : ℕ) : ℕ :=
  match ns[i]? with
  | some pn => if pn.kids = [] then 0 else 1 + ((Finset.range ns.length).filter (Prior dep i)).card
  | none => 0

theorem rank_le (dep : ℕ → ℕ) (ns : List PegNode) (i : ℕ) : rank dep ns i ≤ 1 + ns.length := by
  rw [rank]
  split
  · split
    · exact Nat.zero_le _
    · exact Nat.add_le_add_left ((Finset.card_filter_le _ _).trans_eq (Finset.card_range _)) 1
  · exact Nat.zero_le _

theorem Graph.ranked (h : Graph dep held m) : Ranked (rank dep m.nodes) m.nodes := by
  intro i p hi j hj
  have hi' : rank dep m.nodes i = 1 + ((Finset.range m.nodes.length).filter (Prior dep i)).card := by
    rw [rank,hi]
    exact if_neg (List.ne_nil_of_mem hj)
  rw [hi']
  refine ⟨by omega,fun h0 => ?_⟩
  obtain ⟨q,hq,-,hor⟩ := h.above i p hi j hj h0
  rw [rank,hq]
  dsimp only
  split
  · omega
  rename_i hkids
  have hprior := hor.resolve_left hkids
  refine Nat.add_lt_add_left (Finset.card_lt_card ⟨fun k hk => ?_,fun hsub => ?_⟩) 1
  · rw [Finset.mem_filter] at hk ⊢
    exact ⟨hk.1,hprior.trans hk.2⟩
  · have hmem : j.toNat ∈ (Finset.range m.nodes.length).filter (Prior dep i) :=
      Finset.mem_filter.2 ⟨Finset.mem_range.2 (List.getElem?_eq_some_iff.1 hq).1,hprior⟩
    exact Prior.irrefl (Finset.mem_filter.1 (hsub hmem)).2

/-! ## Changes of the array -/

theorem PegNode.kids_eq_nil (h : q.type = p.type) : q.kids = [] ↔ p.kids = [] := by
  rw [PegNode.kids,PegNode.kids,h]
  cases p.type <;> simp

theorem Under.set {a b : ℕ} (h : Under dep ns a b) (hi : ns[i]? = some p) (ht : q.type = p.type) : Under dep (ns.set i q) a b := by
  obtain ⟨r,hr,hn,hor⟩ := h
  rcases eq_or_ne i b with rfl | hne
  · rw [hi] at hr
    cases hr
    refine ⟨q,List.getElem?_set_self (List.getElem?_eq_some_iff.1 hi).1,ht ▸ hn,?_⟩
    rw [PegNode.kids_eq_nil ht]
    exact hor
  · exact ⟨r,(List.getElem?_set_ne hne).trans hr,hn,hor⟩

theorem Graph.set (h : Graph dep held m) (hi : m.nodes[i]? = some p) (ht : q.type = p.type) (hq : q.Filled)
    (habove : ∀ j ∈ q.kids, 0 ≤ j → Under dep m.nodes i j.toNat) {l : List ℕ} (hheld : ∀ k ∈ l, k < m.num)
    (hcount : ∀ k, k ≠ i → q.kids.count (k : ℤ) + l.count k = p.kids.count (k : ℤ) + held.count k)
    (hself : p.type = .identifier → q.status + held.count i = p.status + l.count i ∧ 1 ≤ q.status ∧ q.status < 65536) :
    Graph dep l { m with nodes := m.nodes.set i q } := by
  refine ⟨h.fits.trans_eq List.length_set.symm,h.small,fun j r hj => ?_,fun j r hj => ?_,fun j r hj a ha h0 => ?_,fun k r hk hr => ?_,hheld⟩
  · rcases set_cases hj with ⟨rfl,rfl⟩ | ⟨-,hj⟩
    · rw [ht]
      exact h.dense j p hi
    · exact h.dense j r hj
  · rcases set_cases hj with ⟨-,rfl⟩ | ⟨-,hj⟩
    · exact hq
    · exact h.filled j r hj
  · rcases set_cases hj with ⟨rfl,rfl⟩ | ⟨-,hj⟩
    · exact (habove a ha h0).set hi ht
    · exact (h.above j r hj a ha h0).set hi ht
  · have hl := links_set hi q k
    show r.status = links (m.nodes.set i q) k + l.count k ∧ _
    rcases set_cases hk with ⟨rfl,rfl⟩ | ⟨hne,hk⟩
    · rw [ht] at hr
      obtain ⟨h1,h2,h3⟩ := h.counts k p hi hr
      obtain ⟨g1,g2,g3⟩ := hself hr
      rw [PegNode.kids_identifier hr,PegNode.kids_identifier (ht.trans hr)] at hl
      exact ⟨by omega,g2,g3⟩
    · obtain ⟨h1,h2,h3⟩ := h.counts k r hk hr
      have := hcount k hne
      exact ⟨by omega,h2,h3⟩

theorem Graph.links_eq_zero (h : Graph dep held m) (hk : m.num ≤ k) : links m.nodes k = 0 := by
  refine total_eq_zero fun pn hpn => ?_
  obtain ⟨i,hi⟩ := List.getElem?_of_mem hpn
  refine List.count_eq_zero.2 fun hmem => ?_
  obtain ⟨q,hq,hn,-⟩ := h.above i pn hi k hmem (Int.natCast_nonneg k)
  exact absurd ((h.dense k q hq).2 hn) (not_lt.2 hk)

theorem Graph.not_held (h : Graph dep held m) (hk : m.num ≤ k) : held.count k = 0 :=
  List.count_eq_zero.2 fun hmem => absurd (h.held k hmem) (not_lt.2 hk)

theorem Graph.empty (h : Graph dep held m) (hi : m.nodes[i]? = some p) (hle : m.num ≤ i) : p.type = .none := by
  by_contra hne
  exact absurd ((h.dense i p hi).2 hne) (not_lt.2 hle)

theorem Graph.add (h : Graph dep held m) (hi : m.nodes[m.num]? = some p) (d : ℕ) (hn : q.type ≠ .none) (hq : q.Filled)
    (hkids : ∀ j ∈ q.kids, j < 0) {l : List ℕ} (hcount : ∀ k, k ≠ m.num → l.count k = held.count k)
    (hself : q.type = .identifier → q.status = l.count m.num ∧ 1 ≤ q.status ∧ q.status < 65536) :
    Graph (Function.update dep m.num d) l { m with nodes := m.nodes.set m.num q, num := m.num + 1 } := by
  have hp := h.empty hi le_rfl
  have hdep : ∀ k, k < m.num → Function.update dep m.num d k = dep k := fun k hk => Function.update_of_ne hk.ne d dep
  have hlinks : ∀ k, links (m.nodes.set m.num q) k = links m.nodes k := fun k => by
    have hl := links_set hi q k
    rw [PegNode.kids_none hp,List.count_nil,List.count_eq_zero.2 fun hmem => absurd (hkids _ hmem) (by omega)] at hl
    exact hl
  refine ⟨?_,h.small,fun j r hj => ?_,fun j r hj => ?_,fun j r hj a ha h0 => ?_,fun k r hk hr => ?_,fun k hk => ?_⟩
  · show m.num + 1 ≤ (m.nodes.set m.num q).length
    rw [List.length_set]
    exact (List.getElem?_eq_some_iff.1 hi).1
  · show j < m.num + 1 ↔ _
    rcases set_cases hj with ⟨rfl,rfl⟩ | ⟨hne,hj⟩
    · exact iff_of_true (Nat.lt_succ_self _) hn
    · rw [← h.dense j r hj]
      omega
  · rcases set_cases hj with ⟨-,rfl⟩ | ⟨-,hj⟩
    · exact hq
    · exact h.filled j r hj
  · rcases set_cases hj with ⟨-,rfl⟩ | ⟨-,hj⟩
    · exact absurd (hkids a ha) (not_lt.2 h0)
    · obtain ⟨t,ht,htn,hor⟩ := h.above j r hj a ha h0
      have hlt := (h.dense _ t ht).2 htn
      have hlt' : j < m.num := (h.dense j r hj).2 fun h0 => by
        rw [PegNode.kids_none h0] at ha
        cases ha
      refine ⟨t,(List.getElem?_set_ne hlt.ne').trans ht,htn,?_⟩
      rwa [Prior,hdep _ hlt,hdep _ hlt']
  · show r.status = links (m.nodes.set m.num q) k + l.count k ∧ _
    rw [hlinks]
    rcases set_cases hk with ⟨rfl,rfl⟩ | ⟨hne,hk⟩
    · obtain ⟨h1,h2,h3⟩ := hself hr
      exact ⟨by rw [h.links_eq_zero le_rfl,h1,Nat.zero_add],h2,h3⟩
    · rw [hcount k hne]
      exact h.counts k r hk hr
  · show k < m.num + 1
    rcases eq_or_ne k m.num with rfl | hne
    · exact Nat.lt_succ_self _
    · have hc := hcount k hne
      have hpos := List.count_pos_iff.2 hk
      have := h.held k (List.count_pos_iff.1 (by omega))
      omega

theorem Graph.remove {l : List ℕ} (h : Graph dep (i :: l) m) (hi : m.nodes[i]? = some p) (hp : p.type = .identifier) (hlast : i + 1 = m.num)
    (hone : p.status = 1) (hn : q.type = .none) (hq : q.Filled) : Graph dep l { m with nodes := m.nodes.set i q, num := i } := by
  obtain ⟨hst,-,-⟩ := h.counts i p hi hp
  rw [List.count_cons_self,hone] at hst
  have hlinks : ∀ k, links (m.nodes.set i q) k = links m.nodes k := fun k => by
    have hl := links_set hi q k
    rw [PegNode.kids_none hn,PegNode.kids_identifier hp] at hl
    exact hl
  refine ⟨?_,h.small,fun j r hj => ?_,fun j r hj => ?_,fun j r hj a ha h0 => ?_,fun k r hk hr => ?_,fun k hk => ?_⟩
  · show i ≤ (m.nodes.set i q).length
    rw [List.length_set]
    exact (List.getElem?_eq_some_iff.1 hi).1.le
  · show j < i ↔ _
    rcases set_cases hj with ⟨rfl,rfl⟩ | ⟨hne,hj⟩
    · exact iff_of_false (lt_irrefl _) (not_not.2 hn)
    · rw [← h.dense j r hj]
      omega
  · rcases set_cases hj with ⟨-,rfl⟩ | ⟨-,hj⟩
    · exact hq
    · exact h.filled j r hj
  · rcases set_cases hj with ⟨-,rfl⟩ | ⟨-,hj⟩
    · rw [PegNode.kids_none hn] at ha
      cases ha
    · obtain ⟨t,ht,htn,hor⟩ := h.above j r hj a ha h0
      refine ⟨t,(List.getElem?_set_ne fun he => ?_).trans ht,htn,hor⟩
      -- a link to the identifier would be counted
      have hle : r.kids.count (i : ℤ) ≤ links m.nodes i := le_total_of_mem (f := fun pn : PegNode => pn.kids.count (i : ℤ)) hj
      have hmem : (i : ℤ) ∈ r.kids := by rwa [he,Int.toNat_of_nonneg h0]
      have := List.count_pos_iff.2 hmem
      omega
  · show r.status = links (m.nodes.set i q) k + l.count k ∧ _
    rw [hlinks]
    rcases set_cases hk with ⟨-,rfl⟩ | ⟨hne,hk⟩
    · rw [hn] at hr
      cases hr
    · obtain ⟨h1,h2⟩ := h.counts k r hk hr
      rw [List.count_cons_of_ne (Ne.symm hne)] at h1
      exact ⟨h1,h2⟩
  · show k < i
    have hlt := h.held k (List.mem_cons_of_mem i hk)
    have hne : k ≠ i := fun he => by
      subst he
      have := List.count_pos_iff.2 hk
      omega
    omega

theorem Graph.grow (h : Graph dep held m) (n : ℕ) {o : Option ℕ} {b : ℕ} (hb : b ≤ 2 ^ 31) :
    Graph dep held { m with nodes := m.nodes ++ List.replicate n .fresh, array := o, max := b } := by
  have hcases : ∀ {i : ℕ} {pn : PegNode}, (m.nodes ++ List.replicate n .fresh)[i]? = some pn →
      m.nodes[i]? = some pn ∨ m.num ≤ i ∧ pn = .fresh := by
    intro i pn hi
    rcases lt_or_ge i m.nodes.length with hlt | hge
    · exact Or.inl ((List.getElem?_append_left hlt).symm.trans hi)
    · rw [List.getElem?_append_right hge] at hi
      exact Or.inr ⟨h.fits.trans hge,List.eq_of_mem_replicate (List.mem_of_getElem? hi)⟩
  have hlinks : ∀ k, links (m.nodes ++ List.replicate n .fresh) k = links m.nodes k := fun k => by
    rw [links,total_append,links]
    refine Nat.add_eq_left.2 (total_eq_zero fun pn hpn => ?_)
    rw [List.eq_of_mem_replicate hpn]
    rfl
  refine ⟨?_,hb,fun i pn hi => ?_,fun i pn hi => ?_,fun i pn hi j hj h0 => ?_,fun k pn hk hp => ?_,h.held⟩
  · show m.num ≤ (m.nodes ++ List.replicate n PegNode.fresh).length
    rw [List.length_append]
    exact h.fits.trans (Nat.le_add_right _ _)
  · rcases hcases hi with hi | ⟨hge,rfl⟩
    · exact h.dense i pn hi
    · exact iff_of_false (not_lt.2 hge) fun hne => hne rfl
  · rcases hcases hi with hi | ⟨hge,rfl⟩
    · exact h.filled i pn hi
    · exact ⟨fun _ => rfl,nofun,nofun⟩
  · rcases hcases hi with hi | ⟨hge,rfl⟩
    · obtain ⟨q,hq,hqn,hor⟩ := h.above i pn hi j hj h0
      exact ⟨q,(List.getElem?_append_left (List.getElem?_eq_some_iff.1 hq).1).trans hq,hqn,hor⟩
    · cases hj
  · rcases hcases hk with hk | ⟨-,rfl⟩
    · show pn.status = links (m.nodes ++ List.replicate n PegNode.fresh) k + held.count k ∧ _
      rw [hlinks]
      exact h.counts k pn hk hp
    · cases hp

/-! ## The parser between its steps -/

/-- The array and the memory are in order, and the references to the nodes of a list are the parser's own. -/
structure Ready (dep : ℕ → ℕ) (held : List ℕ) (m : Store) : Prop where
  kept : Kept [] m
  graph : Graph dep held m.toTable

/-- What is left at an error, with or without the demand that the memory is in order. -/
def Loose (full : Prop) (top : ℕ) (σ : ℕ → ℤ) (m : Store) : Prop :=
  ∃ rk, Ranked rk m.nodes ∧ (∀ i, rk i < top) ∧ (full → Balanced σ m)

theorem Loose.mono {full : Prop} {top : ℕ} {σ τ : ℕ → ℤ} {m : Store} (h : Loose full top σ m) (hle : ∀ k, σ k ≤ τ k) :
    Loose full top τ m := by
  obtain ⟨rk,hr,hlt,hb⟩ := h
  exact ⟨rk,hr,hlt,fun hf => (hb hf).mono fun k _ _ _ => hle k⟩

theorem Ready.loose {full : Prop} {top : ℕ} {m : Store} (h : Ready dep held m) (htop : 2 ^ 31 + 1 < top) :
    Loose full top (fun k => held.count k) m := by
  refine ⟨_,h.graph.ranked,fun i => ?_,fun _ => ⟨h.kept,fun i pn hi => (h.graph.filled i pn hi).set,fun k pn hk hp _ => ?_⟩⟩
  · have hle := rank_le dep m.nodes i
    have hsmall := h.graph.small
    rw [← h.kept.room] at hsmall
    omega
  · obtain ⟨h1,h2,h3⟩ := h.graph.counts k pn hk hp
    exact ⟨h2,h3,by rw [h1]; omega⟩

/-- What a step leaves of the nodes that were there: all but the counts and the definitions of identifiers. -/
structure Keeps (dep dep' : ℕ → ℕ) (m m' : Table) : Prop where
  num : m.num ≤ m'.num
  dep : ∀ i < m.num, dep' i = dep i
  node : ∀ (i : ℕ) (pn : PegNode), i < m.num → m.nodes[i]? = some pn →
    ∃ pn', m'.nodes[i]? = some pn' ∧ pn'.type = pn.type ∧ (pn.type ≠ .identifier → pn' = pn)

theorem Keeps.same : Keeps dep dep m m := ⟨le_refl _,fun _ _ => Eq.refl _,fun _ pn _ h => ⟨pn,h,Eq.refl _,fun _ => Eq.refl _⟩⟩

theorem Keeps.trans {dep' dep'' : ℕ → ℕ} {m' m'' : Table} (h : Keeps dep dep' m m') (h' : Keeps dep' dep'' m' m'') :
    Keeps dep dep'' m m'' := by
  refine ⟨h.num.trans h'.num,fun i hi => (h'.dep i (hi.trans_le h.num)).trans (h.dep i hi),fun i pn hlt hi => ?_⟩
  obtain ⟨pn1,hi1,ht1,he1⟩ := h.node i pn hlt hi
  obtain ⟨pn2,hi2,ht2,he2⟩ := h'.node i pn1 (hlt.trans_le h.num) hi1
  exact ⟨pn2,hi2,ht2.trans ht1,fun hne => (he2 (ht1 ▸ hne)).trans (he1 hne)⟩

end Catlib.Peg.Parser
