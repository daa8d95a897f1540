import Catlib.Peg.Parser.Reads

/-! # What peg_node_free takes away

The nodes and the memory, apart from the text. The nodes that are freed with a node are its kids, and a
rank that goes down from a node to its kids bounds the recursion; what is freed is empty, and what is
not keeps its kids.
-/
namespace Catlib.Peg.Parser

open Traced (Run)

/-- The array of nodes. -/
structure Table where
  nodes : List PegNode
  array : Option ℕ
  max : ℕ
  num : ℕ
  dynamic : Bool

/-- The array with the blocks of memory. -/
structure Store extends Table where
  live : List ℕ
  tried : ℕ

def PegParser.store (s : PegParser) : Store :=
  ⟨⟨s.peg.nodes,s.peg.array,s.peg.maxNodes,s.peg.numNodes,s.peg.dynamic⟩,s.live,s.tried⟩

def Store.set (m : Store) (i : ℕ) (pn : PegNode) : Store := { m with nodes := m.nodes.set i pn }

/-- The links that `peg_node_free` follows. -/
def PegNode.kids (pn : PegNode) : List ℤ :=
  match pn.type with
  | .definition | .sequence | .primary => [pn.subnode,pn.next]
  | _ => []

/-- Every link to a node leads down in rank. -/
def Ranked (rk : ℕ → ℕ) (ns : List PegNode) : Prop :=
  ∀ (i : ℕ) (pn : PegNode), ns[i]? = some pn → ∀ j ∈ pn.kids, 0 < rk i ∧ (0 ≤ j → rk j.toNat < rk i)

/-- A slot is empty or has the links it had. -/
structure Fewer (m m' : Store) : Prop where
  max : m'.max = m.max
  array : m'.array = m.array
  dynamic : m'.dynamic = m.dynamic
  length : m'.nodes.length = m.nodes.length
  node : ∀ (i : ℕ) (pn' : PegNode), m'.nodes[i]? = some pn' → pn'.type = .none ∨ ∃ pn, m.nodes[i]? = some pn ∧ pn'.type = pn.type ∧
      pn'.kids = pn.kids

variable {m m' m'' : Store} {rk : ℕ → ℕ} {s : PegParser} {i f : ℕ} {nn : ℤ}

theorem PegNode.kids_none {pn : PegNode} (h : pn.type = .none) : pn.kids = [] := by rw [PegNode.kids,h]
theorem PegNode.kids_identifier {pn : PegNode} (h : pn.type = .identifier) : pn.kids = [] := by rw [PegNode.kids,h]

theorem Fewer.same : Fewer m m := ⟨Eq.refl _,Eq.refl _,Eq.refl _,Eq.refl _,fun _ pn h => Or.inr ⟨pn,h,Eq.refl _,Eq.refl _⟩⟩

theorem Fewer.trans (h : Fewer m m') (h' : Fewer m' m'') : Fewer m m'' := by
  refine ⟨h'.max.trans h.max,h'.array.trans h.array,h'.dynamic.trans h.dynamic,h'.length.trans h.length,fun i pn hi => ?_⟩
  rcases h'.node i pn hi with h0 | ⟨pn1,h1,ht,hk⟩
  · exact Or.inl h0
  · rcases h.node i pn1 h1 with h0 | ⟨pn2,h2,ht2,hk2⟩
    · exact Or.inl (ht.trans h0)
    · exact Or.inr ⟨pn2,h2,ht.trans ht2,hk.trans hk2⟩

theorem Fewer.ranked (h : Fewer m m') (hr : Ranked rk m.nodes) : Ranked rk m'.nodes := by
  intro i pn hi j hj
  rcases h.node i pn hi with h0 | ⟨pn1,h1,-,hk⟩
  · rw [PegNode.kids_none h0] at hj
    cases hj
  · rw [hk] at hj
    exact hr i pn1 h1 j hj

/-- A slot whose node can have no kids. -/
def Stripped (ns : List PegNode) (i : ℕ) : Prop := ∀ pn, ns[i]? = some pn → pn.type = .none ∨ pn.type = .identifier

theorem Stripped.set {ns : List PegNode} {pn : PegNode} (h : pn.type = .none ∨ pn.type = .identifier) : Stripped (ns.set i pn) i := by
  intro pn' hi
  have hlt := (List.getElem?_eq_some_iff.1 hi).1
  rw [List.length_set] at hlt
  rw [List.getElem?_set_self hlt] at hi
  cases hi
  exact h

theorem Fewer.stripped (h : Fewer m m') (hs : Stripped m.nodes i) : Stripped m'.nodes i := by
  intro pn hi
  rcases h.node i pn hi with h0 | ⟨pn1,h1,ht,-⟩
  · exact Or.inl h0
  · rw [ht]
    exact hs pn1 h1

/-- What one call changes: slots whose rank is not above. -/
structure Takes (rk : ℕ → ℕ) (nn : ℤ) (m m' : Store) : Prop extends Fewer m m' where
  frame : ∀ j : ℕ, (0 ≤ nn → rk nn.toNat < rk j) → m'.nodes[j]? = m.nodes[j]?

theorem Takes.same : Takes rk nn m m := ⟨Fewer.same,fun _ _ => Eq.refl _⟩

theorem Takes.trans (h : Takes rk nn m m') (h' : Takes rk nn m' m'') : Takes rk nn m m'' :=
  ⟨h.toFewer.trans h'.toFewer,fun j hj => (h'.frame j hj).trans (h.frame j hj)⟩

theorem Takes.below {j : ℤ} (h : Takes rk j m m') (hj : 0 ≤ j → rk j.toNat < rk nn.toNat) (hn : 0 ≤ nn) : Takes rk nn m m' :=
  ⟨h.toFewer,fun k hk => h.frame k fun h0 => (hj h0).trans (hk hn)⟩

theorem Takes.set {p q : PegNode} (hi : m.nodes[i]? = some p) (h : q.type = .none ∨ q.type = p.type ∧ q.kids = p.kids)
    {n : ℕ} {l : List ℕ} : Takes rk i m { m with nodes := m.nodes.set i q, num := n, live := l } := by
  refine ⟨⟨Eq.refl _,Eq.refl _,Eq.refl _,List.length_set,fun j pn1 hj => ?_⟩,fun j hj => List.getElem?_set_ne fun he => ?_⟩
  · rcases eq_or_ne i j with rfl | hne
    · rw [List.getElem?_set_self (List.getElem?_eq_some_iff.1 hi).1] at hj
      cases hj
      exact h.imp_right fun h => ⟨p,hi,h.1,h.2⟩
    · rw [List.getElem?_set_ne hne] at hj
      exact Or.inr ⟨pn1,hj,Eq.refl _,Eq.refl _⟩
  · subst he
    exact absurd (hj (Int.natCast_nonneg i)) (lt_irrefl _)

/-! ## The steps -/

section Steps

variable {α β : Type} {Ok : Event → Prop} {F : Fault → Prop} {Q : β → PegParser → Prop} {pn : PegNode}

theorem Run.node {k : PegNode → PegM β} (hnull : F .null) (h : ∀ pn, s.peg.nodes[i]? = some pn → Run Ok F (k pn) s Q) :
    Run Ok F (node i >>= k) s Q := by
  refine Run.bind (P := fun pn t => t = s ∧ s.peg.nodes[i]? = some pn) (Run.got ?_) fun pn t ht => ?_
  · cases hi : s.peg.nodes[i]? with
    | none => exact Run.fail hnull
    | some pn => exact Run.pure ⟨rfl,rfl⟩
  · obtain ⟨rfl,hi⟩ := ht
    exact h pn hi

theorem Run.node_of {k : PegNode → PegM β} (hi : s.peg.nodes[i]? = some pn) (h : Run Ok F (k pn) s Q) :
    Run Ok F (Parser.node i >>= k) s Q := by
  rw [Run,Traced.bind_apply,node_ok hi]
  exact h

end Steps

/-- A run that is stopped by anything but the depth. -/
abbrev Shallow {α : Type} (m : PegM α) (s : PegParser) (Q : α → PegParser → Prop) : Prop :=
  Run (fun _ => True) (fun f => f ≠ .deep) m s Q

theorem free_shallow (p : Ptr) : Shallow (free p) s fun _ t => ∃ l, t = { s with live := l } := by
  cases p with
  | unset => exact Run.fail nofun
  | null => exact Run.pure ⟨s.live,rfl⟩
  | block id bytes =>
    refine Run.got ?_
    split
    · exact Run.modify ⟨_,rfl⟩
    · exact Run.fail nofun

theorem dropNode_takes : Shallow (dropNode i) s fun _ t => Takes rk i s.store t.store ∧ Stripped t.peg.nodes i := by
  refine Run.got ?_
  split
  · exact Run.fail nofun
  exact Run.modified (Run.node nofun fun pn hi => Run.modify ⟨Takes.set (m := s.store) hi (Or.inl rfl),Stripped.set (Or.inl rfl)⟩)

theorem freeStr_takes : Shallow (do freeStr i; dropNode i) s fun _ t => Takes rk i s.store t.store ∧ Stripped t.peg.nodes i := by
  refine Run.bind (P := fun _ t => Takes rk i s.store t.store) (Run.node nofun fun pn hi => Run.bind (free_shallow _) fun _ t ht => ?_)
    fun _ t ht => dropNode_takes.mono fun _ _ h => ⟨ht.trans h.1,h.2⟩
  obtain ⟨l,rfl⟩ := ht
  exact Run.node nofun fun p hi' =>
    Run.modify (Takes.set (m := s.store) (q := { p with str := ⟨.null,some 0⟩ }) hi' (Or.inr ⟨rfl,rfl⟩))

theorem pegNodeFree_takes (hr : Ranked rk s.peg.nodes) (hf : 0 < f) (hlt : 0 ≤ nn → rk nn.toNat < f) :
    Shallow (pegNodeFree f nn) s fun _ t =>
      Takes rk nn s.store t.store ∧ (0 ≤ nn → nn < s.peg.maxNodes → Stripped t.peg.nodes nn.toNat) := by
  induction f generalizing nn s with
  | zero => exact absurd hf (lt_irrefl 0)
  | succ f ih =>
    refine Run.got ?_
    split
    · rename_i hout
      exact Run.pure ⟨Takes.same,fun h h' => absurd hout (by omega)⟩
    rename_i hin
    rw [not_or,not_lt] at hin
    obtain ⟨i,rfl⟩ := Int.eq_ofNat_of_zero_le hin.1
    refine Run.node nofun fun pn hi => ?_
    rw [Int.toNat_natCast] at hi hlt ⊢
    have hkids : ∀ {k : PegM Unit}, pn.kids = [pn.subnode,pn.next] →
        (∀ t, Takes rk i s.store t.store → Shallow k t fun _ u => Takes rk i t.store u.store ∧ Stripped u.peg.nodes i) →
        Shallow (do pegNodeFree f pn.subnode; pegNodeFree f pn.next; k) s fun _ u => Takes rk i s.store u.store ∧
            Stripped u.peg.nodes i := by
      intro k hk hrun
      have hone : ∀ j ∈ pn.kids, ∀ t, Takes rk i s.store t.store →
          Shallow (pegNodeFree f j) t fun _ u => Takes rk i s.store u.store := by
        intro j hj t ht
        obtain ⟨hpos,hdown⟩ := hr i pn hi j hj
        have hi' := hlt (Int.natCast_nonneg i)
        refine (ih (ht.ranked hr) (by omega) fun h0 => by have := hdown h0; omega).mono fun _ u hu => ?_
        exact ht.trans (hu.1.below (fun h0 => hdown h0) (Int.natCast_nonneg i))
      refine Run.bind (hone _ (by simp [hk]) s Takes.same) fun _ t ht => Run.bind (hone _ (by simp [hk]) t ht) fun _ u hu => ?_
      exact (hrun u hu).mono fun _ v hv => ⟨hu.trans hv.1,hv.2⟩
    refine Run.mono (P := fun _ u => Takes rk i s.store u.store ∧ Stripped u.peg.nodes i) ?_ fun _ _ h => ⟨h.1,fun _ _ => h.2⟩
    cases hty : pn.type with
    | none => exact Run.pure ⟨Takes.same,fun p hp => Or.inl (by rw [hi] at hp; cases hp; exact hty)⟩
    | definition => exact hkids (by rw [PegNode.kids,hty]) fun _ _ => dropNode_takes
    | sequence => exact hkids (by rw [PegNode.kids,hty]) fun _ _ => dropNode_takes
    | primary =>
      refine hkids (by rw [PegNode.kids,hty]) fun t _ => Run.node nofun fun p hp => ?_
      split
      · exact freeStr_takes
      · exact dropNode_takes
    | identifier =>
      generalize (pn.status + 65535) % 65536 = n
      have hset : Takes rk i s.store (s.withNode i { pn with type := .identifier, status := n }).store :=
        Takes.set (m := s.store) (q := { pn with type := .identifier, status := n }) hi
            (Or.inr ⟨hty.symm,(PegNode.kids_identifier hty).symm⟩)
      refine Run.modified ?_
      split
      · exact Run.pure ⟨hset,Stripped.set (Or.inr rfl)⟩
      · exact Run.mono freeStr_takes fun _ u hu => ⟨hset.trans hu.1,hu.2⟩
    | literal => exact freeStr_takes
    | cls => exact freeStr_takes

end Catlib.Peg.Parser
