import Catlib.Peg.Parser.Store

/-! # What peg_node_free gives back

The blocks that are not freed are the array, those in hand and those of the nodes, each once. The
count of an identifier is not above its links and what else refers to it, so that a sweep over the
nodes leaves nothing.
-/
namespace Catlib.Peg.Parser

open Traced (Run)

/-- The block that a string is. -/
def Ptr.blocks : Ptr → List ℕ
  | .block id _ => [id]
  | _ => []

/-- The nodes whose string is freed with them. -/
def PegNode.owns (pn : PegNode) : Bool :=
  match pn.type with
  | .identifier | .literal | .cls => true
  | .primary => pn.status ≠ actNone
  | _ => false

def PegNode.blocks (pn : PegNode) : List ℕ := if pn.owns then pn.str.data.blocks else []
def PegNode.used (pn : PegNode) : ℕ := if pn.type = .none then 0 else 1

/-- How often the nodes have a node as their kid. -/
def links (ns : List PegNode) (k : ℕ) : ℕ := total (fun pn => pn.kids.count (k : ℤ)) ns

/-- Each block that is not freed is the array, in hand or the string of a node, and only one of them. -/
structure Kept (extra : List ℕ) (m : Store) : Prop where
  room : m.nodes.length = m.max
  dynamic : m.dynamic = true
  num : m.num = total PegNode.used m.nodes
  live : ∀ a, m.live.count a = m.array.toList.count a + extra.count a + total (fun pn => pn.blocks.count a) m.nodes
  nodup : m.live.Nodup
  old : ∀ a ∈ m.live, a < m.tried

/-- The strings are set, and an identifier with a name is not counted above its links and `σ`. -/
structure Balanced (σ : ℕ → ℤ) (m : Store) : Prop where
  kept : Kept [] m
  set : ∀ (i : ℕ) (pn : PegNode), m.nodes[i]? = some pn → pn.owns = true → pn.str.data ≠ .unset
  counts : ∀ (k : ℕ) (pn : PegNode), m.nodes[k]? = some pn → pn.type = .identifier → pn.blocks ≠ [] →
    1 ≤ pn.status ∧ pn.status < 65536 ∧ (pn.status : ℤ) ≤ links m.nodes k + σ k

variable {m : Store} {σ τ : ℕ → ℤ} {s : PegParser} {i f : ℕ} {nn : ℤ} {p q : PegNode} {extra : List ℕ}

theorem PegNode.blocks_none (h : p.type = .none) : p.blocks = [] := by rw [PegNode.blocks,PegNode.owns,h]; rfl
theorem PegNode.used_none (h : p.type = .none) : p.used = 0 := if_pos h
theorem PegNode.used_some (h : p.type ≠ .none) : p.used = 1 := if_neg h

theorem PegNode.blocks_status (h : p.type = .identifier) (n : ℕ) : PegNode.blocks { p with status := n } = p.blocks := by
  rw [PegNode.blocks,PegNode.blocks,PegNode.owns,PegNode.owns,h]

theorem PegNode.blocks_owns (h : p.owns = true) : p.blocks = p.str.data.blocks := if_pos h

theorem set_cases {ns : List PegNode} {j : ℕ} {pn : PegNode} (h : (ns.set i q)[j]? = some pn) :
    j = i ∧ pn = q ∨ j ≠ i ∧ ns[j]? = some pn := by
  rcases eq_or_ne i j with rfl | hne
  · have hlt := (List.getElem?_eq_some_iff.1 h).1
    rw [List.length_set] at hlt
    rw [List.getElem?_set_self hlt] at h
    cases h
    exact Or.inl ⟨rfl,rfl⟩
  · rw [List.getElem?_set_ne hne] at h
    exact Or.inr ⟨hne.symm,h⟩

theorem Kept.set (h : Kept extra m) (hi : m.nodes[i]? = some p) {l : List ℕ} {n : ℕ}
    (hl : ∀ a, l.count a + q.blocks.count a = extra.count a + p.blocks.count a) (hn : n + p.used = m.num + q.used) :
    Kept l { m with nodes := m.nodes.set i q, num := n } := by
  refine ⟨List.length_set.trans h.room,h.dynamic,?_,fun a => ?_,h.nodup,h.old⟩
  · have ht := total_set (f := PegNode.used) hi q
    have hm := h.num
    show n = total PegNode.used (m.nodes.set i q)
    omega
  · have ht := total_set (f := fun pn => pn.blocks.count a) hi q
    have hm := h.live a
    have ha := hl a
    show m.live.count a = m.array.toList.count a + l.count a + total (fun pn => pn.blocks.count a) (m.nodes.set i q)
    omega

theorem Kept.mem {a : ℕ} (h : Kept (a :: extra) m) : a ∈ m.live := by
  have ha := h.live a
  rw [List.count_cons_self] at ha
  exact List.count_pos_iff.1 (by omega)

theorem Kept.free {a : ℕ} (h : Kept (a :: extra) m) : Kept extra { m with live := m.live.erase a } := by
  refine ⟨h.room,h.dynamic,h.num,fun b => ?_,h.nodup.erase a,fun b hb => h.old b (List.mem_of_mem_erase hb)⟩
  have hb := h.live b
  have ha := List.count_pos_iff.2 h.mem
  rw [List.count_cons] at hb
  show (m.live.erase a).count b = _
  rw [List.count_erase]
  by_cases hab : a = b
  · subst hab
    rw [beq_self_eq_true,if_pos rfl] at hb ⊢
    dsimp only
    omega
  · rw [beq_false_of_ne hab,if_neg Bool.false_ne_true] at hb ⊢
    exact hb

theorem Kept.freed {l : List ℕ} (h : Kept (l ++ extra) m) : (∀ a ∈ l, a ∈ m.live) ∧ Kept extra { m with live := m.live.diff l } := by
  induction l generalizing m with
  | nil => exact ⟨nofun,h⟩
  | cons a l ih =>
    have h' : Kept (a :: (l ++ extra)) m := h
    obtain ⟨hmem,hk⟩ := ih h'.free
    refine ⟨fun b hb => ?_,?_⟩
    · rcases List.mem_cons.1 hb with rfl | hb
      · exact h'.mem
      · exact List.mem_of_mem_erase (hmem b hb)
    · rw [List.diff_cons]
      exact hk

theorem Balanced.mono (h : Balanced σ m) (hle : ∀ (k : ℕ) (pn : PegNode), m.nodes[k]? = some pn → pn.type = .identifier → σ k ≤ τ k) :
    Balanced τ m :=
  ⟨h.kept,h.set,fun k pn hk ht hb => by
    obtain ⟨h1,h2,h3⟩ := h.counts k pn hk ht hb
    exact ⟨h1,h2,h3.trans (Int.add_le_add_left (hle k pn hk ht) _)⟩⟩

theorem links_set {ns : List PegNode} (hi : ns[i]? = some p) (q : PegNode) (k : ℕ) :
    links (ns.set i q) k + p.kids.count (k : ℤ) = links ns k + q.kids.count (k : ℤ) :=
  total_set hi q

theorem Balanced.drop (h : Balanced σ m) (hi : m.nodes[i]? = some p) (hp : p.type ≠ .none) (hq : q.type = .none)
    (hτ : ∀ k, k ≠ i → σ k + p.kids.count (k : ℤ) ≤ τ k) :
    m.num ≠ 0 ∧ (∀ a ∈ p.blocks, a ∈ m.live) ∧
      Balanced τ { m with nodes := m.nodes.set i q, num := m.num - 1, live := m.live.diff p.blocks } := by
  have hpos : 1 ≤ m.num := by
    rw [h.kept.num,← PegNode.used_some hp]
    exact le_total_of_mem hi
  have hk : Kept (p.blocks ++ []) { m with nodes := m.nodes.set i q, num := m.num - 1 } :=
    h.kept.set hi (fun a => by rw [PegNode.blocks_none hq,List.append_nil,List.count_nil]; exact Nat.add_comm _ _)
      (by rw [PegNode.used_some hp,PegNode.used_none hq]; omega)
  obtain ⟨hmem,hfree⟩ := hk.freed
  refine ⟨Nat.ne_of_gt hpos,hmem,hfree,fun j pn hj ho => ?_,fun k pn hk ht hb => ?_⟩
  · rcases set_cases hj with ⟨-,rfl⟩ | ⟨-,hj⟩
    · rw [PegNode.owns,hq] at ho
      cases ho
    · exact h.set j pn hj ho
  · rcases set_cases hk with ⟨-,rfl⟩ | ⟨hne,hk⟩
    · rw [hq] at ht
      cases ht
    · obtain ⟨h1,h2,h3⟩ := h.counts k pn hk ht hb
      have hl := links_set hi q k
      have hz := hτ k hne
      rw [PegNode.kids_none hq,List.count_nil] at hl
      refine ⟨h1,h2,?_⟩
      show (pn.status : ℤ) ≤ links (m.nodes.set i q) k + τ k
      omega

theorem Balanced.count (h : Balanced σ m) (hi : m.nodes[i]? = some p) (hp : p.type = .identifier)
    (hτ : ∀ k, k ≠ i → σ k ≤ τ k) {n : ℕ} (hn : p.blocks ≠ [] → 1 ≤ n ∧ n < 65536 ∧ (n : ℤ) ≤ p.status + (τ i - σ i)) :
    Balanced τ (m.set i { p with status := n }) := by
  have hkids : PegNode.kids { p with status := n } = p.kids := rfl
  have hblocks := PegNode.blocks_status hp n
  have hlinks : ∀ k, links (m.nodes.set i { p with status := n }) k = links m.nodes k := fun k =>
    Nat.add_right_cancel (links_set hi _ k)
  refine ⟨h.kept.set hi (fun a => by rw [hblocks]) rfl,fun j pn hj ho => ?_,fun k pn hk ht hb => ?_⟩
  · rcases set_cases hj with ⟨-,rfl⟩ | ⟨-,hj⟩
    · exact h.set i p hi (by rw [PegNode.owns,hp])
    · exact h.set j pn hj ho
  · show 1 ≤ pn.status ∧ pn.status < 65536 ∧ (pn.status : ℤ) ≤ links (m.nodes.set i _) k + τ k
    rw [hlinks]
    rcases set_cases hk with ⟨rfl,rfl⟩ | ⟨hne,hk⟩
    · rw [hblocks] at hb
      obtain ⟨h1,h2,h3⟩ := h.counts k p hi hp hb
      obtain ⟨g1,g2,g3⟩ := hn hb
      exact ⟨g1,g2,show (n : ℤ) ≤ _ by omega⟩
    · obtain ⟨h1,h2,h3⟩ := h.counts k pn hk ht hb
      exact ⟨h1,h2,h3.trans (Int.add_le_add_left (hτ k hne) _)⟩

/-! ## The steps -/

/-- A run that nothing stops. -/
abbrev Clean {α : Type} (m : PegM α) (s : PegParser) (Q : α → PegParser → Prop) : Prop :=
  Run (fun _ => True) (fun _ => False) m s Q

theorem Clean.and {α : Type} {m : PegM α} {P Q : α → PegParser → Prop} (h : Clean m s P) (h' : Shallow m s Q) :
    Clean m s fun a t => P a t ∧ Q a t := (Run.and h h').weaken (fun _ _ => ⟨trivial,trivial⟩) fun _ he => he.1

theorem free_clean {d : Ptr} (hset : d ≠ .unset) (hlive : ∀ a ∈ d.blocks, a ∈ s.live) :
    Clean (free d) s fun _ t => t = { s with live := s.live.diff d.blocks } := by
  cases d with
  | unset => exact absurd rfl hset
  | null => exact Run.pure rfl
  | block id bytes =>
    refine Run.got ?_
    rw [if_pos (hlive id (List.mem_singleton_self id))]
    exact Run.modify (by rw [Ptr.blocks,List.diff_cons,List.diff_nil])

theorem dropNode_clean (hi : s.peg.nodes[i]? = some p) (h : s.peg.numNodes ≠ 0) :
    Clean (dropNode i) s fun _ t =>
      t.store = { s.store with nodes := s.peg.nodes.set i { p with type := .none }, num := s.peg.numNodes - 1 } := by
  refine Run.got ?_
  rw [if_neg h]
  exact Run.modified (Run.node_of hi (Run.modify rfl))

theorem release_clean (hi : s.peg.nodes[i]? = some p) (hset : p.str.data ≠ .unset) (hlive : ∀ a ∈ p.str.data.blocks, a ∈ s.live)
    (hnum : s.peg.numNodes ≠ 0) : Clean (do freeStr i; dropNode i) s fun _ t => t.store =
      { s.store with
        nodes := s.peg.nodes.set i { p with str := ⟨.null,some 0⟩, type := .none },
        num := s.peg.numNodes - 1,
        live := s.live.diff p.str.data.blocks } := by
  have hlt := (List.getElem?_eq_some_iff.1 hi).1
  have hstr : Clean (freeStr i) s fun _ t =>
      t = { s with
        live := s.live.diff p.str.data.blocks
        peg := { s.peg with nodes := s.peg.nodes.set i { p with str := ⟨.null,some 0⟩ } } } := by
    refine Run.node_of hi (Run.bind (free_clean hset hlive) fun _ t ht => ?_)
    subst ht
    exact Run.node_of hi (Run.modify rfl)
  refine Run.bind hstr fun _ t ht => ?_
  have hi' : t.peg.nodes[i]? = some { p with str := ⟨.null,some 0⟩ } := by rw [ht,List.getElem?_set_self hlt]
  refine (dropNode_clean hi' (by rw [ht]; exact hnum)).mono fun _ u hu => ?_
  rw [hu,ht,List.set_set]
  rfl

theorem Balanced.bare (h : Balanced σ s.store) (hi : s.peg.nodes[i]? = some p) (hp : p.type ≠ .none) (hown : p.owns = false)
    (hτ : ∀ k, k ≠ i → σ k + p.kids.count (k : ℤ) ≤ τ k) : Clean (dropNode i) s fun _ t => Balanced τ t.store := by
  obtain ⟨hnum,-,hb⟩ := h.drop (q := { p with type := .none }) hi hp rfl hτ
  refine (dropNode_clean hi hnum).mono fun _ t ht => ?_
  rw [ht]
  rw [PegNode.blocks,hown] at hb
  exact hb

theorem Balanced.counted (h : Balanced σ m) (hi : m.nodes[i]? = some p) (hown : p.owns = true)
    (hτ : ∀ k, k ≠ i → σ k + p.kids.count (k : ℤ) ≤ τ k)
    {n : ℕ} (hs : s.store = m.set i { p with status := n }) : Clean (do freeStr i; dropNode i) s fun _ t => Balanced τ t.store := by
  have hp : p.type ≠ .none := fun h0 => by
    rw [PegNode.owns,h0] at hown
    cases hown
  obtain ⟨hnum,hmem,hb⟩ := h.drop (q := { p with status := n, str := ⟨.null,some 0⟩, type := .none }) hi hp rfl hτ
  rw [PegNode.blocks_owns hown] at hmem hb
  have hnodes : s.peg.nodes = m.nodes.set i { p with status := n } := congrArg (fun m : Store => m.nodes) hs
  have hlive : s.live = m.live := congrArg Store.live hs
  have hnum' : s.peg.numNodes = m.num := congrArg (fun m : Store => m.num) hs
  have hi' : s.peg.nodes[i]? = some { p with status := n } := by rw [hnodes,List.getElem?_set_self (List.getElem?_eq_some_iff.1 hi).1]
  refine (release_clean hi' (h.set i p hi hown) (hlive ▸ hmem) (hnum' ▸ hnum)).mono fun _ t ht => ?_
  rw [ht,hs,hnodes,hlive,hnum',List.set_set]
  exact hb

theorem Store.set_self (hi : m.nodes[i]? = some p) : m.set i p = m := by
  obtain ⟨hlt,rfl⟩ := List.getElem?_eq_some_iff.1 hi
  rw [Store.set,List.set_getElem_self]

theorem Balanced.owner (h : Balanced σ s.store) (hi : s.peg.nodes[i]? = some p) (hown : p.owns = true)
    (hτ : ∀ k, k ≠ i → σ k + p.kids.count (k : ℤ) ≤ τ k) : Clean (do freeStr i; dropNode i) s fun _ t => Balanced τ t.store :=
  h.counted (n := p.status) hi hown hτ (Store.set_self hi).symm

/-- What a reference less leaves. -/
def less (σ : ℕ → ℤ) (nn : ℤ) : ℕ → ℤ := fun k => σ k - if (k : ℤ) = nn then 1 else 0

theorem less_le (σ : ℕ → ℤ) (nn : ℤ) (k : ℕ) (h : (k : ℤ) ≠ nn) : σ k ≤ less σ nn k := by rw [less,if_neg h,sub_zero]

theorem pegNodeFree_clean {rk : ℕ → ℕ} (h : Balanced σ s.store) (hr : Ranked rk s.peg.nodes) (hf : 0 < f) (hlt : 0 ≤ nn → rk nn.toNat < f) :
    Clean (pegNodeFree f nn) s fun _ t => Balanced (less σ nn) t.store := by
  induction f generalizing nn s σ with
  | zero => exact absurd hf (lt_irrefl 0)
  | succ f ih =>
    refine Run.got ?_
    split
    · rename_i hout
      refine Run.pure (h.mono fun k pn hk _ => less_le σ nn k fun he => ?_)
      have hlen := (List.getElem?_eq_some_iff.1 hk).1
      rw [h.kept.room] at hlen
      have hmax : s.store.max = s.peg.maxNodes := rfl
      lia
    rename_i hin
    rw [not_or,not_lt,not_le] at hin
    obtain ⟨i,rfl⟩ := Int.eq_ofNat_of_zero_le hin.1
    have hlen : i < s.peg.nodes.length := by
      have hroom : s.peg.nodes.length = s.peg.maxNodes := h.kept.room
      lia
    obtain ⟨pn,hi⟩ : ∃ pn, s.peg.nodes[i]? = some pn := ⟨_,List.getElem?_eq_getElem hlen⟩
    rw [Int.toNat_natCast] at hlt ⊢
    refine Run.node_of hi ?_
    have hne : ∀ {k : ℕ}, k ≠ i → (k : ℤ) ≠ (i : ℤ) := fun hk he => hk (Int.ofNat_inj.1 he)
    have hkids : ∀ {k : PegM Unit}, pn.kids = [pn.subnode,pn.next] →
        (∀ t ρ, Balanced ρ t.store → t.peg.nodes[i]? = some pn → (∀ k, k ≠ i → ρ k + pn.kids.count (k : ℤ) ≤ less σ i k) →
          Clean k t fun _ u => Balanced (less σ i) u.store) →
        Clean (do pegNodeFree f pn.subnode; pegNodeFree f pn.next; k) s fun _ u => Balanced (less σ i) u.store := by
      intro k hk hrun
      have hone : ∀ j ∈ pn.kids, ∀ ρ t, Balanced ρ t.store → Ranked rk t.peg.nodes → t.peg.nodes[i]? = some pn →
          Clean (pegNodeFree f j) t fun _ u => Balanced (less ρ j) u.store ∧ Ranked rk u.peg.nodes ∧ u.peg.nodes[i]? = some pn := by
        intro j hj ρ t hb hrt hit
        obtain ⟨hpos,hdown⟩ := hrt i pn hit j hj
        have hi' := hlt (Int.natCast_nonneg i)
        have hf' : 0 < f := by lia
        have hlt' : 0 ≤ j → rk j.toNat < f := fun h0 => by have := hdown h0; lia
        refine (Clean.and (ih hb hrt hf' hlt') (pegNodeFree_takes hrt hf' hlt')).mono fun _ u hu =>
          ⟨hu.1,hu.2.1.ranked hrt,(hu.2.1.frame i hdown).trans hit⟩
      refine Run.bind (hone _ (by simp [hk]) σ s h hr hi) fun _ t ht => Run.bind
          (hone _ (by simp [hk]) _ t ht.1 ht.2.1 ht.2.2) fun _ u hu => ?_
      refine hrun u _ hu.1 hu.2.2 fun k hk' => ?_
      rw [hk,less,less,less,if_neg (hne hk'),List.count_cons,List.count_singleton]
      simp only [beq_iff_eq, eq_comm (a := (k : ℤ))]
      split_ifs <;> lia
    cases hty : pn.type with
    | none =>
      refine Run.pure (h.mono fun k p hk ht => less_le σ i k (hne fun he => ?_))
      subst he
      rw [← Option.some.inj (hi.symm.trans hk),hty] at ht
      cases ht
    | definition =>
      exact hkids (by rw [PegNode.kids,hty]) fun t ρ hb hit hτ => hb.bare hit (by rw [hty]; rintro ⟨⟩)
          (by rw [PegNode.owns,hty]) hτ
    | sequence => exact hkids (by rw [PegNode.kids,hty]) fun t ρ hb hit hτ => hb.bare hit (by rw [hty]; rintro ⟨⟩) (by rw [PegNode.owns,hty]) hτ
    | primary =>
      refine hkids (by rw [PegNode.kids,hty]) fun t ρ hb hit hτ => Run.node_of hit ?_
      split
      · rename_i hst
        exact hb.owner hit (by rw [PegNode.owns,hty]; simpa using hst) hτ
      · rename_i hst
        exact hb.bare hit (by rw [hty]; rintro ⟨⟩) (by rw [PegNode.owns,hty]; simpa using hst) hτ
    | identifier =>
      have hkid : pn.kids = [] := PegNode.kids_identifier hty
      have hown : pn.owns = true := by rw [PegNode.owns,hty]
      have hτ : ∀ k, k ≠ i → σ k ≤ less σ i k := fun k hk => less_le σ i k (hne hk)
      have hcount := h.counts i pn hi hty
      generalize hn : (pn.status + 65535) % 65536 = n
      dsimp only
      rw [← hty]
      refine Run.modified ?_
      split
      · rename_i hpos
        refine Run.pure (h.count hi hty hτ fun hb => ?_)
        obtain ⟨h1,h2,-⟩ := hcount hb
        rw [less,if_pos rfl]
        lia
      · exact h.counted hi hown (fun k hk => by rw [hkid]; simpa using hτ k hk) rfl
    | literal => exact h.owner hi (by rw [PegNode.owns,hty]) fun k hk => by rw [PegNode.kids,hty]; simpa using less_le σ i k (hne hk)
    | cls => exact h.owner hi (by rw [PegNode.owns,hty]) fun k hk => by rw [PegNode.kids,hty]; simpa using less_le σ i k (hne hk)

/-! ## The sweep -/

section Sweep

variable {E : Env} {rk : ℕ → ℕ} {is : List ℕ}

theorem freeAll_takes (hr : Ranked rk s.peg.nodes) (hlt : ∀ i, rk i < E.fuel) :
    Shallow (freeAll E is) s fun _ t => Fewer s.store t.store ∧ ∀ i ∈ is, i < s.peg.maxNodes → Stripped t.peg.nodes i := by
  induction is generalizing s with
  | nil => exact Run.pure ⟨Fewer.same,nofun⟩
  | cons i is ih =>
    refine Run.bind (pegNodeFree_takes hr ((Nat.zero_le _).trans_lt (hlt 0)) fun _ => hlt _) fun _ t ht => ?_
    refine (ih (s := t) (ht.1.ranked hr)).mono fun _ u hu => ⟨ht.1.toFewer.trans hu.1,fun j hj hmax => ?_⟩
    rcases List.mem_cons.1 hj with rfl | hj
    · exact hu.1.stripped (ht.2 (Int.natCast_nonneg j) (by omega))
    · exact hu.2 j hj (hmax.trans_le (Nat.le_of_eq ht.1.max.symm))

theorem freeAll_clean (h : Balanced σ s.store) (hr : Ranked rk s.peg.nodes) (hlt : ∀ i, rk i < E.fuel) :
    Clean (freeAll E is) s fun _ t => Balanced (fun k => σ k - is.count k) t.store := by
  induction is generalizing s σ with
  | nil => exact Run.pure (h.mono fun k _ _ _ => by simp)
  | cons i is ih =>
    have hpos := (Nat.zero_le _).trans_lt (hlt 0)
    have hone := Clean.and (m := pegNodeFree E.fuel i) (pegNodeFree_clean h hr hpos fun _ => hlt _)
        (pegNodeFree_takes hr hpos fun _ => hlt _)
    refine Run.bind hone fun _ t ht => (ih ht.1 (ht.2.1.ranked hr)).mono fun _ u hu => hu.mono fun k _ _ _ => ?_
    rw [List.count_cons,less]
    simp only [beq_iff_eq, Int.ofNat_inj, eq_comm (a := k)]
    split_ifs <;> omega

theorem Balanced.empty (h : Balanced σ m) (hσ : ∀ k, k < m.max → σ k ≤ 0) (hs : ∀ i, i < m.max → Stripped m.nodes i) (a : ℕ) :
    m.live.count a = m.array.toList.count a := by
  have hnode : ∀ pn ∈ m.nodes, ∃ i, i < m.max ∧ m.nodes[i]? = some pn := fun pn hpn => by
    obtain ⟨i,hi⟩ := List.getElem?_of_mem hpn
    exact ⟨i,h.kept.room ▸ (List.getElem?_eq_some_iff.1 hi).1,hi⟩
  have hlinks : ∀ k, links m.nodes k = 0 := fun k => total_eq_zero fun pn hpn => by
    obtain ⟨i,hlt,hi⟩ := hnode pn hpn
    rcases hs i hlt pn hi with h0 | h0
    · rw [PegNode.kids_none h0,List.count_nil]
    · rw [PegNode.kids_identifier h0,List.count_nil]
  have hblocks : total (fun pn => pn.blocks.count a) m.nodes = 0 := total_eq_zero fun pn hpn => by
    obtain ⟨i,hlt,hi⟩ := hnode pn hpn
    rcases hs i hlt pn hi with h0 | h0
    · rw [PegNode.blocks_none h0,List.count_nil]
    · by_cases hb : pn.blocks = []
      · rw [hb,List.count_nil]
      · obtain ⟨h1,-,h3⟩ := h.counts i pn hi h0 hb
        have hz := hσ i hlt
        rw [hlinks] at h3
        omega
  rw [h.kept.live a,hblocks,List.count_nil]
  rfl

theorem freeArray_clean {o : Option ℕ} (h : ∀ a ∈ o.toList, a ∈ s.live) :
    Clean (freeArray o) s fun _ t => t = { s with live := s.live.diff o.toList } := by
  cases o with
  | none => exact Run.pure rfl
  | some id =>
    refine Run.got ?_
    rw [if_pos (h id (List.mem_singleton_self id))]
    exact Run.modify (by rw [Option.toList_some,List.diff_cons,List.diff_nil])

theorem pegFreeNodes_clean (h : Balanced σ s.store) (hr : Ranked rk s.peg.nodes) (hlt : ∀ i, rk i < E.fuel) (hσ : ∀ k, σ k ≤ 1) :
    Clean (pegFreeNodes E) s fun _ t => t.live = [] ∧ t.peg.nodes = [] := by
  refine Run.got ?_
  refine Run.bind (Clean.and (freeAll_clean h hr hlt) (freeAll_takes hr hlt)) fun _ t ht => Run.got ?_
  obtain ⟨hb,hf,hs⟩ := ht
  have hmax : t.peg.maxNodes = s.peg.maxNodes := hf.max
  have hlive : ∀ a, t.live.count a = t.peg.array.toList.count a := hb.empty
    (fun k hk => by
      have hk' : k < s.peg.maxNodes := hmax ▸ hk
      have hc := List.count_pos_iff.2 (List.mem_range.2 hk')
      have := hσ k
      show σ k - _ ≤ 0
      omega)
    fun i hi => hs i (List.mem_range.2 (hmax ▸ hi)) (hmax ▸ hi)
  have hdyn : t.peg.dynamic = true := hb.kept.dynamic
  rw [if_pos hdyn]
  have heq : t.live = t.peg.array.toList := by
    have hp := List.perm_iff_count.2 hlive
    cases ha : t.peg.array with
    | none =>
      rw [ha] at hp
      exact hp.eq_nil
    | some id =>
      rw [ha] at hp
      exact List.perm_singleton.1 hp
  refine Run.got (Run.bind (freeArray_clean fun a ha => heq ▸ ha) fun _ u hu => Run.modify ⟨?_,rfl⟩)
  show u.live = []
  rw [hu]
  show t.live.diff t.peg.array.toList = []
  rw [heq]
  cases t.peg.array with
  | none => rfl
  | some id => rw [Option.toList_some,List.diff_cons,List.erase_cons_head,List.diff_nil]

theorem pegFreeNodes_shallow (hr : Ranked rk s.peg.nodes) (hlt : ∀ i, rk i < E.fuel) : Shallow (pegFreeNodes E) s fun _ _ => True := by
  refine Run.got (Run.bind (freeAll_takes hr hlt) fun _ t _ => Run.got ?_)
  split
  · refine Run.got (Run.bind (P := fun _ _ => True) ?_ fun _ u _ => Run.modify trivial)
    cases t.peg.array with
    | none => exact Run.pure trivial
    | some id =>
      refine Run.got ?_
      split
      · exact Run.modify trivial
      · exact Run.fail nofun
  · exact Run.pure trivial

end Sweep

end Catlib.Peg.Parser
