import Catlib.Peg.Parser.Ready
import Catlib.Peg.Parser.Turns

/-! # Nodes and strings of the parser

What the parser gets from the allocator: a larger array, a node, a copy of a name. Each step keeps the
array and the memory in order, or leaves them as an error does.
-/
namespace Catlib.Peg.Parser

open Traced (Run)

/-- A step that the links and the counts depend on: an identifier is not counted further than its field can, and the
variable that an empty sequence stores is no index. -/
def Event.Regular : Event → Prop
  | .refs n => n + 1 < 65536
  | .empty j => j < 0
  | _ => True

/-- A step with the memory that the clean-up relies on. -/
def Event.Backed : Event → Prop
  | .noArray | .noText | .badClass => False
  | _ => True

/-- The contract of what builds nodes: the recursion of a clean-up ends, and with `full` all faults are of the text. -/
abbrev Builds (full : Prop) {α : Type} (m : PegM α) (s : PegParser) (Q : α → Store → Prop) : Prop :=
  Run (fun e => e.Regular ∧ (full → e.Backed)) (fun f => f ≠ .deep ∧ (full → f.Lexical)) m s fun a t => Q a t.store

variable {full : Prop} {E : Env} {s : PegParser} {dep : ℕ → ℕ} {held extra : List ℕ} {m : Store} {p q : PegNode} {i : ℕ}

section Rules

variable {α β γ : Type} {Q : β → Store → Prop}

theorem Fault.Lexical.shallow {f : Fault} (h : f.Lexical) : f ≠ .deep := by
  rintro rfl
  exact h

theorem Clean.run {Ok : Event → Prop} {F : Fault → Prop} {n : PegM α} {P : α → PegParser → Prop} (h : Clean n s P) : Run Ok F n s P :=
  h.weaken (fun _ _ => trivial) fun _ he => he.elim

theorem Builds.scan {n : Scan γ} {k : γ → PegM β} (hn : OfText n) (hk : ∀ c, Builds full (k c) s Q) :
    Builds full (Traced.lift n >>= k) s Q := by
  refine Run.bind (P := fun _ t => t = s) (Run.lift ?_) fun c t ht => ht ▸ hk c
  exact (hn.faults.weaken (fun _ _ => trivial) fun f hf => ⟨hf.shallow,fun _ => hf⟩).mono fun _ _ _ => rfl

theorem Builds.scan_of {n : Scan γ} {k : γ → PegM β} {P : γ → Prop} (hn : OfText n)
    (hP : Run (fun _ => True) (fun _ => True) n () fun c _ => P c)
    (hk : ∀ c, P c → Builds full (k c) s Q) : Builds full (Traced.lift n >>= k) s Q := by
  refine Run.bind (P := fun c t => t = s ∧ P c) (Run.lift ?_) fun c t ht => ht.1 ▸ hk c ht.2
  exact ((Run.and hn.faults hP).weaken (fun _ _ => ⟨trivial,trivial⟩) fun f hf => ⟨hf.1.shallow,fun _ => hf.1⟩).mono fun _ _ h => ⟨rfl,h.2⟩

theorem malloc_clean : Clean (malloc E) s fun o t => o = none ∧ t = { s with tried := s.tried + 1 } ∨
    o = some s.tried ∧ t = { s with tried := s.tried + 1, live := s.tried :: s.live } := by
  refine Run.got (Run.modified ?_)
  split
  · exact Run.pure (Or.inl ⟨rfl,rfl⟩)
  · exact Run.modified (Run.pure (Or.inr ⟨rfl,rfl⟩))

theorem Builds.malloc {k : Option ℕ → PegM β} (hno : Builds full (k none) { s with tried := s.tried + 1 } Q)
    (hyes : Builds full (k (some s.tried)) { s with tried := s.tried + 1, live := s.tried :: s.live } Q) :
    Builds full (malloc E >>= k) s Q := by
  refine Run.bind malloc_clean.run fun o t ht => ?_
  rcases ht with ⟨rfl,rfl⟩ | ⟨rfl,rfl⟩
  · exact hno
  · exact hyes

theorem Builds.copy {bytes : List UInt8} {r : Raw} {k : Raw × Bool → PegM β}
    (hno : Builds full (k (⟨.null,r.len⟩,false)) { s with tried := s.tried + 1, err := .nomem } Q)
    (hyes : Builds full (k (⟨.block s.tried bytes,some bytes.length⟩,true)) { s with tried := s.tried + 1, live := s.tried :: s.live } Q) :
    Builds full (copyStr E bytes r >>= k) s Q := by
  have hrun : Clean (copyStr E bytes r) s fun x t => x = (⟨.null,r.len⟩,false) ∧ t = { s with tried := s.tried + 1, err := .nomem } ∨
      x = (⟨.block s.tried bytes,some bytes.length⟩,true) ∧ t = { s with tried := s.tried + 1, live := s.tried :: s.live } := by
    refine Run.bind malloc_clean fun o t ht => ?_
    rcases ht with ⟨rfl,rfl⟩ | ⟨rfl,rfl⟩
    · exact Run.modified (Run.pure (Or.inl ⟨rfl,rfl⟩))
    · exact Run.pure (Or.inr ⟨rfl,rfl⟩)
  refine Run.bind hrun.run fun o t ht => ?_
  rcases ht with ⟨rfl,rfl⟩ | ⟨rfl,rfl⟩
  · exact hno
  · exact hyes

end Rules

/-! ## The allocator -/

theorem Kept.tried (h : Kept extra m) : Kept extra { m with tried := m.tried + 1 } :=
  ⟨h.room,h.dynamic,h.num,h.live,h.nodup,fun a ha => (h.old a ha).trans (Nat.lt_succ_self _)⟩

theorem Kept.malloc (h : Kept extra m) : Kept (m.tried :: extra) { m with tried := m.tried + 1, live := m.tried :: m.live } := by
  refine ⟨h.room,h.dynamic,h.num,fun a => ?_,List.nodup_cons.2 ⟨fun hmem => absurd (h.old _ hmem) (lt_irrefl _),h.nodup⟩,fun a ha => ?_⟩
  · have ha := h.live a
    show (m.tried :: m.live).count a = m.array.toList.count a + (m.tried :: extra).count a + total (fun pn => pn.blocks.count a) m.nodes
    rw [List.count_cons,List.count_cons]
    omega
  · rcases List.mem_cons.1 ha with rfl | ha
    · exact Nat.lt_succ_self _
    · exact (h.old a ha).trans (Nat.lt_succ_self _)

theorem PegNode.fresh_none : PegNode.fresh.type = .none := rfl

theorem Kept.grow {a n : ℕ} (h : Kept [a] m) (hn : m.nodes.length ≤ n) :
    Kept (m.array.toList ++ []) { m with nodes := m.nodes ++ List.replicate (n - m.nodes.length) .fresh, array := some a, max := n } := by
  have htotal : ∀ f : PegNode → ℕ, f .fresh = 0 → total f (m.nodes ++ List.replicate (n - m.nodes.length) .fresh) = total f m.nodes := by
    intro f hf
    rw [total_append]
    exact Nat.add_eq_left.2 (total_eq_zero fun pn hpn => by rw [List.eq_of_mem_replicate hpn,hf])
  refine ⟨?_,h.dynamic,h.num.trans (htotal _ rfl).symm,fun b => ?_,h.nodup,h.old⟩
  · show (m.nodes ++ List.replicate (n - m.nodes.length) PegNode.fresh).length = n
    rw [List.length_append,List.length_replicate]
    omega
  · have hb := h.live b
    show m.live.count b = (some a).toList.count b + (m.array.toList ++ []).count b + total (fun pn => pn.blocks.count b) (m.nodes ++ _)
    rw [htotal (fun pn => pn.blocks.count b) rfl,List.append_nil,Option.toList_some]
    omega

/-- The array after a `realloc` to `n` nodes, with that many of them in use. -/
def Store.grown (m : Store) (n : ℕ) : Store :=
  { m with
    nodes := m.nodes ++ List.replicate (n - m.nodes.length) .fresh, array := some m.tried, max := n, tried := m.tried + 1,
    live := (m.tried :: m.live).diff m.array.toList }

theorem Ready.grown (h : Ready dep held m) {n : ℕ} (hn : m.max ≤ n) (hsmall : n ≤ 2 ^ 31) :
    (∀ a ∈ m.array.toList, a ∈ m.tried :: m.live) ∧ Ready dep held (m.grown n) := by
  obtain ⟨hmem,hk⟩ := (h.kept.malloc.grow (n := n) (h.kept.room.trans_le hn)).freed
  exact ⟨hmem,hk,h.graph.grow _ hsmall⟩

theorem reallocNodes_clean {n : ℕ} (h : ∀ a ∈ s.peg.array.toList, a ∈ s.tried :: s.live) :
    Clean (reallocNodes E n) s fun b t => b = false ∧ t = { s with tried := s.tried + 1 } ∨
      b = true ∧ t.peg.maxNodes = s.peg.maxNodes ∧ { t.store with max := n } = s.store.grown n := by
  refine Run.bind malloc_clean fun o t ht => ?_
  rcases ht with ⟨rfl,rfl⟩ | ⟨rfl,rfl⟩
  · exact Run.pure (Or.inl ⟨rfl,rfl⟩)
  refine Run.got ?_
  refine Run.bind (freeArray_clean h) fun _ u hu => Run.modified (Run.pure (Or.inr ⟨rfl,?_⟩))
  subst hu
  exact ⟨rfl,rfl⟩

theorem Keeps.grown (h : Graph dep held m.toTable) (n : ℕ) : Keeps dep dep m.toTable (m.grown n).toTable :=
  ⟨le_rfl,fun _ _ => rfl,fun _ pn hlt hi =>
    ⟨pn,(List.getElem?_append_left (hlt.trans_le h.fits)).trans hi,rfl,fun _ => rfl⟩⟩

/-- The array with one node more. -/
def Store.add (m : Store) (q : PegNode) : Store := { m with nodes := m.nodes.set m.num q, num := m.num + 1 }

def PegParser.withStore (s : PegParser) (m : Store) : PegParser :=
  { s with
    peg := { s.peg with nodes := m.nodes, array := m.array, maxNodes := m.max, numNodes := m.num, dynamic := m.dynamic },
    live := m.live, tried := m.tried }

/-- What `peg_node_new` has found: an array in order with room for a node, and the node, that nothing is known of. -/
structure New (dep : ℕ → ℕ) (held : List ℕ) (type : PegType) (m m' : Store) (p : PegNode) : Prop where
  ready : Ready dep held m'
  keeps : Keeps dep dep m.toTable m'.toTable
  num : m'.num = m.num
  room : m'.num < m'.nodes.length
  type : p.type = type
  next : p.next = -1
  subnode : p.subnode = -1
  status : p.status = 0
  blank : p.str.data.blocks = []

section Nodes

variable (htop : 2 ^ 31 + 1 < E.fuel)
include htop

theorem growNodes_builds (h : Ready dep held s.store) : Builds full (growNodes E) s fun b m =>
    (b = true → Ready dep held m ∧ Keeps dep dep s.store.toTable m.toTable ∧ m.num = s.peg.numNodes ∧ m.num < m.nodes.length) ∧
      (b = false → Loose full E.fuel (fun k => held.count k) m) := by
  have hroom : s.peg.nodes.length = s.peg.maxNodes := h.kept.room
  have hfits : s.peg.numNodes ≤ s.peg.nodes.length := h.graph.fits
  have hloose : Loose full E.fuel (fun k => held.count k) s.store := h.loose htop
  have hgrown : ∀ n, s.peg.maxNodes < n → n ≤ 2 ^ 31 → ∀ t : PegParser, t.store = s.store.grown n →
      Ready dep held t.store ∧ Keeps dep dep s.store.toTable t.store.toTable ∧ t.store.num = s.peg.numNodes ∧
        t.store.num < t.store.nodes.length := by
    intro n hlt hle t ht
    rw [ht]
    refine ⟨(h.grown (m := s.store) hlt.le hle).2,Keeps.grown h.graph n,rfl,?_⟩
    show s.peg.numNodes < (s.peg.nodes ++ List.replicate (n - s.peg.nodes.length) PegNode.fresh).length
    rw [List.length_append,List.length_replicate]
    omega
  have hmem : ∀ a ∈ s.peg.array.toList, a ∈ s.tried :: s.live := (h.grown (m := s.store) (n := 2 ^ 31) h.graph.small le_rfl).1
  refine Run.got ?_
  dsimp only
  split
  · rename_i hne
    exact Run.pure ⟨fun _ => ⟨h,Keeps.same,rfl,lt_of_le_of_ne hfits fun he => hne (he.trans hroom)⟩,nofun⟩
  rename_i hfull
  split
  · exact Run.pure ⟨nofun,fun _ => hloose⟩
  split
  · rename_i hzero
    refine Run.modified (Run.bind (reallocNodes_clean (s := { s with peg := { s.peg with maxNodes := 8 } }) hmem).run fun b t ht => ?_)
    rcases ht with ⟨rfl,rfl⟩ | ⟨rfl,-,ht⟩
    · refine Run.noted fun hev => Run.pure ⟨nofun,fun _ => ?_⟩
      obtain ⟨rk,hr,hlt,-⟩ := hloose
      exact ⟨rk,hr,hlt,fun hf => (hev.2 hf).elim⟩
    · exact Run.modified (Run.pure ⟨fun _ => hgrown 16 (by omega) (by decide) _ ht,nofun⟩)
  split
  · exact Run.pure ⟨nofun,fun _ => hloose⟩
  rename_i hzero hhalf
  refine Run.bind (reallocNodes_clean hmem).run fun b t ht => ?_
  rcases ht with ⟨rfl,rfl⟩ | ⟨rfl,hmax,ht⟩
  · exact Run.pure ⟨nofun,fun _ => Ready.loose ⟨h.kept.tried,h.graph⟩ htop⟩
  · refine Run.modified (Run.pure ⟨fun _ => hgrown (2 * s.peg.maxNodes) (by omega) (by omega) _ ?_,nofun⟩)
    rw [← ht,← hmax]
    rfl

theorem Builds.new {β : Type} {Q : β → Store → Prop} (h : Ready dep held s.store) {type : PegType} {line : ℕ} {k : Option ℕ → PegM β}
    (hno : ∀ t, Loose full E.fuel (fun k => held.count k) t.store → Builds full (k none) t Q)
    (hyes : ∀ (t : PegParser) m p, New dep held type s.store m p → Builds full (k (some m.num)) (t.withStore (m.add p)) Q) :
    Builds full (pegNodeNew E type line >>= k) s Q := by
  have hrun : Run (fun e => e.Regular ∧ (full → e.Backed)) (fun f => f ≠ .deep ∧ (full → f.Lexical)) (pegNodeNew E type line) s fun o t =>
      o = none ∧ Loose full E.fuel (fun k => held.count k) t.store ∨ ∃ m p, o = some m.num ∧ New dep held type s.store m p ∧
          t.store = m.add p := by
    refine Run.bind (growNodes_builds htop h) fun b t ht => ?_
    cases b with
    | false => exact Run.pure (Or.inl ⟨rfl,ht.2 rfl⟩)
    | true =>
      obtain ⟨hready,hkeeps,hnum,hlt⟩ := ht.1 rfl
      have hlt' : t.peg.numNodes < t.peg.nodes.length := hlt
      have hroom : t.peg.nodes.length = t.peg.maxNodes := hready.kept.room
      obtain ⟨p,hp⟩ : ∃ p, t.peg.nodes[t.peg.numNodes]? = some p := ⟨_,List.getElem?_eq_getElem hlt'⟩
      have hnone := hready.graph.empty hp le_rfl
      refine Run.got ?_
      dsimp only
      rw [if_neg (by omega)]
      refine Run.node_of hp ?_
      rw [if_neg (not_not.2 hnone)]
      refine Run.modified (Run.modified (Run.pure (Or.inr ⟨t.store,_,rfl,⟨hready,hkeeps,hnum,hlt,rfl,rfl,rfl,rfl,?_⟩,rfl⟩)))
      exact (hready.graph.filled _ p hp).spare hnone
  refine Run.bind hrun fun o t ht => ?_
  rcases ht with ⟨rfl,hl⟩ | ⟨m,p,rfl,hnew,hst⟩
  · exact hno t hl
  · have ht : t = t.withStore (m.add p) := hst ▸ rfl
    rw [ht]
    exact hyes t m p hnew

end Nodes

theorem Ready.add {l : List ℕ} (hk : Kept q.blocks m) (hg : Graph dep held m.toTable) (hlt : m.num < m.nodes.length) (d : ℕ)
    (hn : q.type ≠ .none)
    (hq : q.Filled) (hkids : ∀ j ∈ q.kids, j < 0) (hcount : ∀ k, k ≠ m.num → l.count k = held.count k)
    (hself : q.type = .identifier → q.status = l.count m.num ∧ 1 ≤ q.status ∧ q.status < 65536) :
    Ready (Function.update dep m.num d) l (m.add q) := by
  obtain ⟨p,hp⟩ : ∃ p, m.nodes[m.num]? = some p := ⟨_,List.getElem?_eq_getElem hlt⟩
  have hnone := hg.empty hp le_rfl
  refine ⟨hk.set hp (fun a => ?_) ?_,hg.add hp d hn hq hkids hcount hself⟩
  · rw [PegNode.blocks_none hnone,List.count_nil,Nat.zero_add,Nat.add_zero]
  · rw [PegNode.used_none hnone,PegNode.used_some hn]

theorem Keeps.add (d : ℕ) (q : PegNode) : Keeps dep (Function.update dep m.num d) m.toTable (m.add q).toTable :=
  ⟨Nat.le_succ _,fun _ hi => Function.update_of_ne hi.ne d dep,fun _ pn hlt hi =>
    ⟨pn,(List.getElem?_set_ne hlt.ne').trans hi,rfl,fun _ => rfl⟩⟩

/-! ## What is given up -/

theorem Loose.free {σ : ℕ → ℤ} (h : Loose full E.fuel σ s.store) (nn : ℤ) :
    Builds full (pegNodeFree E.fuel nn) s fun _ m => Loose full E.fuel (less σ nn) m := by
  obtain ⟨rk,hr,hlt,hb⟩ := h
  have hpos := (Nat.zero_le _).trans_lt (hlt 0)
  by_cases hf : full
  · refine (Clean.and (pegNodeFree_clean (hb hf) hr hpos fun _ => hlt _)
      (pegNodeFree_takes hr hpos fun _ => hlt _)).run.mono fun _ t ht => ?_
    exact ⟨rk,ht.2.1.ranked hr,hlt,fun _ => ht.1⟩
  · refine ((pegNodeFree_takes hr hpos fun _ => hlt _).weaken (fun _ _ => trivial) fun _ he =>
      ⟨he,fun h => absurd h hf⟩).mono fun _ t ht => ?_
    exact ⟨rk,ht.1.ranked hr,hlt,fun h => absurd h hf⟩

/-! ## Identifiers -/

theorem Kept.owned {a : ℕ} (h : Kept extra m) (hi : m.nodes[i]? = some p) (ha : a ∈ p.blocks) : a ∈ m.live := by
  have hl := h.live a
  have hle : p.blocks.count a ≤ total (fun pn => pn.blocks.count a) m.nodes := le_total_of_mem (f := fun pn : PegNode => pn.blocks.count a) hi
  have := List.count_pos_iff.2 ha
  exact List.count_pos_iff.1 (by omega)

theorem Ready.name (h : Ready dep held m) (hi : m.nodes[i]? = some p) (hp : p.type = .identifier) :
    ∃ id b, p.str = ⟨.block id b,some b.length⟩ ∧ id ∈ m.live := by
  obtain ⟨id,b,hs⟩ := (h.graph.filled i p hi).named hp
  refine ⟨id,b,hs,h.kept.owned hi ?_⟩
  rw [PegNode.blocks,PegNode.owns,hp,hs]
  exact List.mem_singleton_self id

theorem findIdIn_clean (h : Ready dep held s.store) (name : List UInt8) (is : List ℕ) (his : ∀ i ∈ is, i < s.peg.nodes.length) :
    Clean (findIdIn name is) s fun o t => t = s ∧ ∀ i, o = some i → ∃ pn, s.peg.nodes[i]? = some pn ∧ pn.type = .identifier := by
  induction is with
  | nil => exact Run.pure ⟨rfl,nofun⟩
  | cons i is ih =>
    have hrest := ih fun j hj => his j (List.mem_cons_of_mem i hj)
    obtain ⟨pn,hi⟩ : ∃ pn, s.peg.nodes[i]? = some pn := ⟨_,List.getElem?_eq_getElem (his i List.mem_cons_self)⟩
    refine Run.node_of hi ?_
    split
    · rename_i hp
      obtain ⟨id,b,hs,hlive⟩ := h.name hi hp
      refine Run.bind (P := fun _ t => t = s) ?_ fun r t ht => ?_
      · rw [sameName,hs]
        dsimp only
        split
        · exact Run.pure rfl
        · exact Run.got (by rw [if_pos (show id ∈ s.live from hlive)]; exact Run.pure rfl)
      · subst ht
        split
        · exact Run.pure ⟨rfl,fun j hj => by cases hj; exact ⟨pn,hi,hp⟩⟩
        · exact hrest
    · exact hrest

theorem findId_clean (h : Ready dep held s.store) (name : List UInt8) :
    Clean (findId name) s fun o t => t = s ∧ ∀ i, o = some i → ∃ pn, s.peg.nodes[i]? = some pn ∧ pn.type = .identifier :=
  Run.got (findIdIn_clean h name _ fun _ hi => (List.mem_range.1 hi).trans_eq h.kept.room.symm)

theorem Keeps.set {m m' : Table} {dep' : ℕ → ℕ} (h : Keeps dep dep' m m') (hi : m'.nodes[i]? = some p) (ht : q.type = p.type)
    (hor : m.num ≤ i ∨ p.type = .identifier) : Keeps dep dep' m { m' with nodes := m'.nodes.set i q } := by
  refine ⟨h.num,h.dep,fun j pn hlt hj => ?_⟩
  obtain ⟨pn1,hj1,ht1,he1⟩ := h.node j pn hlt hj
  rcases eq_or_ne i j with rfl | hne
  · rw [hi] at hj1
    cases hj1
    refine ⟨q,List.getElem?_set_self (List.getElem?_eq_some_iff.1 hi).1,ht.trans ht1,fun hnot => ?_⟩
    exact absurd (hor.resolve_left (not_le.2 hlt)) (ht1 ▸ hnot)
  · exact ⟨pn1,(List.getElem?_set_ne hne).trans hj1,ht1,he1⟩

theorem Ready.count (h : Ready dep held m) (hi : m.nodes[i]? = some p) (hp : p.type = .identifier) {l : List ℕ} {n : ℕ}
    (hheld : ∀ k ∈ l, k < m.num) (hcount : ∀ k, k ≠ i → l.count k = held.count k)
    (hself : n + held.count i = p.status + l.count i ∧ 1 ≤ n ∧ n < 65536) : Ready dep l (m.set i { p with status := n }) := by
  have hfilled := h.graph.filled i p hi
  have hown : p.owns = true := by rw [PegNode.owns,hp]
  refine ⟨h.kept.set hi (fun a => by rw [PegNode.blocks_status hp]) rfl,?_⟩
  refine h.graph.set (q := { p with status := n }) hi rfl ⟨hfilled.spare,fun _ => hfilled.set hown,hfilled.named⟩ (fun j hj => ?_) hheld
    (fun k hk => ?_) fun _ => hself
  · rw [show PegNode.kids { p with status := n } = p.kids from rfl,PegNode.kids_identifier hp] at hj
    cases hj
  · rw [hcount k hk]
    rfl

theorem Ready.release {dep0 : ℕ → ℕ} {m : Table} (h : Ready dep (i :: held) s.store) (hpos : 0 < E.fuel) (hi : s.peg.nodes[i]? = some p)
    (hp : p.type = .identifier) (hkeeps : Keeps dep0 dep m s.store.toTable) (hlast : p.status = 1 → i = m.num ∧ s.peg.numNodes = i + 1) :
    Clean (pegNodeFree E.fuel i) s fun _ t => Ready dep held t.store ∧ Keeps dep0 dep m t.store.toTable := by
  obtain ⟨f,hf⟩ := Nat.exists_eq_succ_of_ne_zero hpos.ne'
  have hlt : i < s.peg.nodes.length := (List.getElem?_eq_some_iff.1 hi).1
  have hroom : s.peg.nodes.length = s.peg.maxNodes := h.kept.room
  obtain ⟨hst,h1,h2⟩ := h.graph.counts i p hi hp
  have hmod : (p.status + 65535) % 65536 = p.status - 1 := by lia
  have hheld : ∀ k ∈ held, k < s.peg.numNodes := fun k hk => h.graph.held k (List.mem_cons_of_mem i hk)
  rw [hf,pegNodeFree]
  refine Run.got ?_
  rw [if_neg (by lia)]
  refine Run.node_of hi ?_
  rw [hp]
  dsimp only
  rw [hmod,← hp]
  refine Run.modified ?_
  have hown : p.owns = true := by rw [PegNode.owns,hp]
  have hfilled := h.graph.filled i p hi
  split
  · rename_i hpos'
    refine Run.pure ⟨h.count hi hp hheld (fun k hk => (List.count_cons_of_ne (Ne.symm hk)).symm) ⟨?_,hpos',by lia⟩,hkeeps.set hi rfl
        (Or.inr hp)⟩
    rw [List.count_cons_self]
    lia
  · rename_i hzero
    have hone : p.status = 1 := by lia
    obtain ⟨hlast,hnum⟩ := hlast hone
    -- the identifier has lost its only reference, and its slot is the next one again
    let q : PegNode := { p with status := p.status - 1, str := ⟨.null,some 0⟩, type := .none }
    have hq : q.Filled := ⟨fun _ => rfl,by rintro ⟨⟩,by rintro ⟨⟩⟩
    have hk : Kept (p.blocks ++ []) { s.store with nodes := s.peg.nodes.set i q, num := i } :=
      h.kept.set hi (fun a => by rw [PegNode.blocks_none (p := q) rfl,List.append_nil,List.count_nil]; exact Nat.add_comm _ _)
        (by rw [PegNode.used_some (by rw [hp]; rintro ⟨⟩),PegNode.used_none (p := q) rfl]; exact hnum.symm)
    rw [PegNode.blocks_owns hown] at hk
    obtain ⟨hmem,hfree⟩ := hk.freed
    have hi' : (s.peg.nodes.set i { p with status := p.status - 1 })[i]? = some { p with status := p.status - 1 } :=
        List.getElem?_set_self hlt
    refine (release_clean (s := s.withNode i { p with status := p.status - 1 }) hi' (hfilled.set hown) hmem
        (by show s.peg.numNodes ≠ 0; lia)).mono
      fun _ t ht => ?_
    have hst' : t.store = { s.store with nodes := s.peg.nodes.set i q, num := i, live := s.live.diff p.str.data.blocks } := by
      rw [ht]
      show Store.mk ⟨(s.peg.nodes.set i _).set i _,_,_,s.peg.numNodes - 1,_⟩ _ _ = _
      rw [List.set_set,hnum,Nat.add_sub_cancel]
      rfl
    rw [hst']
    refine ⟨⟨hfree,h.graph.remove hi hp hnum.symm hone rfl hq⟩,hlast.ge,hkeeps.dep,fun j pn hj hpn => ?_⟩
    obtain ⟨pn1,hj1,hor⟩ := hkeeps.node j pn hj hpn
    exact ⟨pn1,(List.getElem?_set_ne (show i ≠ j by lia)).trans hj1,hor⟩

end Catlib.Peg.Parser
