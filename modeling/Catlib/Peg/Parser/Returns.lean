import Catlib.Peg.Parser.Grows

/-! # What the parser returns

Each function that parses leaves the array in order and holds one reference more, to the node that it
returns, or leaves it as it was, or gives up; then what is left can be freed by the sweep.
-/
namespace Catlib.Peg.Parser

open Traced (Run)

/-- What a function that parses makes of the array and the memory. -/
def Parsed (full : Prop) (top : ℕ) (dep : ℕ → ℕ) (held : List ℕ) (m : Table) (R : (ℕ → ℕ) → Table → ℕ → Prop) (r : Found) (m' : Store) :
    Prop :=
  match r with
  | .yes x => ∃ dep', Ready dep' (x.1 :: held) m' ∧ Keeps dep dep' m m'.toTable ∧ R dep' m'.toTable x.1
  | .no => ∃ dep', Ready dep' held m' ∧ Keeps dep dep' m m'.toTable
  | .fail _ => Loose full top (fun k => held.count k) m'

/-- An identifier, that was not there before if nothing else refers to it. -/
def IsId (m : Table) (_dep : ℕ → ℕ) (m' : Table) (i : ℕ) : Prop :=
  ∃ pn, m'.nodes[i]? = some pn ∧ pn.type = .identifier ∧ (pn.status = 1 → i = m.num ∧ m'.num = i + 1)

/-- A node that a primary of depth `d` can match. -/
def Matched (d : ℕ) (dep : ℕ → ℕ) (m : Table) (i : ℕ) : Prop := ∃ pn, m.nodes[i]? = some pn ∧ pn.type ≠ .none ∧ (pn.kids = [] ∨ d < dep i)

/-- A new node of depth `d` that another one can be linked behind. -/
def Last (type : PegType) (d n : ℕ) (dep : ℕ → ℕ) (m : Table) (i : ℕ) : Prop :=
  n ≤ i ∧ dep i = d ∧ ∃ pn, m.nodes[i]? = some pn ∧ pn.type = type ∧ pn.next = -1

/-- A sequence of depth `d`. -/
def Nested (d : ℕ) (dep : ℕ → ℕ) (m : Table) (i : ℕ) : Prop := dep i = d ∧ ∃ pn, m.nodes[i]? = some pn ∧ pn.type = .sequence

variable {full : Prop} {E : Env} {s t : PegParser} {dep : ℕ → ℕ} {held : List ℕ} {m m1 : Store} {m0 : Table} {p q : PegNode} {i : ℕ}
    {pc : PegCursor}
variable {R : (ℕ → ℕ) → Table → ℕ → Prop} {σ : ℕ → ℤ} {type : PegType}

section Rules

variable {α β : Type} {Q : β → Store → Prop}

theorem Run.update {Ok : Event → Prop} {F : Fault → Prop} {P : β → PegParser → Prop} {g : PegNode → PegNode} {k : Unit → PegM β}
    (hi : s.peg.nodes[i]? = some p) (h : Run Ok F (k ()) (s.withNode i (g p)) P) : Run Ok F (updNode i g >>= k) s P := by
  rw [Run,Traced.bind_apply,updNode_ok hi]
  exact h

theorem Builds.frees {k : Unit → PegM β} (h : Loose full E.fuel σ s.store) (nn : ℤ)
    (hk : ∀ t, Loose full E.fuel (less σ nn) t.store → Builds full (k ()) t Q) : Builds full (pegNodeFree E.fuel nn >>= k) s Q :=
  Run.bind (h.free nn) fun _ t ht => hk t ht

theorem less_le_self (σ : ℕ → ℤ) (nn : ℤ) (k : ℕ) : less σ nn k ≤ σ k := by
  rw [less]
  split <;> omega

theorem less_cons (held : List ℕ) (i k : ℕ) : less (fun k => (i :: held).count k) i k = held.count k := by
  rw [less,List.count_cons]
  simp only [Int.ofNat_inj, beq_iff_eq, eq_comm (a := i)]
  split_ifs <;> omega

theorem Parsed.failed (h : Loose full E.fuel σ s.store) (hle : ∀ k, σ k ≤ held.count k) :
    Builds full Parser.failed s (Parsed full E.fuel dep held m0 R) := Run.pure (h.mono hle)

theorem Loose.gives (h : Loose full E.fuel (fun k => (i :: held).count k) s.store) :
    Builds full (do pegNodeFree E.fuel i; Parser.failed) s (Parsed full E.fuel dep held m0 R) :=
  Builds.frees h _ fun _ hu => Parsed.failed hu fun k => (less_cons held i k).le

theorem spaced_builds {n : PegM Found} (h : Builds full n s (Parsed full E.fuel dep held m0 R)) :
    Builds full (spaced E n) s (Parsed full E.fuel dep held m0 R) := by
  refine Run.bind h fun r t ht => ?_
  rcases r with e | _ | ⟨nn,pc⟩
  · exact Run.pure ht
  · exact Run.pure ht
  · exact Builds.scan skipSpace_text fun _ => Run.pure ht

end Rules

/-! ## Nodes that are kept -/

theorem Last.keep {d n : ℕ} {dep' : ℕ → ℕ} {m m' : Table} (h : Last type d n dep m i) (hg : Graph dep held m) (hk : Keeps dep dep' m m')
    (ht : type ≠ .none) (ht' : type ≠ .identifier) : Last type d n dep' m' i := by
  obtain ⟨hn,hd,pn,hi,hp,hnext⟩ := h
  have hlt := (hg.dense i pn hi).2 (hp ▸ ht)
  obtain ⟨pn',hi',hp',he⟩ := hk.node i pn hlt hi
  have heq := he (hp ▸ ht')
  exact ⟨hn,(hk.dep i hlt).trans hd,pn',hi',by rw [heq,hp],by rw [heq,hnext]⟩

theorem Last.set {d n j : ℕ} (h : Last type d n dep m0 i) (hne : j ≠ i) : Last type d n dep { m0 with nodes := m0.nodes.set j q } i := by
  obtain ⟨hn,hd,pn,hi,hp⟩ := h
  exact ⟨hn,hd,pn,(List.getElem?_set_ne hne).trans hi,hp⟩

theorem Last.mono {d n n' : ℕ} (h : Last type d n dep m0 i) (hle : n' ≤ n) : Last type d n' dep m0 i := ⟨hle.trans h.1,h.2⟩

theorem Nested.keep {d : ℕ} {dep' : ℕ → ℕ} {m m' : Table} (h : Nested d dep m i) (hg : Graph dep held m) (hk : Keeps dep dep' m m') :
    Nested d dep' m' i := by
  obtain ⟨hd,pn,hi,hp⟩ := h
  have hlt := (hg.dense i pn hi).2 (by rw [hp]; nofun)
  obtain ⟨pn',hi',hp',-⟩ := hk.node i pn hlt hi
  exact ⟨(hk.dep i hlt).trans hd,pn',hi',hp'.trans hp⟩

theorem Nested.set {d j : ℕ} (h : Nested d dep m0 i) (hj : m0.nodes[j]? = some p) (hq : q.type = p.type) :
    Nested d dep { m0 with nodes := m0.nodes.set j q } i := by
  obtain ⟨hd,pn,hi,hp⟩ := h
  rcases eq_or_ne j i with rfl | hne
  · rw [hi] at hj
    cases hj
    exact ⟨hd,q,List.getElem?_set_self (List.getElem?_eq_some_iff.1 hi).1,hq.trans hp⟩
  · exact ⟨hd,pn,(List.getElem?_set_ne hne).trans hi,hp⟩

/-! ## New nodes -/

theorem New.get (h : New dep held type m1 m p) : (m.nodes.set m.num q)[m.num]? = some q := List.getElem?_set_self h.room

theorem Store.add_set (m : Store) (p q : PegNode) : (m.add p).set m.num q = m.add q := by
  rw [Store.add,Store.set,List.set_set]
  rfl

theorem Loose.add {top : ℕ} (h : Ready dep held m) (htop : 2 ^ 31 + 1 < top) (hroom : m.num < m.nodes.length) (hn : q.type ≠ .none)
    (hkids : q.kids = [])
    (hq : full → q.str.data = .null) : Loose full top (fun k => held.count k) (m.add q) := by
  have hl : Loose full top (fun k => held.count k) m := h.loose htop
  obtain ⟨rk,hr,hlt,hb⟩ := hl
  obtain ⟨p,hp⟩ : ∃ p, m.nodes[m.num]? = some p := ⟨_,List.getElem?_eq_getElem hroom⟩
  have hnone := h.graph.empty hp le_rfl
  refine ⟨rk,fun i pn hi j hj => ?_,hlt,fun hf => ⟨h.kept.set hp (fun a => ?_) ?_,fun i pn hi ho => ?_,fun k pn hk hpn hbl => ?_⟩⟩
  · rcases set_cases hi with ⟨-,rfl⟩ | ⟨-,hi⟩
    · rw [hkids] at hj
      cases hj
    · exact hr i pn hi j hj
  · rw [PegNode.blocks_none hnone,PegNode.blocks,hq hf]
    split <;> rfl
  · rw [PegNode.used_none hnone,PegNode.used_some hn]
  · rcases set_cases hi with ⟨-,rfl⟩ | ⟨-,hi⟩
    · rw [hq hf]
      rintro ⟨⟩
    · exact (hb hf).set i pn hi ho
  · rcases set_cases hk with ⟨-,rfl⟩ | ⟨-,hk⟩
    · refine absurd ?_ hbl
      rw [PegNode.blocks,hq hf]
      split <;> rfl
    · have hl := links_set hp q k
      rw [hkids,PegNode.kids_none hnone] at hl
      show _ ∧ _ ∧ (pn.status : ℤ) ≤ links (m.nodes.set m.num q) k + _
      rw [show links (m.nodes.set m.num q) k = links m.nodes k from hl]
      exact (hb hf).counts k pn hk hpn hbl

theorem Loose.lax {top : ℕ} {τ : ℕ → ℤ} (hf : ¬full) (h : Loose full top σ m) (hn : m1.nodes = m.nodes) : Loose full top τ m1 := by
  obtain ⟨rk,hr,hlt,-⟩ := h
  exact ⟨rk,hn ▸ hr,hlt,fun h => absurd h hf⟩

theorem New.string {top : ℕ} (h : New dep held type s.store m p) (ht : type = .literal ∨ type = .cls) (bytes : List UInt8)
    (n : Option ℕ) (d : ℕ) :
    Parsed full top dep held s.store.toTable (Matched d) (.yes (m.num,pc))
      (Store.add { m with tried := m.tried + 1, live := m.tried :: m.live } { p with str := ⟨.block m.tried bytes,n⟩ }) := by
  let q : PegNode := { p with str := ⟨.block m.tried bytes,n⟩ }
  have hq : q.type = type := h.type
  have hown : q.owns = true := by rcases ht with rfl | rfl <;> rw [PegNode.owns,hq]
  have hkids : q.kids = [] := by rcases ht with rfl | rfl <;> rw [PegNode.kids,hq]
  have hne : q.type ≠ .none := by rcases ht with rfl | rfl <;> rw [hq] <;> rintro ⟨⟩
  have hnot : q.type ≠ .identifier := by rcases ht with rfl | rfl <;> rw [hq] <;> rintro ⟨⟩
  have hk : Kept q.blocks { m with tried := m.tried + 1, live := m.tried :: m.live } := by
    rw [PegNode.blocks_owns hown]
    exact h.ready.kept.malloc
  have hready := Ready.add (l := m.num :: held) hk h.ready.graph h.room 0 hne ⟨fun h0 => absurd h0 hne,by rintro _ ⟨⟩,fun h0 =>
      absurd h0 hnot⟩
    (fun j hj => by rw [hkids] at hj; cases hj) (fun k hk => List.count_cons_of_ne (Ne.symm hk)) fun h0 => absurd h0 hnot
  exact ⟨_,hready,h.keeps.trans (Keeps.add 0 q),q,h.get,hne,Or.inl hkids⟩

section Functions

variable (htop : 2 ^ 31 + 1 < E.fuel)
include htop

theorem readId_builds (h : Ready dep held s.store) :
    Builds full (readId E pc) s (Parsed full E.fuel dep held s.store.toTable (IsId s.store.toTable)) := by
  refine Builds.scan rest_text fun str => ?_
  split
  · exact Run.pure ⟨dep,h,Keeps.same⟩
  refine Run.bind (findId_clean h _).run fun o t ht => ?_
  obtain ⟨rfl,hid⟩ := ht
  cases o with
  | some id =>
    obtain ⟨p,hi,hp⟩ := hid id rfl
    obtain ⟨hst,h1,h2⟩ := h.graph.counts id p hi hp
    have hlt : id < t.peg.numNodes := (h.graph.dense id p hi).2 (by rw [hp]; rintro ⟨⟩)
    refine Run.node_of hi (Run.noted fun hev => Run.update hi (Run.pure ?_))
    have hev' : p.status + 1 < 65536 := hev.1
    rw [Nat.mod_eq_of_lt hev']
    refine ⟨dep,h.count hi hp (fun k hk => ?_) (fun k hk => List.count_cons_of_ne (Ne.symm hk)) ⟨?_,Nat.succ_pos _,hev'⟩,
      Keeps.same.set hi rfl (Or.inr hp),_,List.getElem?_set_self (List.getElem?_eq_some_iff.1 hi).1,hp,fun hone => ?_⟩
    · rcases List.mem_cons.1 hk with rfl | hk
      · exact hlt
      · exact h.graph.held k hk
    · rw [List.count_cons_self]
      omega
    · have : p.status + 1 = 1 := hone
      omega
  | none =>
    refine Builds.new htop h (fun t ht => Run.modified (Run.pure ht)) fun t m p hnew => Run.node_of hnew.get (Builds.copy ?_ ?_)
    · -- the name cannot be copied: the identifier stays, without one, for the sweep
      refine Run.update hnew.get (Run.modified ?_)
      have hl : Loose full E.fuel (fun k => held.count k) (Store.add { m with tried := m.tried + 1 } { p with str := ⟨.null,p.str.len⟩ }) :=
        Loose.add ⟨hnew.ready.kept.tried,hnew.ready.graph⟩ htop hnew.room (by rw [hnew.type]; rintro ⟨⟩)
            (PegNode.kids_identifier hnew.type) fun _ => rfl
      rw [← Store.add_set _ p] at hl
      exact Builds.frees hl _ fun u hu => Parsed.failed hu (less_le_self _ _)
    · generalize str.take (1 + (str.tail.takeWhile isIdCont).length) = bytes
      let q : PegNode := { p with str := ⟨.block m.tried bytes,some bytes.length⟩, subnode := -1, status := 1 }
      have hq : q.type = .identifier := hnew.type
      have hown : q.owns = true := by rw [PegNode.owns,hq]
      have hready : Ready (Function.update dep m.num 0) (m.num :: held)
          (Store.add { m with tried := m.tried + 1, live := m.tried :: m.live } q) := by
        have hk : Kept q.blocks { m with tried := m.tried + 1, live := m.tried :: m.live } := by
          rw [PegNode.blocks_owns hown]
          exact hnew.ready.kept.malloc
        refine Ready.add hk hnew.ready.graph hnew.room 0
            (by rw [hq]; rintro ⟨⟩) ⟨fun h0 => (by cases hq.symm.trans h0),by rintro _ ⟨⟩,fun _ => ⟨_,_,rfl⟩⟩
          (fun j hj => ?_) (fun k hk => List.count_cons_of_ne (Ne.symm hk)) fun _ => ?_
        · rw [PegNode.kids_identifier hq] at hj
          cases hj
        · rw [List.count_cons_self,hnew.ready.graph.not_held le_rfl]
          exact ⟨rfl,le_rfl,show 1 < 65536 by decide⟩
      have hstore : (((m.add p).set m.num { p with str := ⟨.block m.tried bytes,some bytes.length⟩ }).set m.num q) = m.add q := by
        rw [Store.add_set,Store.add_set]
      refine Run.update hnew.get (Run.update (p := { p with str := ⟨.block m.tried bytes,some bytes.length⟩ }) ?_ (Run.pure ?_))
      · exact List.getElem?_set_self (hnew.room.trans_eq List.length_set.symm)
      · change Parsed full E.fuel dep held _ _ (.yes (m.num,_))
          { ((m.add p).set m.num { p with str := ⟨.block m.tried bytes,some bytes.length⟩ }).set m.num q with
            tried := m.tried + 1, live := m.tried :: m.live }
        rw [hstore]
        exact ⟨_,hready,hnew.keeps.trans (Keeps.add 0 q),q,hnew.get,hq,fun _ => ⟨hnew.num,rfl⟩⟩

theorem parseId_builds (h : Ready dep held s.store) :
    Builds full (parseId E pc) s (Parsed full E.fuel dep held s.store.toTable (IsId s.store.toTable)) :=
        spaced_builds (readId_builds htop h)

theorem parseIdAndNotArrow_builds (h : Ready dep held s.store) (d : ℕ) :
    Builds full (parseIdAndNotArrow E pc) s (Parsed full E.fuel dep held s.store.toTable (Matched d)) := by
  refine Run.bind (parseId_builds htop h) fun r t ht => ?_
  rcases r with e | _ | ⟨id,npc⟩
  · exact Run.pure ht
  · exact Run.pure ht
  · obtain ⟨dep',hready,hkeeps,p,hi,hp,hone⟩ := ht
    refine Builds.scan (stringMatch_text _) fun o => ?_
    cases o with
    | none => exact Run.pure ⟨dep',hready,hkeeps,p,hi,by rw [hp]; nofun,Or.inl (PegNode.kids_identifier hp)⟩
    | some npc' =>
      refine Run.bind (hready.release (by omega) hi hp hkeeps hone).run fun _ u hu => Run.pure ⟨dep',hu⟩

theorem readLiteral_builds (h : Ready dep held s.store) (d : ℕ) :
    Builds full (readLiteral E pc) s (Parsed full E.fuel dep held s.store.toTable (Matched d)) := by
  refine Builds.scan rest_text fun str => ?_
  dsimp only
  split
  · exact Run.pure ⟨dep,h,Keeps.same⟩
  refine Builds.scan (literalLen_text _ _ _ _) fun r => ?_
  rcases r with e | _ | len
  · exact Run.modified (Run.pure (h.loose htop))
  · exact Run.pure (h.loose htop)
  refine Builds.new htop h (fun t ht => Run.modified (Run.pure ht)) fun t m p hnew => Builds.malloc ?_ ?_
  · refine Run.modified (Run.noted fun hev => ?_)
    have hl : Loose full E.fuel (fun k => held.count k) (Store.add { m with tried := m.tried + 1 } p) :=
      Loose.add ⟨hnew.ready.kept.tried,hnew.ready.graph⟩ htop hnew.room (by rw [hnew.type]; nofun) (by rw [PegNode.kids,hnew.type])
        fun hf => (hev.2 hf).elim
    exact Builds.frees hl _ fun u hu => Parsed.failed hu (less_le_self _ _)
  · refine Builds.scan (literalBytes_text _ _) fun r => Run.update hnew.get (Run.pure ?_)
    have hs : Parsed full E.fuel dep held s.store.toTable (Matched d) (.yes (m.num,r.2.skip 1)) _ :=
        hnew.string (Or.inl rfl) r.1 (some (len - 1)) d
    rw [← Store.add_set _ p] at hs
    exact hs

theorem parseLiteral_builds (h : Ready dep held s.store) (d : ℕ) :
    Builds full (parseLiteral E pc) s (Parsed full E.fuel dep held s.store.toTable (Matched d)) :=
        spaced_builds (readLiteral_builds htop h d)

omit htop in
theorem classChars_found (input : List UInt8) (c : UInt8) (f : ℕ) :
    Run (fun _ => True) (fun _ => True) (classChars input c f pc) () fun r _ => r ≠ .no := by
  have hadd : ∀ pc set, Run (fun _ => True) (fun _ => True) (classAddChar input pc set) () fun r _ => r ≠ .no := by
    intro pc set
    refine Run.bind Run.any fun r _ _ => ?_
    rcases r with e | _ | ⟨c,npc⟩
    · exact Run.pure (by rintro ⟨⟩)
    · exact Run.pure (by rintro ⟨⟩)
    · refine Run.bind Run.any fun str _ _ => ?_
      split
      · exact Run.pure (by rintro ⟨⟩)
      · refine Run.bind Run.any fun r _ _ => ?_
        rcases r with e | _ | ⟨c,npc⟩ <;> exact Run.pure (by rintro ⟨⟩)
  have hset : ∀ f pc set, Run (fun _ => True) (fun _ => True) (classSet input f pc set) () fun r _ => r ≠ .no := by
    intro f
    induction f with
    | zero => exact fun _ _ => Run.fail trivial
    | succ f ih =>
      refine fun pc set => Run.bind Run.any fun str _ _ => ?_
      dsimp only
      split
      · exact Run.pure (by rintro ⟨⟩)
      · refine Run.bind (hadd pc set) fun r _ hr => ?_
        rcases r with e | _ | x
        · exact Run.pure (by rintro ⟨⟩)
        · exact absurd rfl hr
        · exact ih _ _
  rw [classChars]
  split
  · exact Run.pure (by rintro ⟨⟩)
  · exact hset _ _ _

theorem readClass_builds (h : Ready dep held s.store) (d : ℕ) :
    Builds full (readClass E pc) s (Parsed full E.fuel dep held s.store.toTable (Matched d)) := by
  refine Builds.scan rest_text fun str => ?_
  dsimp only
  split
  · exact Run.pure ⟨dep,h,Keeps.same⟩
  refine Builds.new htop h (fun t ht => Run.modified (Run.pure ht)) fun t m p hnew => ?_
  -- a class that is given up has a string that was not set
  have hl : ∀ u : PegParser, ¬full → u.peg.nodes = (m.add p).nodes → Loose full E.fuel (fun k => held.count k) u.store := fun u hf hu =>
    (Loose.add hnew.ready htop hnew.room (by rw [hnew.type]; nofun) (by rw [PegNode.kids,hnew.type]) fun h => absurd h hf).lax hf hu
  refine Builds.malloc (Run.noted fun hev => ?_) (Builds.scan_of (classChars_text _ _) (classChars_found _ _ _) fun r hr => ?_)
  · exact Builds.frees (hl _ (fun hf => hev.2 hf) rfl) _ fun u hu => Run.modified (Parsed.failed hu (less_le_self _ _))
  rcases r with e | _ | ⟨cset,npc⟩
  · exact Run.modified (Run.noted fun hev => Run.pure (hl _ (fun hf => hev.2 hf) rfl))
  · exact absurd rfl hr
  · refine Builds.scan rest_text fun str => ?_
    split
    · refine Run.modified (Run.noted fun hev => ?_)
      have hf : ¬full := fun hf => hev.2 hf
      refine Run.bind ((free_shallow _).weaken (fun _ _ => trivial) fun _ he => ⟨he,fun h => absurd h hf⟩) fun _ u hu => ?_
      obtain ⟨l,rfl⟩ := hu
      exact Builds.frees (hl _ hf rfl) _ fun u hu => Parsed.failed hu (less_le_self _ _)
    · refine Run.update hnew.get (Run.pure ?_)
      have hs : Parsed full E.fuel dep held s.store.toTable (Matched d) (.yes (m.num,npc.skip 1)) _ :=
          hnew.string (Or.inr rfl) cset (some 32) d
      rw [← Store.add_set _ p] at hs
      exact hs

theorem parseClass_builds (h : Ready dep held s.store) (d : ℕ) :
    Builds full (parseClass E pc) s (Parsed full E.fuel dep held s.store.toTable (Matched d)) := spaced_builds (readClass_builds htop h d)

/-! ## Code and labels -/

omit htop in
theorem parseCode_builds (h : Kept [] s.store) : Builds full (parseCode E pc) s fun r m =>
    m.toTable = s.store.toTable ∧ match r with
      | .yes x => Kept x.1.data.blocks m ∧ x.1.data ≠ .unset
      | _ => Kept [] m := by
  refine Builds.scan (codeEnd_text _) fun r => ?_
  rcases r with e | _ | npc
  · exact Run.modified (Run.pure ⟨rfl,h⟩)
  · exact Run.pure ⟨rfl,h⟩
  · refine Builds.scan rest_text fun str => Builds.copy (Run.pure ⟨rfl,h.tried⟩) ?_
    exact Builds.scan skipSpace_text fun _ => Run.pure ⟨rfl,h.malloc,nofun⟩

omit htop in
theorem parseActionLabel_builds (h : Kept [] s.store) : Builds full (parseActionLabel E pc) s fun r m =>
    m.toTable = s.store.toTable ∧ match r with
      | .yes x => Kept x.1.data.blocks m ∧ x.1.data ≠ .unset
      | _ => Kept [] m := by
  refine Builds.scan (stringMatch_text _) fun o => ?_
  cases o with
  | none => exact Run.pure ⟨rfl,h⟩
  | some npc =>
    refine Builds.scan rest_text fun str => ?_
    split
    · exact Run.pure ⟨rfl,h⟩
    · refine Builds.copy (Run.pure ⟨rfl,h.tried⟩) ?_
      exact Builds.scan skipSpace_text fun _ => Run.pure ⟨rfl,h.malloc,nofun⟩

omit htop in
theorem parseAction_builds (h : Kept [] s.store) : Builds full (parseAction E pc) s fun r m =>
    m.toTable = s.store.toTable ∧ match r with
      | .yes x => Kept (if x.1 = actNone then [] else x.2.1.data.blocks) m ∧ (x.1 ≠ actNone → x.2.1.data ≠ .unset)
      | _ => Kept [] m := by
  refine Run.bind (parseCode_builds h) fun r t ht => ?_
  rcases r with e | _ | ⟨r,npc⟩
  · exact Run.pure ht
  · refine Run.bind (parseActionLabel_builds (s := t) ht.2) fun r u hu => ?_
    rcases r with e | _ | ⟨r,npc⟩
    · exact Run.pure ⟨hu.1.trans ht.1,hu.2⟩
    · exact Run.pure ⟨hu.1.trans ht.1,hu.2,fun hne => absurd rfl hne⟩
    · exact Run.pure ⟨hu.1.trans ht.1,hu.2.1,fun _ => hu.2.2⟩
  · exact Run.pure ⟨ht.1,ht.2.1,fun _ => ht.2.2⟩

/-! ## Expressions -/

omit htop in
theorem Parsed.trans {top : ℕ} {dep' : ℕ → ℕ} {m1 : Table} {r : Found} (hk : Keeps dep dep' m0 m1)
    (h : Parsed full top dep' held m1 R r m) :
    Parsed full top dep held m0 R r m := by
  rcases r with e | _ | x
  · exact h
  · obtain ⟨dep'',hr,hk'⟩ := h
    exact ⟨dep'',hr,hk.trans hk'⟩
  · obtain ⟨dep'',hr,hk',hR⟩ := h
    exact ⟨dep'',hr,hk.trans hk',hR⟩

omit htop in
theorem firstOf_builds (l : List (PegM Found)) (hl : ∀ n ∈ l, ∀ (s : PegParser) (dep : ℕ → ℕ), Ready dep held s.store →
    Builds full n s (Parsed full E.fuel dep held s.store.toTable R)) (h : Ready dep held s.store) :
    Builds full (firstOf l) s (Parsed full E.fuel dep held s.store.toTable R) := by
  induction l generalizing s dep with
  | nil => exact Run.pure ⟨dep,h,Keeps.same⟩
  | cons n l ih =>
    refine Run.bind (hl n List.mem_cons_self s dep h) fun r t ht => ?_
    rcases r with e | _ | x
    · exact Run.pure ht
    · obtain ⟨dep',hr,hk⟩ := ht
      exact (ih (fun n hn => hl n (List.mem_cons_of_mem _ hn)) hr).mono fun _ _ hp => hp.trans hk
    · exact Run.pure ht

/-- A function that parses the expressions of a depth. -/
def Exprs (full : Prop) (E : Env) (d : ℕ) (f : PegCursor → PegM Found) : Prop :=
  ∀ (s : PegParser) (dep : ℕ → ℕ) (held : List ℕ) (pc : PegCursor), Ready dep held s.store →
    Builds full (f pc) s (Parsed full E.fuel dep held s.store.toTable (Nested d))

omit htop in
theorem New.ready_add (h : New dep held type m1 m p) (ht : type = .definition ∨ type = .sequence ∨ type = .primary) (d : ℕ) {l : List ℕ}
    (hl : ∀ k, k ≠ m.num → l.count k = held.count k) : Ready (Function.update dep m.num d) l (m.add p) := by
  have hne : p.type ≠ .none := by rcases ht with rfl | rfl | rfl <;> rw [h.type] <;> nofun
  have hid : p.type ≠ .identifier := by rcases ht with rfl | rfl | rfl <;> rw [h.type] <;> nofun
  have hown : p.owns = false := by rcases ht with rfl | rfl | rfl <;> simp [PegNode.owns, h.type, h.status, actNone]
  have hkids : p.kids = [-1,-1] := by rcases ht with rfl | rfl | rfl <;> rw [PegNode.kids,h.type,h.next,h.subnode]
  have hk : Kept p.blocks m := by
    rw [PegNode.blocks,hown]
    exact h.ready.kept
  refine Ready.add hk h.ready.graph h.room d hne ⟨fun h0 => absurd h0 hne,fun ho => ?_,fun h0 => absurd h0 hid⟩
      (fun j hj => ?_) hl fun h0 => absurd h0 hid
  · rw [hown] at ho
    cases ho
  · rw [hkids] at hj
    simp only [List.mem_cons, List.not_mem_nil, or_false, or_self] at hj
    rw [hj]
    decide

omit htop in
theorem New.primary (pfx sfx : PegAttr) {d mtch action : ℕ} {r : Raw} {u : Store} (h : New dep (mtch :: held) .primary m1 m p)
    (hm : Matched d dep m1.toTable mtch) (hu : u.toTable = (m.add p).toTable) (hk : Kept (if action = actNone then [] else r.data.blocks) u)
    (hset : action ≠ actNone → r.data ≠ .unset) :
    ∃ dep', Ready dep' (m.num :: held) (u.set m.num
        { p with next := -1, subnode := mtch, flag1 := pfx, flag2 := sfx, status := action, str := r }) ∧
      Keeps dep dep' m1.toTable (u.set m.num { p with next := -1, subnode := mtch, flag1 := pfx, flag2 := sfx, status := action, str := r }).toTable ∧
      dep' m.num = d := by
  let q : PegNode := { p with next := -1, subnode := mtch, flag1 := pfx, flag2 := sfx, status := action, str := r }
  have hp : p.type = .primary := h.type
  have hadd := h.ready_add (l := mtch :: held) (Or.inr (Or.inr rfl)) d fun k _ => rfl
  have hgraph : Graph (Function.update dep m.num d) (mtch :: held) u.toTable := hu ▸ hadd.graph
  have hi : u.nodes[m.num]? = some p := by
    rw [hu]
    exact h.get
  have hnum : u.num = m.num + 1 := congrArg Table.num hu
  have hpk : p.kids = [-1,-1] := by rw [PegNode.kids,hp,h.next,h.subnode]
  have hqk : q.kids = [(mtch : ℤ),-1] := by rw [PegNode.kids,hp]
  have hblocks : p.blocks = [] := by
    rw [PegNode.blocks,PegNode.owns,hp]
    simp [h.status, actNone]
  have hqb : q.blocks = if action = actNone then [] else r.data.blocks := by
    rw [PegNode.blocks,PegNode.owns,hp]
    simp only [decide_eq_true_eq]
    by_cases ha : action = actNone
    · rw [if_pos ha,if_neg (not_not.2 ha)]
    · rw [if_neg ha,if_pos ha]
  have hkeeps : Keeps dep (Function.update dep m.num d) m1.toTable u.toTable := hu ▸ h.keeps.trans (Keeps.add d p)
  obtain ⟨pm,hpm,hpn,hor⟩ := hm
  have hlt : mtch < m1.num := (h.ready.graph.held mtch List.mem_cons_self).trans_eq h.num
  obtain ⟨pm',hpm',hpt,-⟩ := hkeeps.node mtch pm hlt hpm
  have hunder : Under (Function.update dep m.num d) u.nodes m.num mtch := by
    refine ⟨pm',hpm',hpt ▸ hpn,hor.imp (PegNode.kids_eq_nil hpt).2 fun hlt' => Or.inl ?_⟩
    rw [Function.update_self,hkeeps.dep mtch hlt]
    exact hlt'
  have hheld : ∀ k ∈ m.num :: held, k < u.num := fun k hk => by
    have hmem : ∀ k ∈ held, k < m.num := fun k hk => h.ready.graph.held k (List.mem_cons_of_mem _ hk)
    rcases List.mem_cons.1 hk with rfl | hk
    · omega
    · have := hmem k hk
      omega
  refine ⟨_,⟨hk.set (q := q) hi (fun a => by rw [hqb,hblocks,List.count_nil,Nat.zero_add,Nat.add_zero]) rfl,?_⟩,
    hkeeps.set hi rfl (Or.inl h.num.ge),Function.update_self _ _ _⟩
  refine hgraph.set (q := q) hi rfl ⟨fun h0 => (by cases hp.symm.trans h0),fun ho => hset ?_,fun h0 => (by cases hp.symm.trans h0)⟩
      (fun j hj h0 => ?_) hheld
    (fun k hk => ?_) fun h0 => (by cases hp.symm.trans h0)
  · rw [PegNode.owns,hp] at ho
    exact of_decide_eq_true ho
  · rw [hqk] at hj
    rcases List.mem_cons.1 hj with rfl | hj
    · exact hunder
    · rw [List.mem_singleton.1 hj] at h0
      exact absurd h0 (by decide)
  · rw [hqk,hpk]
    simp only [List.count_cons, List.count_nil, beq_iff_eq]
    have h1 : ¬(-1 : ℤ) = (k : ℤ) := by omega
    have h2 : ((mtch : ℤ) = (k : ℤ)) = (mtch = k) := propext Int.ofNat_inj
    have h3 : ¬m.num = k := Ne.symm hk
    simp only [h1, h2, h3, if_false]
    omega

omit htop in
theorem kids_set (h : p.kids = [p.subnode,p.next]) (a b : ℤ) : PegNode.kids { p with subnode := a, next := b } = [a,b] := by
  rw [PegNode.kids] at h ⊢
  cases hp : p.type <;> rw [hp] at h <;> first | rfl | cases h

omit htop in
theorem count_neg {a b : ℤ} (ha : a < 0) (hb : b < 0) (k : ℕ) : [a,b].count (k : ℤ) = 0 := by
  refine List.count_eq_zero.2 fun hmem => ?_
  rcases List.mem_cons.1 hmem with h | h
  · omega
  · have := List.mem_singleton.1 h
    omega

omit htop in
theorem Ready.relink (h : Ready dep held m) (hi : m.nodes[i]? = some p) (hp : p.kids = [p.subnode,p.next]) {a b : ℤ}
    (habove : ∀ j ∈ [a,b], 0 ≤ j → Under dep m.nodes i j.toNat) {l : List ℕ} (hheld : ∀ k ∈ l, k < m.num)
    (hcount : ∀ k : ℕ, [a,b].count (k : ℤ) + l.count k = [p.subnode,p.next].count (k : ℤ) + held.count k) :
    Ready dep l (m.set i { p with subnode := a, next := b }) := by
  have hid : p.type ≠ .identifier := fun h0 => by
    rw [PegNode.kids_identifier h0] at hp
    cases hp
  have hfilled := h.graph.filled i p hi
  have hkids := kids_set hp a b
  refine ⟨h.kept.set hi (fun _ => rfl) rfl,h.graph.set
      (q := { p with subnode := a, next := b }) hi rfl ⟨hfilled.spare,hfilled.set,hfilled.named⟩
    (fun j hj => ?_) hheld (fun k _ => ?_) fun h0 => absurd h0 hid⟩
  · rw [hkids] at hj
    exact habove j hj
  · rw [hkids,hp]
    exact hcount k

omit htop in
theorem Ready.linkNext {nn : ℕ} (h : Ready dep (nn :: held) m) (hi : m.nodes[i]? = some p) (hp : p.kids = [p.subnode,p.next])
    (hnext : p.next = -1)
    (hunder : Under dep m.nodes i nn) : Ready dep held (m.set i { p with next := nn }) := by
  refine h.relink (a := p.subnode) (b := nn) hi hp (fun j hj h0 => ?_) (fun k hk => h.graph.held k (List.mem_cons_of_mem _ hk)) fun k => ?_
  · rcases List.mem_cons.1 hj with rfl | hj
    · exact h.graph.above i p hi _ (by rw [hp]; exact List.mem_cons_self) h0
    · rw [List.mem_singleton.1 hj]
      exact hunder
  · have h1 : ¬(-1 : ℤ) = (k : ℤ) := by omega
    rw [hnext]
    simp only [List.count_cons, List.count_nil, beq_iff_eq, Int.ofNat_inj, h1, if_false]
    omega

omit htop in
theorem Ready.linkSub {nn : ℕ} (h : Ready dep (nn :: held) m) (hi : m.nodes[i]? = some p) (hp : p.kids = [p.subnode,p.next])
    (hsub : p.subnode = -1)
    (hunder : Under dep m.nodes i nn) : Ready dep held (m.set i { p with subnode := nn }) := by
  refine h.relink (a := nn) (b := p.next) hi hp (fun j hj h0 => ?_) (fun k hk => h.graph.held k (List.mem_cons_of_mem _ hk)) fun k => ?_
  · rcases List.mem_cons.1 hj with rfl | hj
    · exact hunder
    · rw [List.mem_singleton.1 hj] at h0 ⊢
      exact h.graph.above i p hi _ (by rw [hp]; exact List.mem_cons_of_mem _ (List.mem_singleton_self _)) h0
  · have h1 : ¬(-1 : ℤ) = (k : ℤ) := by omega
    rw [hsub]
    simp only [List.count_cons, List.count_nil, beq_iff_eq, Int.ofNat_inj, h1, if_false]
    omega

variable {parseExpr : PegCursor → PegM Found} {d : ℕ} (hrec : Exprs full E (d + 1) parseExpr)
include hrec

theorem parseParenExpr_builds (h : Ready dep held s.store) :
    Builds full (parseParenExpr E parseExpr pc) s (Parsed full E.fuel dep held s.store.toTable (Matched d)) := by
  refine Builds.scan (stringMatch_text _) fun o => ?_
  cases o with
  | none => exact Run.pure ⟨dep,h,Keeps.same⟩
  | some npc =>
    refine Run.bind (hrec s dep held npc h) fun r t ht => ?_
    rcases r with e | _ | ⟨expr,npc⟩
    · exact Run.pure ht
    · obtain ⟨dep',hr,hk⟩ := ht
      exact Builds.frees (hr.loose htop) _ fun u hu => Run.modified (Parsed.failed hu (less_le_self _ _))
    · obtain ⟨dep',hr,hk,hd,pn,hi,hp⟩ := ht
      refine Builds.scan (stringMatch_text _) fun o => ?_
      cases o with
      | none => exact Builds.frees (hr.loose htop) _ fun u hu => Run.modified (Parsed.failed hu fun k => (less_cons _ _ _).le)
      | some npc => exact Run.pure ⟨dep',hr,hk,pn,hi,by rw [hp]; nofun,Or.inr (by rw [hd]; exact Nat.lt_succ_self d)⟩

theorem parsePrimary_builds (h : Ready dep held s.store) :
    Builds full (parsePrimary E parseExpr pc) s (Parsed full E.fuel dep held s.store.toTable (Last .primary d s.peg.numNodes)) := by
  refine Builds.scan (matchOne_text _ _ _) fun x => ?_
  obtain ⟨pfx,npc⟩ := x
  dsimp only
  have hfirst : Builds full (firstOf [parseIdAndNotArrow E npc,parseParenExpr E parseExpr npc,parseLiteral E npc,parseClass E npc]) s
      (Parsed full E.fuel dep held s.store.toTable (Matched d)) := by
    refine firstOf_builds _ (fun n hn s dep h => ?_) h
    simp only [List.mem_cons, List.not_mem_nil, or_false] at hn
    rcases hn with rfl | rfl | rfl | rfl
    · exact parseIdAndNotArrow_builds htop h d
    · exact parseParenExpr_builds htop hrec h
    · exact parseLiteral_builds htop h d
    · exact parseClass_builds htop h d
  refine Run.bind hfirst fun r t ht => ?_
  rcases r with e | _ | ⟨mtch,npc⟩
  · exact Builds.frees ht _ fun u hu => Parsed.failed hu (less_le_self _ _)
  · obtain ⟨dep',hr,hk⟩ := ht
    dsimp only
    split
    · exact Run.pure ⟨dep',hr,hk⟩
    · exact Run.modified (Run.pure (hr.loose htop))
  obtain ⟨dep',hr,hk,hm⟩ := ht
  refine Builds.new htop hr (fun u hu => Run.modified (Loose.gives (s := { u with err := .nomem }) hu)) fun t' m p hnew => Builds.scan
      (matchOne_text _ _ _) fun y => ?_
  obtain ⟨sfx,npc⟩ := y
  have hadd := hnew.ready_add (l := mtch :: held) (Or.inr (Or.inr rfl)) d fun _ _ => rfl
  refine Run.bind (parseAction_builds (s := t'.withStore (m.add p)) hadd.kept) fun r u hu => ?_
  have hloose : Kept [] u.store → Loose full E.fuel (fun k => (mtch :: held).count k) u.store := fun hk =>
    Ready.loose ⟨hk,hu.1 ▸ hadd.graph⟩ htop
  rcases r with e | _ | ⟨action,r,npc⟩
  · exact (hloose hu.2).gives
  · exact (hloose hu.2).gives
  · have hi : u.peg.nodes[m.num]? = some p := by
      rw [show u.peg.nodes = u.store.toTable.nodes from rfl,hu.1]
      exact hnew.get
    obtain ⟨dep2,hready,hkeeps,hdep⟩ := hnew.primary pfx sfx hm hu.1 hu.2.1 hu.2.2
    refine Run.update hi (Run.pure ⟨dep2,hready,hk.trans hkeeps,?_,hdep,_,List.getElem?_set_self
        (List.getElem?_eq_some_iff.1 hi).1,hnew.type,rfl⟩)
    exact hk.num.trans_eq hnew.num.symm

theorem seqLoop_builds {dep0 : ℕ → ℕ} {seq pri : ℕ} (f : ℕ) (h : Ready dep (seq :: held) s.store)
    (hkeeps : Keeps dep0 dep m0 s.store.toTable)
    (hseq : Last .sequence d m0.num dep s.store.toTable seq) (hpri : Last .primary d m0.num dep s.store.toTable pri) :
    Builds full (seqLoop E parseExpr seq f pri pc) s (Parsed full E.fuel dep0 held m0 (Last .sequence d m0.num)) := by
  induction f generalizing s dep pri pc with
  | zero => exact Run.fail ⟨nofun,fun _ => trivial⟩
  | succ f ih =>
    refine Run.bind (parsePrimary_builds htop hrec h) fun r t ht => ?_
    rcases r with e | _ | ⟨nn,npc⟩
    · exact Loose.gives ht
    · obtain ⟨dep',hr,hk⟩ := ht
      exact Run.pure ⟨dep',hr,hkeeps.trans hk,hseq.keep h.graph hk nofun nofun⟩
    · obtain ⟨dep',hr,hk,hnn⟩ := ht
      have hseq' := hseq.keep h.graph hk nofun nofun
      obtain ⟨hpri0,hprid,pp,hpp,hppt,hppn⟩ := hpri.keep h.graph hk nofun nofun
      obtain ⟨hnn0,hnnd,pn,hpn,hpnt,hpnn⟩ := hnn
      have hlt : pri < s.peg.numNodes := by
        obtain ⟨-,-,p,hp,hpt,-⟩ := hpri
        exact (h.graph.dense pri p hp).2 (by rw [hpt]; nofun)
      have hne : pri ≠ seq := fun he => by
        obtain ⟨-,-,ps,hps,hpst,-⟩ := hseq'
        subst he
        rw [hpp] at hps
        cases hps
        rw [hppt] at hpst
        cases hpst
      have hpri_nn : pri < nn := hlt.trans_le hnn0
      have hunder : Under dep' t.store.nodes pri nn := ⟨pn,hpn,by rw [hpnt]; nofun,Or.inr (Or.inr ⟨hprid.trans hnnd.symm,hpri_nn⟩)⟩
      refine Run.update hpp (ih (hr.linkNext hpp (by rw [PegNode.kids,hppt]) hppn hunder) ((hkeeps.trans hk).set hpp rfl (Or.inl hpri0))
          (hseq'.set hne) ?_)
      exact Last.set (Last.mono ⟨hnn0,hnnd,pn,hpn,hpnt,hpnn⟩ hkeeps.num) hpri_nn.ne

theorem parseSeq_builds (h : Ready dep held s.store) :
    Builds full (parseSeq E parseExpr pc) s (Parsed full E.fuel dep held s.store.toTable (Last .sequence d s.peg.numNodes)) := by
  refine Builds.new htop h (fun t ht => Run.modified (Run.pure ht)) fun t m p hnew => ?_
  have hadd := hnew.ready_add (l := m.num :: held) (Or.inr (Or.inl rfl)) d fun k hk => List.count_cons_of_ne (Ne.symm hk)
  have hkadd := hnew.keeps.trans (Keeps.add d p)
  have hseq : Last .sequence d s.peg.numNodes (Function.update dep m.num d) (m.add p).toTable m.num :=
    ⟨hnew.num.ge,Function.update_self _ _ _,p,hnew.get,hnew.type,hnew.next⟩
  have hkids : p.kids = [p.subnode,p.next] := by rw [PegNode.kids,hnew.type]
  have hkept : ∀ {dep' : ℕ → ℕ} {u : PegParser}, Keeps (Function.update dep m.num d) dep' (m.add p).toTable u.store.toTable →
      u.peg.nodes[m.num]? = some p := fun hk => by
    obtain ⟨pn,hi,-,he⟩ := hk.node m.num p (Nat.lt_succ_self _) hnew.get
    exact he (by rw [hnew.type]; rintro ⟨⟩) ▸ hi
  refine Run.bind (parsePrimary_builds (s := t.withStore (m.add p)) htop hrec hadd) fun r u hu => ?_
  rcases r with e | _ | ⟨pri,npc⟩
  · exact Loose.gives hu
  · obtain ⟨dep',hr,hk⟩ := hu
    have hi := hkept hk
    refine Run.noted fun hev => Run.update hi (Run.pure ?_)
    have hjunk : E.junk m.num < 0 := hev.1
    have hready : Ready dep' (m.num :: held) (u.store.set m.num { p with subnode := E.junk m.num, next := p.next }) := by
      refine hr.relink hi hkids (fun j hj h0 => ?_) hr.graph.held fun k => ?_
      · rcases List.mem_cons.1 hj with rfl | hj
        · exact absurd hjunk (not_lt.2 h0)
        · rw [List.mem_singleton.1 hj,hnew.next] at h0
          exact absurd h0 (by decide)
      · rw [hnew.subnode,hnew.next,count_neg hjunk (by decide),count_neg (by decide) (by decide)]
    obtain ⟨hs0,hsd,-⟩ := hseq.keep hadd.graph hk (by rintro ⟨⟩) (by rintro ⟨⟩)
    exact ⟨dep',hready,(hkadd.trans hk).set hi rfl (Or.inl hnew.num.ge),hs0,hsd,_,
      List.getElem?_set_self (List.getElem?_eq_some_iff.1 hi).1,hnew.type,hnew.next⟩
  · obtain ⟨dep',hr,hk,hpri⟩ := hu
    have hi := hkept hk
    obtain ⟨hs0,hsd,-⟩ := hseq.keep hadd.graph hk (by rintro ⟨⟩) (by rintro ⟨⟩)
    obtain ⟨hp0,hpd,pn,hpn,hpnt,hpnn⟩ := hpri
    have hlt : m.num < pri := hp0
    have hunder : Under dep' u.store.nodes m.num pri := ⟨pn,hpn,by rw [hpnt]; rintro ⟨⟩,Or.inr (Or.inr ⟨hsd.trans hpd.symm,hlt⟩)⟩
    refine Run.update hi (seqLoop_builds htop hrec _ (hr.linkSub hi hkids hnew.subnode hunder)
        ((hkadd.trans hk).set hi rfl (Or.inl hnew.num.ge)) ?_ ?_)
    · exact ⟨hs0,hsd,_,List.getElem?_set_self (List.getElem?_eq_some_iff.1 hi).1,hnew.type,hnew.next⟩
    · exact Last.set (Last.mono ⟨hp0,hpd,pn,hpn,hpnt,hpnn⟩ (hnew.num.ge.trans (Nat.le_succ _))) hlt.ne

theorem exprLoop_builds {dep0 : ℕ → ℕ} {expr snn : ℕ} (f : ℕ) (h : Ready dep (expr :: held) s.store)
    (hkeeps : Keeps dep0 dep m0 s.store.toTable)
    (hexpr : Nested d dep s.store.toTable expr) (hsnn : Last .sequence d m0.num dep s.store.toTable snn) :
    Builds full (exprLoop E parseExpr expr f snn pc) s (Parsed full E.fuel dep0 held m0 (Nested d)) := by
  induction f generalizing s dep snn pc with
  | zero => exact Run.fail ⟨nofun,fun _ => trivial⟩
  | succ f ih =>
    refine Builds.scan (stringMatch_text _) fun o => ?_
    cases o with
    | none => exact Run.pure ⟨dep,h,hkeeps,hexpr⟩
    | some npc =>
      refine Run.bind (parseSeq_builds htop hrec h) fun r t ht => ?_
      rcases r with e | _ | ⟨nn,npc⟩
      · exact Run.modified (Loose.gives (s := { t with eloc := npc }) ht)
      · obtain ⟨dep',hr,hk⟩ := ht
        exact Run.modified (Loose.gives (s := { t with err := .badExpr, eloc := npc }) (hr.loose htop))
      · obtain ⟨dep',hr,hk,hnn⟩ := ht
        obtain ⟨hs0,hsd,ps,hps,hpst,hpsn⟩ := hsnn.keep h.graph hk nofun nofun
        obtain ⟨hn0,hnd,pn,hpn,hpnt,hpnn⟩ := hnn
        have hlt : snn < nn := by
          obtain ⟨-,-,p,hp,hpt,-⟩ := hsnn
          exact ((h.graph.dense snn p hp).2 (by rw [hpt]; nofun)).trans_le hn0
        have hunder : Under dep' t.store.nodes snn nn := ⟨pn,hpn,by rw [hpnt]; nofun,Or.inr (Or.inr ⟨hsd.trans hnd.symm,hlt⟩)⟩
        refine Run.update hps (ih (hr.linkNext hps (by rw [PegNode.kids,hpst]) hpsn hunder) ((hkeeps.trans hk).set hps rfl (Or.inl hs0))
          ((hexpr.keep h.graph hk).set hps rfl) ?_)
        exact Last.set (Last.mono ⟨hn0,hnd,pn,hpn,hpnt,hpnn⟩ hkeeps.num) hlt.ne

omit hrec in
theorem parseExpr_builds (f d : ℕ) : Exprs full E d (Parser.parseExpr E f) := by
  induction f generalizing d with
  | zero => exact fun _ _ _ _ _ => Run.fail ⟨nofun,fun _ => trivial⟩
  | succ f ih =>
    intro s dep held pc h
    refine Run.bind (parseSeq_builds htop (ih (d + 1)) h) fun r t ht => ?_
    rcases r with e | _ | ⟨expr,npc⟩
    · exact Run.pure ht
    · exact Run.pure ht
    · obtain ⟨dep',hr,hk,hlast⟩ := ht
      obtain ⟨h0,hd,pn,hi,hp,hn⟩ := hlast
      exact exprLoop_builds htop (ih (d + 1)) E.fuel hr hk ⟨hd,pn,hi,hp⟩ ⟨h0,hd,pn,hi,hp,hn⟩

/-! ## Definitions -/

omit htop hrec in
theorem Ready.define (h : Ready dep held m) (hi : m.nodes[i]? = some p) (hp : p.type = .identifier) (a : ℤ) :
    Ready dep held (m.set i { p with subnode := a }) := by
  have hfilled := h.graph.filled i p hi
  obtain ⟨-,h1,h2⟩ := h.graph.counts i p hi hp
  have hkids : PegNode.kids { p with subnode := a } = [] := PegNode.kids_identifier hp
  refine ⟨h.kept.set hi (fun _ => rfl) rfl,h.graph.set (q := { p with subnode := a }) hi rfl ⟨hfilled.spare,hfilled.set,hfilled.named⟩
    (fun j hj => ?_) h.graph.held (fun k _ => ?_) fun _ => ⟨rfl,h1,h2⟩⟩
  · rw [hkids] at hj
    cases hj
  · rw [hkids,PegNode.kids_identifier hp]

/-- What `parse_def` makes of the array and the memory; a second definition of an identifier leaves a reference to it. -/
def Defined (full : Prop) (top : ℕ) (r : Found) (m : Store) : Prop :=
  match r with
  | .fail _ => ∃ σ : ℕ → ℤ, (∀ k, σ k ≤ 1) ∧ Loose full top σ m
  | _ => ∃ dep, Ready dep [] m

omit hrec in
theorem parseDef_builds (h : Ready dep [] s.store) : Builds full (parseDef E pc) s (Defined full E.fuel) := by
  have hnil : ∀ k : ℕ, (([] : List ℕ).count k : ℤ) ≤ 1 := fun k => by rw [List.count_nil]; decide
  have hone : ∀ id k : ℕ, ([id].count k : ℤ) ≤ 1 := fun id k => by exact_mod_cast List.count_le_length
  have hgives : ∀ (id : ℕ) (u : PegParser), Loose full E.fuel (fun k => [id].count k) u.store →
      Builds full (do pegNodeFree E.fuel id; failed) u (Defined full E.fuel) := fun id u hu =>
    Builds.frees hu _ fun v hv => Run.pure ⟨_,fun k => (less_le_self _ _ k).trans (hone id k),hv⟩
  refine Run.bind (parseId_builds htop h) fun r t ht => ?_
  rcases r with e | _ | ⟨id,npc⟩
  · exact Run.pure ⟨_,hnil,ht⟩
  · obtain ⟨dep',hr,-⟩ := ht
    exact Run.pure ⟨dep',hr⟩
  obtain ⟨dep1,hr,hk,p,hi,hp,hlast⟩ := ht
  refine Run.node_of hi ?_
  split
  · exact Run.modified (Run.pure ⟨_,hone id,hr.loose htop⟩)
  refine Builds.scan (stringMatch_text _) fun o => ?_
  cases o with
  | none => exact Run.bind (hr.release (by omega) hi hp hk hlast).run fun _ u hu => Run.pure ⟨dep1,hu.1⟩
  | some npc =>
    refine Run.bind (parseExpr_builds htop E.fuel 1 t dep1 [id] npc hr) fun r u hu => ?_
    rcases r with e | _ | ⟨expr,npc⟩
    · exact Run.modified (hgives id { u with eloc := npc } hu)
    · obtain ⟨dep2,hr2,-⟩ := hu
      exact Run.modified (hgives id { u with err := .badDef, eloc := npc } (hr2.loose htop))
    obtain ⟨dep2,hr2,hk2,hd,pe,hpe,hpet⟩ := hu
    refine Builds.new htop hr2 (fun v hv => ?_) fun v m q hnew => ?_
    · refine Builds.frees hv _ fun w hw => Builds.frees hw _ fun x hx => Run.modified (Run.pure ⟨_,fun k => ?_,hx⟩)
      simp only [less, List.count_cons, List.count_nil, beq_iff_eq, Int.ofNat_inj, eq_comm (a := k)]
      split_ifs <;> omega
    · have hadd := hnew.ready_add (l := [expr,id]) (Or.inl rfl) 0 fun _ _ => rfl
      have hkadd := hnew.keeps.trans (Keeps.add 0 q)
      have hlt : ∀ k ∈ [expr,id], k < m.num := hnew.ready.graph.held
      have hid := hlt id (by simp)
      have hexpr := hlt expr (by simp)
      obtain ⟨p',hi',hpt,-⟩ := (hk2.trans hkadd).node id p ((hr.graph.dense id p hi).2 (by rw [hp]; rintro ⟨⟩)) hi
      obtain ⟨pe',hpe',hpet',-⟩ := hkadd.node expr pe (hexpr.trans_eq hnew.num) hpe
      have hqk : q.kids = [q.subnode,q.next] := by rw [PegNode.kids,hnew.type]
      have hready : Ready (Function.update dep2 m.num 0) [] ((m.add q).set m.num { q with subnode := id, next := expr }) := by
        refine hadd.relink hnew.get hqk (fun j hj _ => ?_) (by rintro _ ⟨⟩) fun k => ?_
        · rcases List.mem_cons.1 hj with rfl | hj
          · exact ⟨p',hi',by rw [hpt,hp]; rintro ⟨⟩,Or.inl (PegNode.kids_identifier (hpt.trans hp))⟩
          · rw [List.mem_singleton.1 hj]
            refine ⟨pe',hpe',by rw [hpet',hpet]; rintro ⟨⟩,Or.inr (Or.inl ?_)⟩
            rw [Function.update_self,Int.toNat_natCast,Function.update_of_ne hexpr.ne,hd]
            exact Nat.one_pos
        · rw [hnew.subnode,hnew.next,count_neg (a := -1) (b := -1) (by decide) (by decide)]
          simp only [List.count_cons, List.count_nil, beq_iff_eq, Int.ofNat_inj]
          omega
      refine Run.update hnew.get (Run.update (p := p') ((List.getElem?_set_ne hid.ne').trans hi') (Run.pure ?_))
      exact ⟨_,hready.define ((List.getElem?_set_ne hid.ne').trans hi') (hpt.trans hp) m.num⟩

/-! ## Grammars -/

omit htop hrec in
theorem readName_clean (h : Ready dep held s.store) (hi : s.peg.nodes[i]? = some p) (hp : p.type = .identifier) (hs : t.live = s.live) :
    Clean (readName p.str) t fun _ u => u = t := by
  obtain ⟨id,_,hstr,hlive⟩ := h.name hi hp
  rw [readName,hstr]
  have hlive' : id ∈ t.live := hs ▸ hlive
  exact Run.got (by rw [if_pos hlive']; exact Run.pure rfl)

omit htop hrec in
theorem addUndefToken_clean (h : Ready dep held s.store) (hi : s.peg.nodes[i]? = some p) (hp : p.type = .identifier) :
    Clean (addUndefToken E i) s fun _ t => Ready dep held t.store ∧ t.peg.nodes.length = s.peg.nodes.length ∧ t.live = s.live := by
  refine Run.node_of hi ?_
  split
  · exact Run.pure ⟨h,rfl,rfl⟩
  refine Run.got ?_
  split
  · exact Run.modified (Run.pure ⟨h,rfl,rfl⟩)
  refine Run.bind (readName_clean h hi hp rfl) fun name t ht => ?_
  subst ht
  split
  · exact Run.pure ⟨h,rfl,rfl⟩
  split
  · exact Run.pure ⟨h,rfl,rfl⟩
  refine Run.got (Run.modified (Run.update hi (Run.pure ⟨h.define hi hp _,List.length_set,rfl⟩)))

omit htop hrec in
theorem checkIds_clean (h : Ready dep held s.store) (is : List ℕ) (his : ∀ i ∈ is, i < s.peg.nodes.length) :
    Clean (checkIds E is) s fun _ t => Ready dep held t.store := by
  induction is generalizing s with
  | nil => exact Run.pure h
  | cons i is ih =>
    obtain ⟨p,hi⟩ : ∃ p, s.peg.nodes[i]? = some p := ⟨_,List.getElem?_eq_getElem (his i List.mem_cons_self)⟩
    have hrest : ∀ j ∈ is, j < s.peg.nodes.length := fun j hj => his j (List.mem_cons_of_mem i hj)
    refine Run.node_of hi ?_
    split
    · rename_i hp
      refine Run.bind (addUndefToken_clean h hi hp.1) fun b t ht => ?_
      obtain ⟨hr,hlen,hlive⟩ := ht
      split
      · exact ih hr fun j hj => hlen ▸ hrest j hj
      refine Run.got ?_
      split
      · exact Run.pure hr
      refine Run.modified (Run.modified (Run.bind (readName_clean h hi hp.1 hlive) fun name u hu => ?_))
      subst hu
      exact Run.modified (Run.pure hr)
    · exact ih h hrest

omit htop hrec in
theorem pegFreeNodes_builds (h : Loose full E.fuel σ s.store) (hσ : ∀ k, σ k ≤ 1) :
    Builds full (pegFreeNodes E) s fun _ m => full → m.live = [] ∧ m.nodes = [] := by
  obtain ⟨rk,hr,hlt,hb⟩ := h
  by_cases hf : full
  · exact (pegFreeNodes_clean (hb hf) hr hlt hσ).run.mono fun _ _ h _ => h
  · exact ((pegFreeNodes_shallow hr hlt).weaken (fun _ _ => trivial) fun _ he => ⟨he,fun h => absurd h hf⟩).mono fun _ _ _ h => absurd h hf

omit hrec in
theorem defsLoop_builds (f : ℕ) (h : Ready dep [] s.store) : Builds full (defsLoop E f pc) s fun o m =>
    match o with
    | none => ∃ σ : ℕ → ℤ, (∀ k, σ k ≤ 1) ∧ Loose full E.fuel σ m
    | some _ => ∃ dep, Ready dep [] m := by
  induction f generalizing s dep pc with
  | zero => exact Run.fail ⟨nofun,fun _ => trivial⟩
  | succ f ih =>
    rw [defsLoop]
    split
    · refine Run.bind (parseDef_builds htop h) fun r t ht => ?_
      rcases r with e | _ | ⟨id,npc⟩
      · exact Run.pure ht
      · exact Run.pure ht
      · obtain ⟨dep',hr⟩ := ht
        exact ih hr
    · exact Run.pure ⟨dep,h⟩

omit htop hrec in
theorem pegStart_ready : Ready (fun _ => 0) [] pegStart.store := by
  refine ⟨⟨rfl,rfl,rfl,fun a => rfl,List.nodup_nil,nofun⟩,⟨le_rfl,Nat.zero_le _,?_,?_,?_,?_,nofun⟩⟩ <;> exact fun _ _ h => nomatch h

omit hrec in
theorem pegParse_builds : Builds full (pegParse E) pegStart fun v m => full → v ≤ 0 → m.live = [] ∧ m.nodes = [] := by
  have hsweep : ∀ (v : ℤ) (u : PegParser), (∃ σ : ℕ → ℤ, (∀ k, σ k ≤ 1) ∧ Loose full E.fuel σ u.store) →
      Builds full (do pegFreeNodes E; return v) u fun v m => full → v ≤ 0 → m.live = [] ∧ m.nodes = [] := fun v u ⟨σ,hσ,hl⟩ =>
    Run.bind (pegFreeNodes_builds hl hσ) fun _ w hw => Run.pure fun hf _ => hw hf
  have hready : ∀ (v : ℤ) (u : PegParser), (∃ dep, Ready dep [] u.store) →
      Builds full (do pegFreeNodes E; return v) u fun v m => full → v ≤ 0 → m.live = [] ∧ m.nodes = [] := fun v u ⟨dep,hr⟩ =>
    hsweep v u ⟨_,fun k => by rw [List.count_nil]; decide,hr.loose htop⟩
  refine Builds.scan skipSpace_text fun pc => Run.bind (parseDef_builds htop pegStart_ready) fun r t ht => ?_
  rcases r with e | _ | ⟨start,pc⟩
  · exact hsweep _ t ht
  · exact hready _ t ht
  obtain ⟨dep,hr⟩ := ht
  refine Run.modified (Run.bind (defsLoop_builds htop _ hr) fun o u hu => ?_)
  cases o with
  | none => exact hsweep _ u hu
  | some pc =>
    obtain ⟨dep',hr'⟩ := hu
    have hcheck : Clean (checkUnresolvedIds E) u fun _ w => Ready dep' [] w.store :=
      Run.got (checkIds_clean hr' _ fun i hi => (List.mem_range.1 hi).trans_eq hr'.kept.room.symm)
    refine Run.bind hcheck.run fun b w hw => ?_
    split
    · exact Run.modified (Run.pure fun _ h1 => absurd h1 (by decide))
    · exact hready _ w ⟨dep',hw⟩

end Functions

end Catlib.Peg.Parser

/-! # Runs of peg_parse

A run stays in its text as long as its steps do, it ends, and with its steps in order it has given back
all it got when it fails.
-/
namespace Catlib.Peg.Parser

open Traced

/-- The run on a text, from the start. -/
def pegRun (E : Env) : Ran Fault Event PegParser ℤ := pegParse E pegStart

/-- A text with an allocator that never fails and turns enough. -/
def Env.text (input : List UInt8) : Env := ⟨input,false,fun _ => false,fun _ => -1,2 ^ 31 + 2⟩

variable {E : Env}

/-- `peg_parse` reads behind the NUL exactly when a comment that it skips has no end of line or a quoted character of a
code block begins with the last byte. It ends in its turns, and in its depth if no empty sequence stores an index and no
count of an identifier goes over its field. -/
theorem pegParse_reads (hfuel : E.input.length < E.fuel) (hdepth : 2 ^ 31 + 1 < E.fuel) :
    ((pegRun E).result ≠ .error .read ↔ ∀ e ∈ (pegRun E).events, e.Inside) ∧ (pegRun E).result ≠ .error .fuel ∧
      ((∀ e ∈ (pegRun E).events, e.Regular) → (pegRun E).result ≠ .error .deep) := by
  have hquiet := pegParse_quiet hfuel
  have hread : (∀ e ∈ (pegRun E).events, e.Inside) → ∀ f, (pegRun E).result = .error f → ¬f.Lexical := fun hin f hf hl =>
    ((hquiet.scans True pegStart fun e he _ => hin e he).2 f hf hl).2 trivial
  have hstop : (¬∀ e ∈ (pegRun E).events, e.Inside) → (pegRun E).result = .error .read := fun hnot => by
    simp only [not_forall] at hnot
    obtain ⟨e,he,hout⟩ := hnot
    exact hquiet.stops pegStart ⟨e,he,hout⟩
  refine ⟨⟨fun hne => not_imp_comm.1 hstop hne,fun hin hr => hread hin _ hr trivial⟩,fun hr => ?_,fun hreg hr => ?_⟩
  · by_cases hin : ∀ e ∈ (pegRun E).events, e.Inside
    · exact hread hin _ hr trivial
    · exact nomatch hr.symm.trans (hstop hin)
  · have hbuilds : Builds False (pegParse E) pegStart _ := pegParse_builds hdepth
    exact ((hbuilds fun e he => ⟨hreg e he,nofun⟩).2 _ hr).1 rfl

theorem pegParse_reads_comment : (pegRun (.text [35,10])).result ≠ .error .read := by
  have hev : (pegRun (.text [35,10])).events = [.comment [10]] := rfl
  refine (pegParse_reads (E := .text [35,10]) (by decide) (by decide)).1.2 fun e he => ?_
  rw [hev] at he
  rw [List.mem_singleton.1 he]
  exact ⟨10,List.mem_singleton_self 10,rfl⟩

/-- The comment of `a<-'x'#` is skipped with the NUL. -/
theorem pegParse_reads_past : ¬∀ E : Env, E.input.length < E.fuel → 2 ^ 31 + 1 < E.fuel → (pegRun E).result ≠ .error .read := fun h =>
  h (.text [97,60,45,39,120,39,35]) (by decide) (by decide) rfl

/-- With all its steps in order the run comes back, and what it has not given to its caller it has freed. -/
theorem pegParse_frees (hfuel : E.input.length < E.fuel) (hdepth : 2 ^ 31 + 1 < E.fuel)
    (hsteps : ∀ e ∈ (pegRun E).events, e.Inside ∧ e.Regular ∧ e.Backed) :
    ∃ v t, (pegRun E).result = .ok (v,t) ∧ (v ≤ 0 → t.live = [] ∧ t.peg.nodes = []) := by
  have hrun : Builds True (pegParse E) pegStart _ := pegParse_builds hdepth
  have hbuilds := hrun fun e he => ⟨(hsteps e he).2.1,fun _ => (hsteps e he).2.2⟩
  have hscans := (pegParse_quiet hfuel).scans True pegStart fun e he _ => (hsteps e he).1
  cases hr : (pegRun E).result with
  | error f =>
    exact absurd trivial (hscans.2 f hr ((hbuilds.2 f hr).2 trivial)).2
  | ok x =>
    obtain ⟨v,t⟩ := x
    exact ⟨v,t,rfl,fun hv => hbuilds.1 v t hr trivial hv⟩

/-- The `&` of `a<-&` has nothing behind it. -/
theorem pegParse_frees_primary : ∃ v t, (pegRun (.text [97,60,45,38])).result = .ok (v,t) ∧ (v ≤ 0 → t.live = [] ∧ t.peg.nodes = []) := by
  have hev : (pegRun (.text [97,60,45,38])).events = [] := rfl
  refine pegParse_frees (E := .text [97,60,45,38]) (by decide) (by decide) fun e he => ?_
  rw [hev] at he
  cases he

/-- The class of `a<-'x'[` has no end, and its node is freed with a string that was not set. -/
theorem pegParse_frees_unset : ¬∀ E : Env, E.input.length < E.fuel → 2 ^ 31 + 1 < E.fuel →
    ∃ v t, (pegRun E).result = .ok (v,t) ∧ (v ≤ 0 → t.live = [] ∧ t.peg.nodes = []) := fun h => by
  obtain ⟨v,t,hr,-⟩ := h (.text [97,60,45,39,120,39,91]) (by decide) (by decide)
  have hun : (pegRun (.text [97,60,45,39,120,39,91])).result = .error .unset := rfl
  exact nomatch hun.symm.trans hr

end Catlib.Peg.Parser
