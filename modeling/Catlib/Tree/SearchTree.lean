import Catlib.Tree.Search

/-! # Search trees as node sets

`IsSearchTree P cmp h t S`: under the sentinel `t` the heap holds a tree on the nodes
`S`, sorted by `cmp`, of a shape that satisfies `P`. The balanced trees differ in `P`
alone; what an insertion, a replacement and a removal do to the set is said once here.
-/
namespace Catlib.Linked

variable {δ κ : Type*} {h h' : Heap δ κ} {t : Addr} {c : Spine δ} {S : Set Addr} {P : LTree δ → Prop}
  {cmp : κ → κ → ℤ}

def IsSearchTree (P : LTree δ → Prop) (cmp : κ → κ → ℤ) (h : Heap δ κ) (t : Addr) (S : Set Addr) : Prop :=
  ∃ T : LTree δ, Zip h t [] T ∧ Sorted cmp h.keys T.addrs ∧ P T ∧ (∀ x, x ∈ T.addrs ↔ x ∈ S) ∧
    ∀ x ∈ S, (h x).tree = t

/-- A node that is ready to be inserted: outside the tree and without children. -/
structure Fresh (h : Heap δ κ) (t : Addr) (S : Set Addr) (n : Addr) : Prop where
  ne_zero : n ≠ 0
  ne_root : n ≠ t
  out : n ∉ S
  left : (h n).pL = 0
  right : (h n).pR = 0

/-- Only the sentinel and the nodes of a set change. -/
def SameOff (h h' : Heap δ κ) (t : Addr) (S : Set Addr) : Prop := ∀ x, x ≠ t → x ∉ S → h' x = h x

theorem Keeps.sameOff {l : List Addr} (hk : Keeps h h' (t :: l)) (hS : ∀ x, x ∈ l → x ∈ S) : SameOff h h' t S :=
  fun x hx hxS => hk.out x fun hm => (List.mem_cons.1 hm).elim hx fun hm => hxS (hS x hm)

theorem SameOff.trans {h'' : Heap δ κ} (h1 : SameOff h h' t S) (h2 : SameOff h' h'' t S) : SameOff h h'' t S :=
  fun x hx hxS => (h2 x hx hxS).trans (h1 x hx hxS)

theorem isSearchTree_empty (ht : t ≠ 0) (hp : (h t).pP = 0) (hP : P .nil) : IsSearchTree P cmp h t ∅ :=
  ⟨.nil,⟨hp,trivial,by simpa using Ne.symm ht⟩,List.Pairwise.nil,hP,by simp,by simp⟩

theorem IsSearchTree.zero_notin (ht : IsSearchTree P cmp h t S) : 0 ∉ S := by
  obtain ⟨T,hz,-,-,hS,-⟩ := ht
  exact fun h0 => hz.ne_zero ((hS 0).mpr h0) rfl

theorem IsSearchTree.root_notin (ht : IsSearchTree P cmp h t S) : t ∉ S := by
  obtain ⟨T,hz,-,-,hS,-⟩ := ht
  exact fun hr => hz.ne_root ((hS t).mpr hr) rfl

theorem IsSearchTree.frame (ht : IsSearchTree P cmp h t S) (hf : ∀ x, x = t ∨ x ∈ S → h' x = h x) :
    IsSearchTree P cmp h' t S := by
  obtain ⟨T,hz,hs,hP,hS,htree⟩ := ht
  refine ⟨T,hz.congr ?_,hs.imp_of_mem ?_,hP,hS,?_⟩
  · intro x hx
    rcases List.mem_cons.mp hx with rfl | hx
    · exact hf x (Or.inl rfl)
    · exact hf x (Or.inr ((hS x).mp hx))
  · intro a b ha hb hab
    simpa only [Heap.keys, hf a (Or.inr ((hS a).mp ha)), hf b (Or.inr ((hS b).mp hb))] using hab
  · intro x hx
    rw [hf x (Or.inr hx),htree x hx]

theorem IsSearchTree.key_inj (hc : IsCmp cmp) (ht : IsSearchTree P cmp h t S) {a b : Addr} (ha : a ∈ S) (hb : b ∈ S)
    (he : cmp (h a).key (h b).key = 0) : a = b := by
  obtain ⟨T,-,hs,-,hS,-⟩ := ht
  by_contra hne
  have hp : T.addrs.Pairwise (fun a b => cmp (h a).key (h b).key ≠ 0 ∧ cmp (h b).key (h a).key ≠ 0) :=
    hs.imp (fun hab => ⟨hab.ne,((hc.swap _ _).mp hab).ne'⟩)
  have : Std.Symm (fun a b => cmp (h a).key (h b).key ≠ 0 ∧ cmp (h b).key (h a).key ≠ 0) := ⟨fun _ _ hab => hab.symm⟩
  exact (hp.forall ((hS a).mpr ha) ((hS b).mpr hb) hne).1 he

theorem IsSearchTree.findloc (hc : IsCmp cmp) (ht : IsSearchTree P cmp h t S) (k : κ) :
    ∃ fuel a d, findloc cmp h t k fuel = some (a,d) ∧
      (d ≠ .N ∧ (∀ x ∈ S, cmp k (h x).key ≠ 0) ∧ (a = t ∨ a ∈ S) ∨ d = .N ∧ a ∈ S ∧ cmp k (h a).key = 0) := by
  obtain ⟨T,hz,hs,-,hS,-⟩ := ht
  obtain ⟨⟨a,d⟩,hl,hf⟩ := findloc_spec hc hz hs k (Nat.lt_succ_self _)
  refine ⟨_,a,d,hl,?_⟩
  rcases hf.cases hc with ⟨hd,hk⟩ | ⟨hd,ha,hk⟩
  · refine Or.inl ⟨hd,fun x hx => hk x ((hS x).mpr hx),?_⟩
    rcases hf.dir_eq with ⟨-,c,rfl,hpd,-⟩ | ⟨hd',-⟩
    · have hm := Zip.slot_mem t c (.nil : LTree δ)
      rw [← hpd,List.mem_cons,hS] at hm
      exact hm
    · exact absurd hd' hd
  · exact Or.inr ⟨hd,(hS a).mp ha,hk⟩

theorem IsSearchTree.findloc_present (hc : IsCmp cmp) (ht : IsSearchTree P cmp h t S) {k : κ} {p : Addr} (hp : p ∈ S)
    (he : cmp k (h p).key = 0) : ∃ fuel, Linked.findloc cmp h t k fuel = some (p,.N) := by
  obtain ⟨fuel,a,d,hl,⟨-,hk,-⟩ | ⟨rfl,ha,hk⟩⟩ := ht.findloc hc k
  · exact absurd he (hk p hp)
  · obtain rfl := ht.key_inj hc ha hp (hc.eq_trans (hc.eq_swap hk) he)
    exact ⟨fuel,hl⟩

theorem IsSearchTree.findloc_congr (ht : IsSearchTree P cmp h t S) (hf : ∀ x, x = t ∨ x ∈ S → h' x = h x) (k : κ)
    (fuel : ℕ) : Linked.findloc cmp h' t k fuel = Linked.findloc cmp h t k fuel := by
  obtain ⟨T,hz,-,-,hS,-⟩ := ht
  exact Linked.findloc_congr cmp hz (fun x hx => hf x (by rwa [hS] at hx)) k fuel

theorem isSearchTree_insert {n : Addr} {T' : LTree δ} (hs : Sorted cmp h.keys (plug c (.nil : LTree δ)).addrs)
    (hS : ∀ x, x ∈ (plug c (.nil : LTree δ)).addrs ↔ x ∈ S) (htree : ∀ x ∈ S, (h x).tree = t)
    (hb : Below cmp h.keys (lefts c) (h n).key) (hy : Beyond cmp h.keys (rights c) (h n).key) (hn : n ∉ S)
    (hz' : Zip h' t [] T') (hP : P T') (hx' : T'.addrs = lefts c ++ n :: rights c) (hkey : h'.keys = h.keys)
    (htn : (h' n).tree = t) (hto : ∀ x, x ≠ n → (h' x).tree = (h x).tree) :
    IsSearchTree P cmp h' t (insert n S) := by
  refine ⟨T',hz',?_,hP,?_,?_⟩
  · rw [hx',hkey,sorted_append_cons]
    exact ⟨by simpa [addrs_plug] using hs,hb,hy⟩
  · intro x
    simp only [hx', ← hS, addrs_plug, LTree.addrs_nil, List.append_nil, List.mem_append, List.mem_cons,
      Set.mem_insert_iff]
    tauto
  · rintro x (rfl | hx)
    · exact htn
    · rw [hto x (by rintro rfl; exact hn hx),htree x hx]

theorem mem_plug_cut {l r : LTree δ} {a : Addr} {d : δ} (hd : (plug c (.node l a d r)).addrs.Nodup)
    (hS : ∀ x, x ∈ (plug c (.node l a d r)).addrs ↔ x ∈ S) (x : Addr) :
    x ∈ lefts c ++ l.addrs ++ r.addrs ++ rights c ↔ x ∈ S \ {a} := by
  simp only [addrs_plug, LTree.addrs_node, List.nodup_cons, List.mem_append, List.mem_cons, List.nodup_append,
    Set.mem_sdiff, Set.mem_singleton_iff, ← hS] at hd ⊢
  constructor
  · intro hx
    refine ⟨by tauto,?_⟩
    rintro rfl
    grind
  · tauto

section
variable {l r : LTree δ} {a : Addr} {d : δ} (hz : Zip h t c (.node l a d r))
  (hs : Sorted cmp h.keys (plug c (.node l a d r)).addrs) (hS : ∀ x, x ∈ (plug c (.node l a d r)).addrs ↔ x ∈ S)
  (htree : ∀ x ∈ S, (h x).tree = t)
include hz hs hS htree

theorem isSearchTree_replace (hc : IsCmp cmp) {n : Addr} {T' : LTree δ} (he : cmp (h n).key (h a).key = 0)
    (hn : n ∉ S) (hz' : Zip h' t [] T') (hP : P T') (hx' : T'.addrs = lefts c ++ l.addrs ++ n :: (r.addrs ++ rights c))
    (hkey : h'.keys = h.keys) (htn : (h' n).tree = t) (hto : ∀ x, x ≠ n → x ≠ a → (h' x).tree = (h x).tree) :
    IsSearchTree P cmp h' t (insert n (S \ {a})) := by
  have hd := hz.distinct
  simp only [List.nodup_cons] at hd
  refine ⟨T',hz',?_,hP,?_,?_⟩
  · rw [hkey,hx']
    rw [addrs_plug,LTree.addrs_node] at hs
    exact Sorted.replace hc (a := a) (by simpa using hs) he
  · intro x
    have hcut := mem_plug_cut hd.2.2 hS x
    simp only [hx', List.mem_append, List.mem_cons, Set.mem_insert_iff] at hcut ⊢
    rw [← hcut]
    tauto
  · rintro x (rfl | ⟨hx,hxa⟩)
    · exact htn
    · rw [hto x (by rintro rfl; exact hn hx) hxa,htree x hx]

theorem isSearchTree_erase {T' : LTree δ} (hz' : Zip h' t [] T') (hP : P T')
    (hx' : T'.addrs = lefts c ++ l.addrs ++ r.addrs ++ rights c) (hkey : h'.keys = h.keys)
    (hto : ∀ x, x ≠ a → (h' x).tree = (h x).tree) : IsSearchTree P cmp h' t (S \ {a}) := by
  have hd := hz.distinct
  simp only [List.nodup_cons] at hd
  refine ⟨T',hz',?_,hP,?_,fun x hx => by rw [hto x hx.2,htree x hx.1]⟩
  · rw [hkey,hx',List.append_assoc]
    rw [addrs_plug,LTree.addrs_node] at hs
    exact Sorted.erase (a := a) (by simpa using hs)
  · intro x
    rw [hx']
    exact mem_plug_cut hd.2.2 hS x

end

end Catlib.Linked
