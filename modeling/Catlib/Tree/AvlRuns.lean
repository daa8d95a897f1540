import Catlib.Tree.AvlRemove
import Catlib.Tree.SearchTree

/-! # Every run of the AVL tree

A run starts from `avl_init` and applies `avl_ins` of initialised nodes with absent keys
and `avl_rem` in any order; between two operations the client may do whatever it likes
with nodes that are not in the tree.
-/
namespace Catlib.Avl
open Linked

variable {κ : Type} {cmp : κ → κ → ℤ} {h h' : AvlHeap κ} {t : Addr} {S : Set Addr} {c : Spine ℤ}

/-! ## Budgets -/

theorem avlIns_grows {k m : ℕ} (hkm : k ≤ m) (n loc : Addr) (dir : Dir) :
    Grows (avlIns cmp h t n loc dir k) (avlIns cmp h t n loc dir m) := by
  refine Grows.ite (.refl _) (Grows.bind (locate_grows cmp h t _ loc dir hkm) ?_)
  rintro ⟨p,dir⟩
  refine Grows.ite (.refl _) (Grows.bind ?_ (fun _ => .refl _))
  exact Grows.bind (.refl _) (fun _ => Grows.bind (.refl _) (fun _ => loop_grows hkm _))

theorem avlRem_grows {k m : ℕ} (hkm : k ≤ m) (a : Addr) : Grows (avlRem h a k) (avlRem h a m) := by
  refine Grows.bind (.refl _) (fun a => Grows.ite (.refl _) (Grows.bind ?_ (fun s => ?_)))
  · exact Grows.bind (findrep_grows h a hkm) (fun _ => .refl _)
  · exact loop_grows hkm _

/-! ## One operation -/

/-- `S` is the node set of an AVL search tree under the sentinel `t`. The in-order keys
increase, every balance field is the height of the right subtree minus that of the left
one and lies between -1 and 1, and every child points back at its slot. -/
abbrev IsAvlTree (cmp : κ → κ → ℤ) (h : AvlHeap κ) (t : Addr) (S : Set Addr) : Prop :=
  IsSearchTree IsAvl cmp h t S

theorem isAvlTree_init {k : κ} (ht : t ≠ 0) : IsAvlTree cmp (avlInit h t k) t ∅ :=
  isSearchTree_empty ht (by simp [avlInit, avlNinit]) trivial

theorem avlLkup_spec (hc : IsCmp cmp) (ht : IsAvlTree cmp h t S) (k : κ) :
    ∃ fuel a, avlLkup cmp h t k fuel = some a ∧
      (a = 0 ∧ (∀ x ∈ S, cmp k (h x).key ≠ 0) ∨ a ∈ S ∧ cmp k (h a).key = 0) := by
  obtain ⟨fuel,a,d,hl,⟨hd,hk,-⟩ | ⟨rfl,ha⟩⟩ := ht.findloc hc k
  · exact ⟨fuel,0,by simp [avlLkup, avlFindloc, hl, hd],Or.inl ⟨rfl,hk⟩⟩
  · exact ⟨fuel,a,by simp [avlLkup, avlFindloc, hl],Or.inr ha⟩

theorem avlIns_spec (hc : IsCmp cmp) (ht : IsAvlTree cmp h t S) {n loc : Addr} {dir : Dir} (hn : Fresh h t S n)
    (hb0 : (h n).dat = 0) (habs : ∀ x ∈ S, cmp (h n).key (h x).key ≠ 0) (hl : LocOk cmp h t (h n).key loc dir) :
    ∃ fuel h', avlIns cmp h t n loc dir fuel = some (h',0) ∧ h'.keys = h.keys ∧ IsAvlTree cmp h' t (insert n S) := by
  obtain ⟨T,hz,hs,hT,hS,htree⟩ := ht
  have hlt := Nat.lt_succ_self T.addrs.length
  obtain ⟨⟨p,d⟩,hloc,hf⟩ := locate_spec hc hz hs hl hlt
  have hnT : n ∉ 0 :: t :: T.addrs := by
    simp only [List.mem_cons, not_or, hS]
    exact ⟨hn.ne_zero,hn.ne_root,hn.out⟩
  rcases hf.dir_eq with ⟨hN,c,rfl,hpd,hb,hy⟩ | ⟨rfl,c,l,e,r,rfl,hk⟩
  · rw [hpd] at hloc
    obtain ⟨h',T',hr,hz',hT',hx',htn,hkey,hto⟩ :=
      avlIns_absent (zip_top.mpr hz) hT hnT hn.left hn.right hb0 hlt hloc
    exact ⟨_,h',hr,hkey,isSearchTree_insert hs hS htree hb hy hn.out hz' hT' hx' hkey htn hto⟩
  · exact absurd hk (habs p ((hS p).mp (by simp [addrs_plug])))

theorem avlRem_isAvlTree (ht : IsAvlTree cmp h t S) {a : Addr} (ha : a ∈ S) :
    ∃ fuel h', avlRem h a fuel = some h' ∧ h'.keys = h.keys ∧ IsAvlTree cmp h' t (S \ {a}) := by
  obtain ⟨T,hz,hs,hT,hS,htree⟩ := ht
  have ht0 : (h a).tree ≠ 0 := by
    rw [htree a ha]
    exact hz.root_ne_zero
  obtain ⟨c,l,d,r,rfl⟩ := exists_plug ((hS a).mpr ha)
  obtain ⟨h',T',hr,hz',hT',hx',hkey,hto⟩ := avlRem_spec (zip_top.mpr hz) hT ht0 (Nat.lt_succ_self _)
  exact ⟨_,h',hr,hkey,isSearchTree_erase (zip_top.mpr hz) hs hS htree hz' hT' hx' hkey hto⟩

/-! ## Runs -/

/-- The states of a tree at the sentinel `t` under `avl_init`, `avl_ins` of initialised
nodes with absent keys, `avl_rem` and client writes outside the tree, with the nodes that
were inserted and not removed. -/
inductive AvlRun (cmp : κ → κ → ℤ) (t : Addr) : AvlHeap κ → Set Addr → Prop
  | init {h : AvlHeap κ} {k : κ} (ht : t ≠ 0) : AvlRun cmp t (avlInit h t k) ∅
  | client {h h' : AvlHeap κ} {S : Set Addr} (hr : AvlRun cmp t h S)
      (hf : ∀ x, x = t ∨ x ∈ S → h' x = h x) : AvlRun cmp t h' S
  | ins {h h' : AvlHeap κ} {S : Set Addr} {n loc p : Addr} {dir : Dir} {fuel : ℕ} (hr : AvlRun cmp t h S)
      (hn : Fresh h t S n) (hb : (h n).dat = 0) (habs : ∀ x ∈ S, cmp (h n).key (h x).key ≠ 0)
      (hl : LocOk cmp h t (h n).key loc dir) (hi : avlIns cmp h t n loc dir fuel = some (h',p)) :
      AvlRun cmp t h' (insert n S)
  | rem {h h' : AvlHeap κ} {S : Set Addr} {a : Addr} {fuel : ℕ} (hr : AvlRun cmp t h S) (ha : a ∈ S)
      (hd : avlRem h a fuel = some h') : AvlRun cmp t h' (S \ {a})

theorem avlRun_isAvlTree (hc : IsCmp cmp) (hr : AvlRun cmp t h S) : IsAvlTree cmp h t S := by
  induction hr with
  | init ht => exact isAvlTree_init ht
  | client _ hf ih => exact ih.frame hf
  | ins _ hn hb habs hl hi ih =>
    obtain ⟨m,h',hi',-,ht⟩ := avlIns_spec hc ih hn hb habs hl
    cases Grows.agree (fun _ _ hkm => avlIns_grows hkm _ _ _) hi hi'
    exact ht
  | rem _ ha hd ih =>
    obtain ⟨m,h',hd',-,ht⟩ := avlRem_isAvlTree ih ha
    cases Grows.agree (fun _ _ hkm => avlRem_grows hkm _) hd hd'
    exact ht

/-- After every operation of every run the tree is an AVL search tree on exactly the live
nodes, and every legal next operation comes back. -/
theorem avlRun_spec (hc : IsCmp cmp) (hr : AvlRun cmp t h S) :
    IsAvlTree cmp h t S ∧
    (∀ n loc dir, Fresh h t S n → (h n).dat = 0 → (∀ x ∈ S, cmp (h n).key (h x).key ≠ 0) →
      LocOk cmp h t (h n).key loc dir → ∃ fuel h', avlIns cmp h t n loc dir fuel = some (h',0)) ∧
    ∀ a ∈ S, ∃ fuel h', avlRem h a fuel = some h' := by
  have ht := avlRun_isAvlTree hc hr
  refine ⟨ht,fun n loc dir hn hb habs hl => ?_,fun a ha => ?_⟩
  · obtain ⟨fuel,h',hi,-⟩ := avlIns_spec hc ht hn hb habs hl
    exact ⟨fuel,h',hi⟩
  · obtain ⟨fuel,h',hd,-⟩ := avlRem_isAvlTree ht ha
    exact ⟨fuel,h',hd⟩

/-- A sentinel at 1 and an initialised node. -/
def sampleHeap : AvlHeap ℤ := avlNinit (avlInit (fun _ => ⟨0,0,0,.L,0,0,0⟩) 1 0) 3 9

def sampleIns : Option (AvlHeap ℤ × Addr) := avlIns (fun a b => a - b) sampleHeap 1 3 0 .N 2

theorem sampleHeap_run : AvlRun (fun a b => a - b) 1 sampleHeap ∅ := by
  refine .client (.init (h := fun _ => ⟨0,0,0,.L,0,0,0⟩) (k := 0) (by decide)) ?_
  rintro x (rfl | hx)
  · rfl
  · exact absurd hx (Set.notMem_empty x)

theorem sampleIns_isSome : sampleIns.isSome := by decide

theorem sampleIns_eq : avlIns (fun a b => a - b) sampleHeap 1 3 0 .N 2 = some (sampleIns.get sampleIns_isSome) :=
  (Option.some_get sampleIns_isSome).symm

theorem avlRun_spec_sample :
    IsAvlTree (fun a b => a - b) (sampleIns.get sampleIns_isSome).1 1 (insert 3 ∅) :=
  (avlRun_spec isCmp_sub (.ins sampleHeap_run ⟨by decide,by decide,by simp,rfl,rfl⟩ rfl (by simp) (Or.inl rfl)
    sampleIns_eq)).1

end Catlib.Avl

/-! # Replacing a node of an AVL tree

`avl_ins` of a node with a key that is there hands the children and the slot of the old node to the
new one, but not its balance field: the new node keeps the zero of `avl_ninit`.
-/
namespace Catlib.Linked

variable {δ κ : Type*} {h : Heap δ κ} {root : Addr}

theorem Holds.unique {t t' : LTree δ} {s s' : Addr × Dir} (hs : Holds h t s) (hs' : Holds h t' s') (hp : t.ptr = t'.ptr)
    (h0 : 0 ∉ t.addrs) (h0' : 0 ∉ t'.addrs) : t = t' := by
  induction t generalizing t' s s' with
  | nil =>
    cases t' with
    | nil => rfl
    | node l a d r =>
      have ha : (0 : Addr) = a := hp
      exact absurd (by simp [← ha]) h0'
  | node l a d r ihl ihr =>
    cases t' with
    | nil =>
      have ha : a = 0 := hp
      exact absurd (by simp [ha]) h0
    | node l' a' d' r' =>
      obtain rfl : a = a' := hp
      obtain ⟨-,-,h3,h4,h5,hl,hr⟩ := hs
      obtain ⟨-,-,h3',h4',h5',hl',hr'⟩ := hs'
      simp only [LTree.addrs_node, List.mem_append, List.mem_cons, not_or] at h0 h0'
      rw [ihl hl hl' (h4.symm.trans h4') h0.1 h0'.1,ihr hr hr' (h5.symm.trans h5') h0.2.2 h0'.2.2,← h3,← h3']

theorem Zip.unique {t t' : LTree δ} (hz : Zip h root [] t) (hz' : Zip h root [] t') : t = t' := by
  have h0 : ∀ {t : LTree δ}, Zip h root [] t → 0 ∉ t.addrs := fun hz h => by
    have hd := hz.distinct
    rw [plug_nil,List.nodup_cons,List.mem_cons,not_or] at hd
    exact hd.1.2 h
  exact hz.sub.unique hz'.sub (hz.above.symm.trans hz'.above) (h0 hz) (h0 hz')

end Catlib.Linked

namespace Catlib.Avl
open Linked

variable {κ : Type} {cmp : κ → κ → ℤ} {h h' : AvlHeap κ} {t n p : Addr} {S : Set Addr} {c : Spine ℤ} {l r : LTree ℤ} {d : ℤ}

theorem isAvl_plug_dat (hT : IsAvl (plug c (.node l p d r))) (e : ℤ) : IsAvl (plug c (.node l n e r)) ↔ e = d := by
  obtain ⟨⟨hl,hr,hd,h1,h2⟩,hc⟩ := isAvl_plug.1 hT
  rw [isAvl_plug]
  refine ⟨fun h => h.1.2.2.1.trans hd.symm,?_⟩
  rintro rfl
  exact ⟨⟨hl,hr,hd,h1,h2⟩,hc⟩

theorem avlIns_present (hc : IsCmp cmp) (ht : IsAvlTree cmp h t S) (hn : Fresh h t S n) (hb0 : (h n).dat = 0) (hp : p ∈ S)
    (he : cmp (h n).key (h p).key = 0) (dir : Dir) : ∃ fuel h' c l r, avlIns cmp h t n 0 dir fuel = some (h',p) ∧ h'.keys = h.keys ∧
      h' p = ⟨0,0,0,.P,0,0,(h p).key⟩ ∧ Zip h t [] (plug c (.node l p (h p).dat r)) ∧ Zip h' t [] (plug c (.node l n 0 r)) ∧
      (IsAvlTree cmp h' t (insert n (S \ {p})) ↔ (h p).dat = 0) := by
  -- the descent stops at the node with the equal key
  obtain ⟨fuel,hloc⟩ := ht.findloc_present hc hp he
  obtain ⟨T,hz,hs,hT,hS,htree⟩ := ht
  obtain ⟨c,l,b,r,rfl⟩ := exists_plug ((hS p).mpr hp)
  have hz1 := zip_top.mpr hz
  obtain ⟨s1,s2,s3,s4,s5,-,-⟩ := hz1.sub
  have hnT : n ∉ 0 :: t :: (plug c (.node l p b r)).addrs := by
    simp only [List.mem_cons, not_or, hS]
    exact ⟨hn.ne_zero,hn.ne_root,hn.out⟩
  obtain ⟨h2,h3,h4,hf2,hf3,hf4,hz4,e2,e3,e4,hk4⟩ := hz1.transplant hnT
  rw [← s4] at hf2
  rw [← s5,← e2] at hf3
  rw [← s1,← s2,← e3] at hf4
  rw [hb0] at hz4
  have hna : n ≠ p := by rintro rfl; exact hn.out hp
  obtain ⟨h5,hh5⟩ : ∃ h5, avlNinit (setTree (setTree h4 n t) p 0) p ((setTree (setTree h4 n t) p 0) p).key = h5 := ⟨_,rfl⟩
  have hself : h5 p = ⟨0,0,0,.P,0,0,(h p).key⟩ := by
    rw [← hh5,avlNinit,Heap.put_self,setTree,Heap.put_self,setTree,Heap.put_of_ne hna.symm,e4]
  have hother : ∀ x, x ≠ p → h5 x = setTree (setTree h4 n t) p 0 x := fun x hx => by rw [← hh5,avlNinit,Heap.put_of_ne hx]
  have hn5 : h5 n = { h4 n with tree := t } := by
    rw [hother n hna,setTree,Heap.put_of_ne hna,setTree,Heap.put_self]
  have hkeys : h5.keys = h.keys := by
    funext x
    by_cases hx : x = p
    · change (h5 x).key = (h x).key
      rw [hx,hself]
    · change (h5 x).key = (h x).key
      rw [hother x hx]
      exact ((congrFun (setTree_keys _ p 0) x).trans (congrFun (setTree_keys h4 n t) x)).trans (congrFun hk4.keys x)
  have hcall : avlIns cmp h t n 0 dir fuel = some (h5,p) := by
    simp only [avlIns, hn.ne_zero, if_false, locate, ne_eq, not_true_eq_false, hloc, avlFix, hf2, hf3, hf4, Option.bind_eq_bind,
      Option.bind_some, if_true, hh5, Option.pure_def]
  have hdist := hz1.distinct
  simp only [addrs_plug, LTree.addrs_node, List.nodup_cons, List.mem_cons, List.mem_append, List.nodup_append, not_or] at hdist
  have hz5 : Zip h5 t c (.node l n 0 r) := by
    refine ((hz4.setTree n t).setTree p 0).congr fun x hx => hother x ?_
    rintro rfl
    simp only [addrs_plug, LTree.addrs_node, List.mem_cons, List.mem_append] at hx
    grind
  have htop := zip_top.1 hz5
  refine ⟨fuel,h5,c,l,r,hcall,hkeys,hself,by rw [s3]; exact hz,htop,?_⟩
  rw [s3,← eq_comm (a := 0),← isAvl_plug_dat hT (n := n) 0]
  constructor
  · rintro ⟨T,hzT,-,hT',-⟩
    rwa [hzT.unique htop] at hT'
  · intro hT'
    refine isSearchTree_replace hz1 hs hS htree hc he hn.out htop hT' ?_ hkeys (by rw [hn5]) fun x hxn hxa => ?_
    · rw [addrs_plug,LTree.addrs_node]
      simp only [List.append_assoc, List.cons_append]
    · rw [hother x hxa,setTree,Heap.put_of_ne hxa,setTree,Heap.put_of_ne hxn,hk4.tree]

/-! ## Runs -/

/-- The states of a tree as in `AvlRun`, where `avl_ins` may meet a key that is there as well: `ok` says which
nodes are replaced. -/
inductive ReplRun (ok : AvlHeap κ → Addr → Prop) (cmp : κ → κ → ℤ) (t : Addr) : AvlHeap κ → Set Addr → Prop
  | init {h : AvlHeap κ} {k : κ} (ht : t ≠ 0) : ReplRun ok cmp t (avlInit h t k) ∅
  | client {h h' : AvlHeap κ} {S : Set Addr} (hr : ReplRun ok cmp t h S) (hf : ∀ x, x = t ∨ x ∈ S → h' x = h x) :
      ReplRun ok cmp t h' S
  | ins {h h' : AvlHeap κ} {S : Set Addr} {n loc p : Addr} {dir : Dir} {fuel : ℕ} (hr : ReplRun ok cmp t h S)
      (hn : Fresh h t S n) (hb : (h n).dat = 0) (habs : ∀ x ∈ S, cmp (h n).key (h x).key ≠ 0)
      (hl : LocOk cmp h t (h n).key loc dir) (hi : avlIns cmp h t n loc dir fuel = some (h',p)) : ReplRun ok cmp t h' (insert n S)
  | replace {h h' : AvlHeap κ} {S : Set Addr} {n p q : Addr} {dir : Dir} {fuel : ℕ} (hr : ReplRun ok cmp t h S)
      (hn : Fresh h t S n) (hb : (h n).dat = 0) (hp : p ∈ S) (he : cmp (h n).key (h p).key = 0) (hok : ok h p)
      (hi : avlIns cmp h t n 0 dir fuel = some (h',q)) : ReplRun ok cmp t h' (insert n (S \ {p}))
  | rem {h h' : AvlHeap κ} {S : Set Addr} {a : Addr} {fuel : ℕ} (hr : ReplRun ok cmp t h S) (ha : a ∈ S)
      (hd : avlRem h a fuel = some h') : ReplRun ok cmp t h' (S \ {a})

theorem replRun_isAvlTree (hc : IsCmp cmp) (hr : ReplRun (fun h p => (h p).dat = 0) cmp t h S) : IsAvlTree cmp h t S := by
  induction hr with
  | init ht => exact isAvlTree_init ht
  | client _ hf ih => exact ih.frame hf
  | ins _ hn hb habs hl hi ih =>
    obtain ⟨m,h',hi',-,ht⟩ := avlIns_spec hc ih hn hb habs hl
    cases Grows.agree (fun _ _ hkm => avlIns_grows hkm _ _ _) hi hi'
    exact ht
  | replace _ hn hb hp he hok hi ih =>
    obtain ⟨m,h',c,l,r,hi',-,-,-,-,ht⟩ := avlIns_present hc ih hn hb hp he _
    cases Grows.agree (fun _ _ hkm => avlIns_grows hkm _ _ _) hi hi'
    exact ht.2 hok
  | rem _ ha hd ih =>
    obtain ⟨m,h',hd',-,ht⟩ := avlRem_isAvlTree ih ha
    cases Grows.agree (fun _ _ hkm => avlRem_grows hkm _) hd hd'
    exact ht

/-- As long as only nodes with a balance of zero are replaced, the tree is an AVL search tree, every insertion and
removal comes back, and a replacement leaves the new node in the place of the old one, which is detached; the
balance fields are right behind it if and only if the old node had a balance of zero. -/
theorem replRun_spec (hc : IsCmp cmp) (hr : ReplRun (fun h p => (h p).dat = 0) cmp t h S) :
    IsAvlTree cmp h t S ∧
    (∀ n loc dir, Fresh h t S n → (h n).dat = 0 → (∀ x ∈ S, cmp (h n).key (h x).key ≠ 0) → LocOk cmp h t (h n).key loc dir →
      ∃ fuel h', avlIns cmp h t n loc dir fuel = some (h',0)) ∧
    (∀ a ∈ S, ∃ fuel h', avlRem h a fuel = some h') ∧
    ∀ n p dir, Fresh h t S n → (h n).dat = 0 → p ∈ S → cmp (h n).key (h p).key = 0 → ∃ fuel h' c l r,
      avlIns cmp h t n 0 dir fuel = some (h',p) ∧ h'.keys = h.keys ∧ h' p = ⟨0,0,0,.P,0,0,(h p).key⟩ ∧
      Zip h t [] (plug c (.node l p (h p).dat r)) ∧ Zip h' t [] (plug c (.node l n 0 r)) ∧
      (IsAvlTree cmp h' t (insert n (S \ {p})) ↔ (h p).dat = 0) := by
  have ht := replRun_isAvlTree hc hr
  refine ⟨ht,fun n loc dir hn hb habs hl => ?_,fun a ha => ?_,fun n p dir hn hb hp he => avlIns_present hc ht hn hb hp he dir⟩
  · obtain ⟨fuel,h',hi,-⟩ := avlIns_spec hc ht hn hb habs hl
    exact ⟨fuel,h',hi⟩
  · obtain ⟨fuel,h',hd,-⟩ := avlRem_isAvlTree ht ha
    exact ⟨fuel,h',hd⟩

/-- A sentinel at 1 and three initialised nodes, the first and the last with one key. -/
def twinHeap : AvlHeap ℤ := avlNinit (avlNinit (avlNinit (avlInit (fun _ => ⟨0,0,0,.L,0,0,0⟩) 1 0) 3 1) 4 2) 5 1

theorem twinHeap_run (ok : AvlHeap ℤ → Addr → Prop) : ReplRun ok (fun a b => a - b) 1 twinHeap ∅ := by
  refine .client (.init (h := fun _ => ⟨0,0,0,.L,0,0,0⟩) (k := 0) (by decide)) ?_
  rintro x (rfl | hx)
  · rfl
  · exact absurd hx (Set.notMem_empty x)

def twinFirst : Option (AvlHeap ℤ × Addr) := avlIns (fun a b => a - b) twinHeap 1 3 0 .N 2

theorem twinFirst_isSome : twinFirst.isSome := by decide

/-- The heap with the first node in the tree. -/
def twinTree : AvlHeap ℤ := (twinFirst.get twinFirst_isSome).1

theorem twinTree_run (ok : AvlHeap ℤ → Addr → Prop) : ReplRun ok (fun a b => a - b) 1 twinTree {3} := by
  have hi : avlIns (fun a b => a - b) twinHeap 1 3 0 .N 2 = some (twinTree,(twinFirst.get twinFirst_isSome).2) :=
    (Option.some_get twinFirst_isSome).symm
  rw [← insert_empty_eq]
  exact (twinHeap_run ok).ins ⟨by decide,by decide,by simp,rfl,rfl⟩ rfl (by simp) (.inl rfl) hi

theorem twinTree_fresh : Fresh twinTree 1 {3} 5 := ⟨by decide,by decide,by decide,by decide,by decide⟩

theorem replRun_spec_leaf : ∃ fuel h', avlIns (fun a b => a - b) twinTree 1 5 0 .N fuel = some (h',3) ∧
    IsAvlTree (fun a b => a - b) h' 1 (insert 5 ({3} \ {3})) := by
  obtain ⟨fuel,h',-,-,-,hi,-,-,-,-,ht⟩ := (replRun_spec isCmp_sub (twinTree_run _)).2.2.2 5 3 .N twinTree_fresh (by decide)
    (Set.mem_singleton 3) (by decide)
  exact ⟨fuel,h',hi,ht.2 (by decide)⟩

def twinSecond : Option (AvlHeap ℤ × Addr) := avlIns (fun a b => a - b) twinTree 1 4 0 .N 3

theorem twinSecond_isSome : twinSecond.isSome := by decide

/-- A node with a child is replaced; its successor has a balance of zero. -/
theorem replRun_unbalanced : ¬∀ (h : AvlHeap ℤ) (S : Set Addr), ReplRun (fun _ _ => True) (fun a b => a - b) 1 h S →
    IsAvlTree (fun a b => a - b) h 1 S := by
  intro hall
  have hi : twinSecond = some (twinSecond.get twinSecond_isSome) := (Option.some_get twinSecond_isSome).symm
  have hrun := (twinTree_run fun _ _ => True).ins (n := 4) ⟨by decide,by decide,by decide,by decide,by decide⟩ (by decide)
    (by rintro x rfl; decide) (.inl rfl) hi
  have hn : Fresh (twinSecond.get twinSecond_isSome).1 1 (insert 4 {3}) 5 := ⟨by decide,by decide,by decide,by decide,by decide⟩
  obtain ⟨fuel,h',-,-,-,hi',-,-,-,-,ht⟩ := avlIns_present isCmp_sub (hall _ _ hrun) (p := 3) hn (by decide) (by decide) (by decide) .N
  have hbal := ht.1 (hall _ _ (hrun.replace hn (by decide) (by decide) (by decide) trivial hi'))
  exact absurd hbal (by decide)

end Catlib.Avl
