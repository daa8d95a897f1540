import Catlib.Tree.RedBlackRemove
import Catlib.Tree.SearchTree

/-! # Every run of the red-black tree

A run starts from `rb_init` and applies `rb_ins` and `rb_rem` in any order; between two
operations the client may do whatever it likes with nodes that are not in the tree.
-/
namespace Catlib.RedBlack
open Linked

variable {κ : Type} {cmp : κ → κ → ℤ} {h h' : RbHeap κ} {t : Addr} {S : Set Addr} {c : Spine Color}

/-! ## Budgets -/

theorem rbIns_grows {k m : ℕ} (hkm : k ≤ m) (n loc : Addr) (dir : Dir) :
    Grows (rbIns cmp h t n loc dir k) (rbIns cmp h t n loc dir m) := by
  refine Grows.ite (.refl _) (Grows.bind (locate_grows cmp h t _ loc dir hkm) ?_)
  rintro ⟨p,dir⟩
  refine Grows.ite (.refl _) (Grows.bind ?_ (fun _ => .refl _))
  refine Grows.bind (.refl _) (fun _ => Grows.bind (.refl _) (fun _ => Grows.bind ?_ (fun _ => .refl _)))
  exact loop_grows hkm _

theorem rbRem_grows {k m : ℕ} (hkm : k ≤ m) (a : Addr) : Grows (rbRem h a k) (rbRem h a m) := by
  refine Grows.bind (.refl _) (fun a => Grows.bind ?_ ?_)
  · exact Grows.bind (findrep_grows h a hkm) (fun _ => .refl _)
  · rintro ⟨h,par,cdir,oldc⟩
    exact Grows.ite (.refl _) (Grows.bind (loop_grows hkm _) (fun _ => .refl _))

/-! ## One operation -/

/-- `S` is the node set of a red-black search tree under the sentinel `t`. The in-order
keys increase, the root is black, no red node has a red child, all paths to null links
carry the same number of black nodes, and every child points back at its slot. -/
abbrev IsRbTree (cmp : κ → κ → ℤ) (h : RbHeap κ) (t : Addr) (S : Set Addr) : Prop :=
  IsSearchTree IsRb cmp h t S

theorem isRbTree_init {k : κ} (ht : t ≠ 0) : IsRbTree cmp (rbInit h t k) t ∅ :=
  isSearchTree_empty ht (by simp [rbInit, rbNinit]) ⟨rfl,0,rfl⟩

theorem rbLkup_spec (hc : IsCmp cmp) (ht : IsRbTree cmp h t S) (k : κ) :
    ∃ fuel a, rbLkup cmp h t k fuel = some a ∧
      (a = 0 ∧ (∀ x ∈ S, cmp k (h x).key ≠ 0) ∨ a ∈ S ∧ cmp k (h a).key = 0) := by
  obtain ⟨fuel,a,d,hl,⟨hd,hk,-⟩ | ⟨rfl,ha⟩⟩ := ht.findloc hc k
  · exact ⟨fuel,0,by simp [rbLkup, rbFindloc, hl, hd],Or.inl ⟨rfl,hk⟩⟩
  · exact ⟨fuel,a,by simp [rbLkup, rbFindloc, hl],Or.inr ha⟩

theorem rbIns_spec (hc : IsCmp cmp) (ht : IsRbTree cmp h t S) {n loc : Addr} {dir : Dir} (hn : Fresh h t S n)
    (hl : LocOk cmp h t (h n).key loc dir) :
    ∃ fuel h' p, rbIns cmp h t n loc dir fuel = some (h',p) ∧ h'.keys = h.keys ∧
      (p = 0 ∧ (∀ x ∈ S, cmp (h n).key (h x).key ≠ 0) ∨ p ∈ S ∧ cmp (h n).key (h p).key = 0) ∧
      IsRbTree cmp h' t (insert n (S \ {p})) := by
  have h0S := ht.zero_notin
  obtain ⟨T,hz,hs,hrb,hS,htree⟩ := ht
  have hlt := Nat.lt_succ_self T.addrs.length
  obtain ⟨⟨p,d⟩,hloc,hf⟩ := locate_spec hc hz hs hl hlt
  have hnT : n ∉ 0 :: t :: T.addrs := by
    simp only [List.mem_cons, not_or, hS]
    exact ⟨hn.ne_zero,hn.ne_root,hn.out⟩
  rcases hf.dir_eq with ⟨hN,c,rfl,hpd,hb,hy⟩ | ⟨rfl,c,l,e,r,rfl,hk⟩
  · rw [hpd] at hloc
    obtain ⟨h',T',hr,hz',hrb',hx',htn,hkey,hto⟩ := rbIns_absent (zip_top.mpr hz) hrb hnT hn.left hn.right hlt hloc
    refine ⟨_,h',0,hr,hkey,Or.inl ⟨rfl,?_⟩,?_⟩
    · rcases hf.cases hc with ⟨-,hk⟩ | ⟨hd,-⟩
      · exact fun x hx => hk x ((hS x).mpr hx)
      · exact absurd hd hN
    · rw [Set.sdiff_singleton_eq_self h0S]
      exact isSearchTree_insert hs hS htree hb hy hn.out hz' hrb' hx' hkey htn hto
  · have hp : p ∈ S := (hS p).mp (by simp [addrs_plug])
    obtain ⟨h',hr,hz',hrb',htn,hkey,hto⟩ := rbIns_present (zip_top.mpr hz) hrb hnT hloc
    exact ⟨_,h',p,hr,hkey,Or.inr ⟨hp,hk⟩,isSearchTree_replace (zip_top.mpr hz) hs hS htree hc hk hn.out hz' hrb'
      (by simp [addrs_plug]) hkey htn hto⟩

theorem rbRem_isRbTree (ht : IsRbTree cmp h t S) {a : Addr} (ha : a ∈ S) :
    ∃ fuel h', rbRem h a fuel = some h' ∧ h'.keys = h.keys ∧ IsRbTree cmp h' t (S \ {a}) := by
  obtain ⟨T,hz,hs,hrb,hS,htree⟩ := ht
  obtain ⟨c,l,d,r,rfl⟩ := exists_plug ((hS a).mpr ha)
  obtain ⟨h',T',hr,hz',hrb',hx',-,-,hk⟩ := rbRem_spec (zip_top.mpr hz) hrb (htree a ha) (Nat.lt_succ_self _)
  exact ⟨_,h',hr,hk.keys,isSearchTree_erase (zip_top.mpr hz) hs hS htree hz' hrb' hx' hk.keys (fun x _ => hk.tree x)⟩

/-! ## Runs -/

/-- The states of a tree at the sentinel `t` under `rb_init`, `rb_ins`, `rb_rem` and client
writes outside the tree, with the nodes that were inserted and neither removed nor replaced. -/
inductive RbRun (cmp : κ → κ → ℤ) (t : Addr) : RbHeap κ → Set Addr → Prop
  | init {h : RbHeap κ} {k : κ} (ht : t ≠ 0) : RbRun cmp t (rbInit h t k) ∅
  | client {h h' : RbHeap κ} {S : Set Addr} (hr : RbRun cmp t h S)
      (hf : ∀ x, x = t ∨ x ∈ S → h' x = h x) : RbRun cmp t h' S
  | ins {h h' : RbHeap κ} {S : Set Addr} {n loc p : Addr} {dir : Dir} {fuel : ℕ} (hr : RbRun cmp t h S)
      (hn : Fresh h t S n) (hl : LocOk cmp h t (h n).key loc dir)
      (hi : rbIns cmp h t n loc dir fuel = some (h',p)) : RbRun cmp t h' (insert n (S \ {p}))
  | rem {h h' : RbHeap κ} {S : Set Addr} {a : Addr} {fuel : ℕ} (hr : RbRun cmp t h S) (ha : a ∈ S)
      (hd : rbRem h a fuel = some h') : RbRun cmp t h' (S \ {a})

theorem rbRun_isRbTree (hc : IsCmp cmp) (hr : RbRun cmp t h S) : IsRbTree cmp h t S := by
  induction hr with
  | init ht => exact isRbTree_init ht
  | client _ hf ih => exact ih.frame hf
  | ins _ hn hl hi ih =>
    obtain ⟨m,h',p,hi',-,-,ht⟩ := rbIns_spec hc ih hn hl
    cases Grows.agree (fun _ _ hkm => rbIns_grows hkm _ _ _) hi hi'
    exact ht
  | rem _ ha hd ih =>
    obtain ⟨m,h',hd',-,ht⟩ := rbRem_isRbTree ih ha
    cases Grows.agree (fun _ _ hkm => rbRem_grows hkm _) hd hd'
    exact ht

/-- After every operation of every run the tree is a red-black search tree on exactly the
live nodes, and every legal next operation comes back. -/
theorem rbRun_spec (hc : IsCmp cmp) (hr : RbRun cmp t h S) :
    IsRbTree cmp h t S ∧
    (∀ n loc dir, Fresh h t S n → LocOk cmp h t (h n).key loc dir →
      ∃ fuel h' p, rbIns cmp h t n loc dir fuel = some (h',p) ∧
        (p = 0 ∧ (∀ x ∈ S, cmp (h n).key (h x).key ≠ 0) ∨ p ∈ S ∧ cmp (h n).key (h p).key = 0)) ∧
    ∀ a ∈ S, ∃ fuel h', rbRem h a fuel = some h' := by
  have ht := rbRun_isRbTree hc hr
  refine ⟨ht,fun n loc dir hn hl => ?_,fun a ha => ?_⟩
  · obtain ⟨fuel,h',p,hi,-,hp,-⟩ := rbIns_spec hc ht hn hl
    exact ⟨fuel,h',p,hi,hp⟩
  · obtain ⟨fuel,h',hd,-⟩ := rbRem_isRbTree ht ha
    exact ⟨fuel,h',hd⟩

/-- A sentinel at 1 and two initialised nodes, the second of which is inserted. -/
def sampleHeap : RbHeap ℤ := rbNinit (rbNinit (rbInit (fun _ => ⟨0,0,0,.L,.red,0,0⟩) 1 0) 2 7) 3 9

def sampleIns : Option (RbHeap ℤ × Addr) := rbIns (fun a b => a - b) sampleHeap 1 3 0 .N 2

theorem sampleHeap_run : RbRun (fun a b => a - b) 1 sampleHeap ∅ := by
  refine .client (.init (h := fun _ => ⟨0,0,0,.L,.red,0,0⟩) (k := 0) (by decide)) ?_
  rintro x (rfl | hx)
  · rfl
  · exact absurd hx (Set.notMem_empty x)

theorem sampleIns_isSome : sampleIns.isSome := by decide

theorem sampleIns_eq : rbIns (fun a b => a - b) sampleHeap 1 3 0 .N 2 = some (sampleIns.get sampleIns_isSome) :=
  (Option.some_get sampleIns_isSome).symm

theorem rbRun_spec_sample :
    IsRbTree (fun a b => a - b) (sampleIns.get sampleIns_isSome).1 1
      (insert 3 (∅ \ {(sampleIns.get sampleIns_isSome).2})) :=
  (rbRun_spec isCmp_sub (.ins sampleHeap_run ⟨by decide,by decide,by simp,rfl,rfl⟩ (Or.inl rfl)
    sampleIns_eq)).1

end Catlib.RedBlack
