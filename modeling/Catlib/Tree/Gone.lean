import Catlib.Tree.AvlRuns
import Catlib.Tree.SplayRuns

/-! # Nodes that left a tree

`avl_rem` and `st_rem` start with a guard on the owner of the node. The AVL tree clears the owner on both ways
a node can leave, so that removing it again does nothing. The splay tree clears it on neither: it splays a node
that hangs from nowhere.
-/
namespace Catlib.Linked

variable {δ κ : Type*} {h h' : Heap δ κ} {T : Addr → Addr}

/-- The owners stored in the heap. -/
def Heap.owners (h : Heap δ κ) : Addr → Addr := fun x => (h x).tree

@[simp] theorem setDat_owners (h : Heap δ κ) (a : Addr) (d : δ) : (setDat h a d).owners = h.owners := by
  funext x
  by_cases hx : x = a
  · subst hx
    simp [Heap.owners, setDat]
  · simp [Heap.owners, setDat, Heap.put_of_ne hx]

theorem fix_owners (p c : Addr) (d : Dir) : Post (fun h' => h'.owners = h.owners) (fix h p c d) := fun _ hf =>
  funext (fix_keeps (S := [p,c]) hf (by simp) (by simp)).tree

theorem fix_owners_bind {ρ : Type*} {Q : ρ → Prop} {p c : Addr} {d : Dir} {f : Heap δ κ → Option ρ} (hh : h.owners = T)
    (hf : ∀ h' : Heap δ κ, h'.owners = T → Post Q (f h')) : Post Q ((fix h p c d).bind f) :=
  (fix_owners p c d).bind fun h' he => hf h' (he.trans hh)

theorem zigL_owners (n1 n2 n3 : Addr) : Post (fun h' => h'.owners = h.owners) (zigL h n1 n2 n3) :=
  .ite .none <| fix_owners_bind rfl fun _ h1 => fix_owners_bind h1 fun _ h2 => fix_owners_bind h2 fun _ h3 =>
    fix_owners_bind h3 fun _ h4 => h4 ▸ fix_owners _ _ _

theorem zigR_owners (n1 n2 n3 : Addr) : Post (fun h' => h'.owners = h.owners) (zigR h n1 n2 n3) :=
  .ite .none <| fix_owners_bind rfl fun _ h1 => fix_owners_bind h1 fun _ h2 => fix_owners_bind h2 fun _ h3 =>
    fix_owners_bind h3 fun _ h4 => h4 ▸ fix_owners _ _ _

end Catlib.Linked

namespace Catlib.Avl
open Linked

variable {κ : Type} {cmp : κ → κ → ℤ} {h h' : AvlHeap κ} {T : Addr → Addr}

theorem avlRleft_owners (n1 n2 : Addr) (ins : Bool) : Post (fun h' => h'.owners = h.owners) (avlRleft h n1 n2 ins) := by
  refine .ite .none (fix_owners_bind rfl fun _ h1 => fix_owners_bind h1 fun _ h2 => fix_owners_bind h2 fun _ h3 => ?_)
  exact .ite (.some (by simpa using h3)) (.some (by simpa using h3))

theorem avlRright_owners (n1 n2 : Addr) (ins : Bool) : Post (fun h' => h'.owners = h.owners) (avlRright h n1 n2 ins) := by
  refine .ite .none (fix_owners_bind rfl fun _ h1 => fix_owners_bind h1 fun _ h2 => fix_owners_bind h2 fun _ h3 => ?_)
  exact .ite (.some (by simpa using h3)) (.some (by simpa using h3))

theorem avlZleft_owners (n1 n2 n3 : Addr) : Post (fun h' => h'.owners = h.owners) (avlZleft h n1 n2 n3) := by
  refine (zigL_owners n1 n2 n3).bind fun k hk => .some ?_
  split_ifs <;> simpa using hk

theorem avlZright_owners (n1 n2 n3 : Addr) : Post (fun h' => h'.owners = h.owners) (avlZright h n1 n2 n3) := by
  refine (zigR_owners n1 n2 n3).bind fun k hk => .some ?_
  split_ifs <;> simpa using hk

theorem insBody_owners (s : AvlHeap κ × Addr) (hs : s.1.owners = T) :
    Post (Turn.All (fun s => s.1.owners = T) (fun h' => h'.owners = T)) (insBody s) := by
  obtain ⟨h,node⟩ := s
  obtain rfl : h.owners = T := hs
  refine .ite (.some rfl) (.after fun a => ?_)
  have hset : ∀ e, (setDat h a e).owners = h.owners := setDat_owners h a
  refine .ite (.ite (.after fun tmp => ?_) (.ite (.after fun tmp => ?_) (.some (hset _)))) (.some (hset _))
  · dsimp only
    exact .ite (.bind (avlRright_owners _ _ _) fun k hk => .some (hk.trans (hset _)))
      (.bind (avlZright_owners _ _ _) fun k hk => .some (hk.trans (hset _)))
  · dsimp only
    exact .ite (.bind (avlRleft_owners _ _ _) fun k hk => .some (hk.trans (hset _)))
      (.bind (avlZleft_owners _ _ _) fun k hk => .some (hk.trans (hset _)))

theorem remBody_owners (s : AvlHeap κ × Addr × Dir) (hs : s.1.owners = T) :
    Post (Turn.All (fun s => s.1.owners = T) (fun h' => h'.owners = T)) (remBody s) := by
  obtain ⟨h,trav,dir⟩ := s
  obtain rfl : h.owners = T := hs
  refine .ite (.some rfl) (.after fun a => ?_)
  have hset : ∀ e, (setDat h a e).owners = h.owners := setDat_owners h a
  refine .ite (.ite (.after fun tmp => ?_) (.ite (.after fun tmp => ?_) (.some (hset _)))) (.some (hset _))
  · refine .ite (Post.bind (avlRright_owners _ _ _) fun k hk => ?_) (Post.bind (avlZright_owners _ _ _) fun k hk => .some ?_)
    · exact .ite (.some (hk.trans (hset _))) (.some (hk.trans (hset _)))
    · exact hk.trans (hset _)
  · refine .ite (Post.bind (avlRleft_owners _ _ _) fun k hk => ?_) (Post.bind (avlZleft_owners _ _ _) fun k hk => .some ?_)
    · exact .ite (.some (hk.trans (hset _))) (.some (hk.trans (hset _)))
    · exact hk.trans (hset _)

theorem avlInsAt_owners (n p : Addr) (d : Dir) (fuel : ℕ) : Post (fun h' => h'.owners = h.owners) (avlInsAt h n p d fuel) :=
  .after fun _ => fix_owners_bind rfl fun _ hk => .loop insBody_owners hk fuel

theorem avlUnlink_owners (a : Addr) (fuel : ℕ) : Post (fun r => r.1.owners = h.owners) (avlUnlink h a fuel) := by
  refine .after fun rep => .ite ?_ ?_
  · refine fix_owners_bind rfl fun _ h1 => fix_owners_bind h1 fun _ h2 => fix_owners_bind h2 fun _ h3 =>
      fix_owners_bind h3 fun _ h4 => .some ?_
    rw [setDat_owners,h4]
  · refine fix_owners_bind rfl fun _ h1 => .ite (fix_owners_bind ?_ fun _ h2 => .some h2) (.some h1)
    rw [setDat_owners,h1]

theorem avlIns_owners (t n loc : Addr) (dir : Dir) (fuel : ℕ) :
    Post (fun r => (r.2 ≠ 0 → (r.1 r.2).tree = 0) ∧ ∀ x, x ≠ n → (h x).tree = 0 → (r.1 x).tree = 0)
      (avlIns cmp h t n loc dir fuel) := by
  refine .ite (.some ⟨fun h0 => absurd rfl h0,fun _ _ hx => hx⟩) (.after ?_)
  rintro ⟨p,d⟩
  refine .ite ?_ (.bind (avlInsAt_owners _ _ _ _) fun k hk => .some ⟨fun h0 => absurd rfl h0,fun x hx h0 => ?_⟩)
  · refine fix_owners_bind rfl fun _ h1 => fix_owners_bind h1 fun _ h2 => fix_owners_bind h2 fun k hk => .some ?_
    refine ⟨fun _ => by simp [avlNinit, setTree],fun x hx h0 => ?_⟩
    by_cases hxp : x = p
    · simp [hxp, avlNinit, setTree]
    · have hkx : (k x).tree = 0 := (congrFun hk x).trans h0
      simpa [avlNinit, setTree, Heap.put_of_ne hxp, Heap.put_of_ne hx] using hkx
  · have hkx : (k x).tree = 0 := (congrFun hk x).trans h0
    simpa [setTree, Heap.put_of_ne hx] using hkx

theorem avlRem_owners (a : Addr) (fuel : ℕ) :
    Post (fun h' => a ≠ 0 ∧ (h' a).tree = 0 ∧ ∀ x, (h x).tree = 0 → (h' x).tree = 0) (avlRem h a fuel) := by
  by_cases ha : a = 0
  · subst ha
    exact .none
  rw [avlRem,nonnull_of_ne ha]
  by_cases h0 : (h a).tree = 0
  · simp only [Option.bind_eq_bind, Option.bind_some, h0, if_true]
    exact .some ⟨ha,h0,fun _ hx => hx⟩
  · simp only [Option.bind_eq_bind, Option.bind_some, h0, if_false]
    refine .bind (avlUnlink_owners a fuel) fun r hr => ?_
    refine .mono (.loop remBody_owners rfl fuel) fun k hk => ?_
    have hx : ∀ x, (k x).tree = if x = a then 0 else (h x).tree := fun x => by
      refine (congrFun hk x).trans ?_
      by_cases hxa : x = a
      · simp [Heap.owners, hxa]
      · have hrx : (r.1 x).tree = (h x).tree := congrFun hr x
        simp [Heap.owners, Heap.put_of_ne hxa, hxa, hrx]
    refine ⟨ha,by simp [hx],fun x h1 => ?_⟩
    rw [hx,h1,ite_self]

theorem avlRem_ownerless {a : Addr} (ha : a ≠ 0) (h0 : (h a).tree = 0) (fuel : ℕ) : avlRem h a fuel = some h := by
  simp [avlRem, nonnull_of_ne ha, h0]

end Catlib.Avl

namespace Catlib.Splay
open Linked

variable {κ : Type} {h h' : StHeap κ} {t a : Addr}

theorem Detached.congr (hd : Detached h t a) (he : h' a = h a) : Detached h' t a := by
  rw [Detached,he]
  exact hd

theorem stRem_detached (ht : t ≠ 0) (ha : a ≠ 0) (hd : Detached h t a) (fuel : ℕ) : stRem h a fuel = none := by
  obtain ⟨hP,hN,htree⟩ := hd
  have hbody : splayBody a h = none := by simp [splayBody, hN, hP, nonnull]
  have hsplay : stSplay h a fuel = none := by
    rw [stSplay,nonnull_of_ne ha]
    exact loop_none hbody fuel
  simp only [stRem, nonnull_of_ne ha, Option.bind_eq_bind, Option.bind_some, htree, ht, if_false, hsplay, Option.bind_none]

end Catlib.Splay

/-! ## Both kinds of trees -/

namespace Catlib.Linked
open Avl Splay

variable {κ : Type}

/-- The trees whose removal is guarded by the owner of the node. -/
inductive Guarded where
  | avl | splay
  deriving DecidableEq, Repr

namespace Guarded

/-- What a node carries besides its links. -/
abbrev Dat : Guarded → Type
  | avl => ℤ
  | splay => Unit

def init : (k : Guarded) → Heap k.Dat κ → Addr → κ → Heap k.Dat κ
  | avl => avlInit
  | splay => stInit

/-- `avl_lkup`, `st_lkup`: the heap afterwards. -/
def lkup (cmp : κ → κ → ℤ) : (k : Guarded) → Heap k.Dat κ → Addr → κ → ℕ → Option (Heap k.Dat κ)
  | avl => fun h t key fuel => (avlLkup cmp h t key fuel).map fun _ => h
  | splay => fun h t key fuel => (stLkup cmp h t key fuel).map Prod.fst

/-- `avl_ins`, `st_ins`; only the first one takes a place to start from. -/
def ins (cmp : κ → κ → ℤ) : (k : Guarded) → Heap k.Dat κ → (t n loc : Addr) → Dir → ℕ → Option (Heap k.Dat κ × Addr)
  | avl => avlIns cmp
  | splay => fun h t n _ _ fuel => stIns cmp h t n fuel

def rem : (k : Guarded) → Heap k.Dat κ → Addr → ℕ → Option (Heap k.Dat κ)
  | avl => avlRem
  | splay => stRem

end Guarded

/-- The states of a tree at the sentinel `t` with its nodes `S` and the nodes `D` that were removed or replaced and
not inserted again. The client leaves the nodes of `S` and of `D` alone; it may forget about nodes of `D`. -/
inductive GoneRun (k : Guarded) (cmp : κ → κ → ℤ) (t : Addr) : Heap k.Dat κ → Set Addr → Set Addr → Prop
  | init {h : Heap k.Dat κ} {key : κ} (ht : t ≠ 0) : GoneRun k cmp t (k.init h t key) ∅ ∅
  | client {h h' : Heap k.Dat κ} {S D D' : Set Addr} (hr : GoneRun k cmp t h S D) (hD : D' ⊆ D)
      (hf : ∀ x, x = t ∨ x ∈ S ∨ x ∈ D' → h' x = h x) : GoneRun k cmp t h' S D'
  | lkup {h h' : Heap k.Dat κ} {S D : Set Addr} {key : κ} {fuel : ℕ} (hr : GoneRun k cmp t h S D)
      (hl : k.lkup cmp h t key fuel = some h') : GoneRun k cmp t h' S D
  | ins {h h' : Heap k.Dat κ} {S D : Set Addr} {n loc p : Addr} {dir : Dir} {fuel : ℕ} (hr : GoneRun k cmp t h S D)
      (hn : Fresh h t S n) (hi : k.ins cmp h t n loc dir fuel = some (h',p)) :
      GoneRun k cmp t h' (insert n (S \ {p})) (D \ {n} ∪ {p} \ {0})
  | rem {h h' : Heap k.Dat κ} {S D : Set Addr} {a : Addr} {fuel : ℕ} (hr : GoneRun k cmp t h S D) (ha : a ∈ S)
      (hd : k.rem h a fuel = some h') : GoneRun k cmp t h' (S \ {a}) (insert a D)

variable {cmp : κ → κ → ℤ} {t : Addr} {S D : Set Addr}

theorem goneRun_avl {h : Heap Guarded.avl.Dat κ} (hr : GoneRun .avl cmp t h S D) : ∀ a ∈ D, a ≠ 0 ∧ (h a).tree = 0 := by
  induction hr with
  | init ht => exact fun a ha => absurd ha (Set.notMem_empty a)
  | client _ hD hf ih => exact fun a ha => ⟨(ih a (hD ha)).1,(hf a (.inr (.inr ha))) ▸ (ih a (hD ha)).2⟩
  | lkup _ hl ih =>
    obtain ⟨-,-,rfl⟩ := Option.map_eq_some_iff.1 hl
    exact ih
  | ins _ hn hi ih =>
    obtain ⟨h1,h2⟩ := avlIns_owners _ _ _ _ _ _ hi
    rintro a (⟨ha,han⟩ | ⟨rfl,h0⟩)
    · exact ⟨(ih a ha).1,h2 a han (ih a ha).2⟩
    · exact ⟨h0,h1 h0⟩
  | rem _ ha hd ih =>
    obtain ⟨h0,h1,h2⟩ := avlRem_owners _ _ _ hd
    rintro a (rfl | ha)
    · exact ⟨h0,h1⟩
    · exact ⟨(ih a ha).1,h2 a (ih a ha).2⟩

/-- What a run of the splay tree leaves of the nodes that went. -/
structure Leftover (cmp : κ → κ → ℤ) (t : Addr) (S D : Set Addr) (h : StHeap κ) : Prop where
  tree : IsStTree cmp h t S
  root : t ≠ 0
  out : ∀ a ∈ D, a ≠ 0 ∧ a ≠ t ∧ a ∉ S
  detached : ∀ a ∈ D, Detached h t a

theorem goneRun_splay (hc : IsCmp cmp) {h : Heap Guarded.splay.Dat κ} (hr : GoneRun .splay cmp t h S D) : Leftover cmp t S D h := by
  induction hr with
  | init ht => exact ⟨isStTree_init ht,ht,fun a ha => absurd ha (Set.notMem_empty a),fun a ha => absurd ha (Set.notMem_empty a)⟩
  | client _ hD hf ih =>
    refine ⟨ih.tree.frame fun x hx => hf x (hx.imp_right .inl),ih.root,fun a ha => ih.out a (hD ha),fun a ha => ?_⟩
    exact (ih.detached a (hD ha)).congr (hf a (.inr (.inr ha)))
  | lkup _ hl ih =>
    obtain ⟨⟨h',a⟩,hl₁,rfl⟩ := Option.map_eq_some_iff.1 hl
    obtain ⟨m,h'',a',hl',-,ht,hs,-⟩ := stLkup_isStTree hc ih.tree _
    obtain ⟨rfl,rfl⟩ := Prod.mk.inj (Grows.agree (fun _ _ hkm => stLkup_grows hkm _ _ _) hl₁ hl')
    refine ⟨ht,ih.root,ih.out,fun a ha => ?_⟩
    exact (ih.detached a ha).congr (hs a (ih.out a ha).2.1 (ih.out a ha).2.2)
  | ins _ hn hi ih =>
    obtain ⟨m,h'',p,hi',-,hp,ht,-,hs,hd⟩ := stIns_isStTree hc ih.tree hn
    cases Grows.agree (fun _ _ hkm => stIns_grows hkm _ _ _) hi hi'
    refine ⟨ht,ih.root,?_,?_⟩
    · rintro a (⟨ha,han⟩ | ⟨rfl,h0⟩)
      · exact ⟨(ih.out a ha).1,(ih.out a ha).2.1,fun hm => hm.elim han fun hm => (ih.out a ha).2.2 hm.1⟩
      · have haS : a ∈ _ := (hp.resolve_left fun h => h0 h.1).1
        refine ⟨h0,fun h => ih.tree.root_notin (h ▸ haS),fun hm => hm.elim ?_ fun hm => hm.2 rfl⟩
        rintro rfl
        exact hn.out haS
    · rintro a (⟨ha,han⟩ | ⟨rfl,h0⟩)
      · exact (ih.detached a ha).congr (hs a (ih.out a ha).2.1 fun hm => hm.elim han (ih.out a ha).2.2)
      · exact hd h0
  | rem _ ha hd ih =>
    obtain ⟨m,h'',hd',-,ht,hs,hdet⟩ := stRem_spec ih.tree ha
    cases Grows.agree (fun _ _ hkm => stRem_grows hkm _ _) hd hd'
    refine ⟨ht,ih.root,?_,?_⟩
    · rintro a (rfl | ha')
      · exact ⟨fun h => ih.tree.zero_notin (h ▸ ha),fun h => ih.tree.root_notin (h ▸ ha),fun hm => hm.2 rfl⟩
      · exact ⟨(ih.out a ha').1,(ih.out a ha').2.1,fun hm => (ih.out a ha').2.2 hm.1⟩
    · rintro a (rfl | ha')
      · exact hdet
      · exact (ih.detached a ha').congr (hs a (ih.out a ha').2.1 (ih.out a ha').2.2)

theorem rem_gone (hc : IsCmp cmp) : ∀ (k : Guarded) (h : Heap k.Dat κ), GoneRun k cmp t h S D → ∀ a ∈ D, ∀ fuel,
    k.rem h a fuel = if k = .avl then some h else none
  | .avl, _, hr, a, ha, fuel => avlRem_ownerless (goneRun_avl hr a ha).1 (goneRun_avl hr a ha).2 fuel
  | .splay, _, hr, a, ha, fuel =>
    have hl := goneRun_splay hc hr
    stRem_detached hl.root (hl.out a ha).1 (hl.detached a ha) fuel

/-- In every run, removing a node again that was removed or replaced comes back with the same heap if and only if
the tree is an AVL tree. -/
theorem rem_again_iff (hc : IsCmp cmp) {k : Guarded} {h : Heap k.Dat κ} (hr : GoneRun k cmp t h S D) {a : Addr} (ha : a ∈ D) :
    (∃ fuel, k.rem h a fuel = some h) ↔ k = .avl := by
  simp only [rem_gone hc k h hr a ha]
  by_cases hk : k = .avl
  · simp [hk]
  · simp [hk]

/-- The heaps after the one node of the sample tree was removed. -/
def avlEmptied : Option (AvlHeap ℤ) := avlRem (Avl.sampleIns.get Avl.sampleIns_isSome).1 3 2
def stEmptied : Option (StHeap ℤ) := stRem (Splay.sampleIns.get Splay.sampleIns_isSome).1 3 2

theorem avlEmptied_isSome : avlEmptied.isSome := by decide
theorem stEmptied_isSome : stEmptied.isSome := by decide

theorem avlSample_run : GoneRun .avl (fun a b => a - b) 1 Avl.sampleHeap ∅ ∅ := by
  have hr : GoneRun .avl (fun a b => a - b) 1 (avlInit (fun _ => ⟨0,0,0,.L,0,0,0⟩) 1 (0 : ℤ)) ∅ ∅ := .init (by decide)
  refine hr.client subset_rfl ?_
  rintro x (rfl | hx | hx)
  · rfl
  · exact absurd hx (Set.notMem_empty x)
  · exact absurd hx (Set.notMem_empty x)

theorem stSample_run : GoneRun .splay (fun a b => a - b) 1 Splay.sampleHeap ∅ ∅ := by
  have hr : GoneRun .splay (fun a b => a - b) 1 (stInit (fun _ => ⟨0,0,0,.L,(),0,0⟩) 1 (0 : ℤ)) ∅ ∅ := .init (by decide)
  refine hr.client subset_rfl ?_
  rintro x (rfl | hx | hx)
  · rfl
  · exact absurd hx (Set.notMem_empty x)
  · exact absurd hx (Set.notMem_empty x)

theorem avlEmptied_run : ∃ S D, GoneRun .avl (fun a b => a - b) 1 (avlEmptied.get avlEmptied_isSome) S D ∧ 3 ∈ D := by
  have hi : Guarded.avl.ins (fun a b => a - b) Avl.sampleHeap 1 3 0 .N 2 = some (Avl.sampleIns.get Avl.sampleIns_isSome) :=
    Avl.sampleIns_eq
  have hr := avlSample_run.ins ⟨by decide,by decide,by simp,rfl,rfl⟩ hi
  exact ⟨_,_,hr.rem (Set.mem_insert 3 _) (Option.some_get avlEmptied_isSome).symm,Set.mem_insert 3 _⟩

theorem stEmptied_run : ∃ S D, GoneRun .splay (fun a b => a - b) 1 (stEmptied.get stEmptied_isSome) S D ∧ 3 ∈ D := by
  have hi : Guarded.splay.ins (fun a b => a - b) Splay.sampleHeap 1 3 0 .N 3 =
    some (Splay.sampleIns.get Splay.sampleIns_isSome) := Splay.sampleIns_eq
  have hr := stSample_run.ins ⟨by decide,by decide,by simp,rfl,rfl⟩ hi
  exact ⟨_,_,hr.rem (Set.mem_insert 3 _) (Option.some_get stEmptied_isSome).symm,Set.mem_insert 3 _⟩

theorem rem_again_iff_avl : ∃ fuel, avlRem (avlEmptied.get avlEmptied_isSome) 3 fuel = avlEmptied := by
  obtain ⟨S,D,hr,h3⟩ := avlEmptied_run
  obtain ⟨fuel,hf⟩ := (rem_again_iff isCmp_sub hr h3).2 rfl
  exact ⟨fuel,hf.trans (Option.some_get avlEmptied_isSome)⟩

/-- Removing the one node of a splay tree twice. -/
theorem rem_again_splay : ¬∀ (k : Guarded) (h : Heap k.Dat ℤ) (S D : Set Addr), GoneRun k (fun a b => a - b) 1 h S D →
    ∀ a ∈ D, ∃ fuel, k.rem h a fuel = some h := by
  intro hall
  obtain ⟨S,D,hr,h3⟩ := stEmptied_run
  obtain ⟨fuel,hf⟩ := hall .splay _ S D hr 3 h3
  have hn := rem_gone isCmp_sub .splay _ hr 3 h3 fuel
  rw [if_neg (by decide),hf] at hn
  cases hn

end Catlib.Linked
