import Catlib.Tree.SplayMove

/-! # Every run of the splay tree

A run starts from `st_init` and applies `st_ins`, `st_lkup` and `st_rem` in any order;
between two operations the client may do whatever it likes with nodes that are not in
the tree. The node set changes as a set of keys does, and the node an insertion or a
successful lookup is about ends up at the root.
-/
namespace Catlib.Splay
open Linked

variable {κ : Type} {cmp : κ → κ → ℤ} {h h' : StHeap κ} {t : Addr} {S : Set Addr}

/-! ## Replacement -/

theorem stIns_present (hc : IsCmp cmp) (ht : IsStTree cmp h t S) {n p : Addr} (hn : Fresh h t S n) (hp : p ∈ S)
    (he : cmp (h n).key (h p).key = 0) :
    ∃ fuel h', stIns cmp h t n fuel = some (h',p) ∧ h'.keys = h.keys ∧
      IsStTree cmp h' t (insert n (S \ {p})) ∧ (h' t).pP = n ∧ SameOff h h' t (insert n S) ∧ Detached h' t p := by
  have hset : SameOff h (setTree h n t) t (insert n S) := fun x _ hx =>
    Heap.put_of_ne fun hxn => hx (hxn ▸ Set.mem_insert n S)
  have ht1 : IsStTree cmp (setTree h n t) t S := ht.frame (by
    rintro x (rfl | hx)
    · exact Heap.put_of_ne hn.ne_root.symm
    · exact Heap.put_of_ne (by rintro rfl; exact hn.out hx))
  have hkey1 : (setTree h n t).keys = h.keys := setTree_keys h n t
  have hkn : (setTree h n t n).key = (h n).key := congrFun hkey1 n
  have hkp : (setTree h n t p).key = (h p).key := congrFun hkey1 p
  have hpt : p ≠ t := by rintro rfl; exact ht1.root_notin hp
  -- the descent stops at the node with the equal key
  obtain ⟨fuel,hl⟩ := ht1.findloc_present hc hp (show cmp (h n).key (setTree h n t p).key = 0 by rwa [hkp])
  -- it comes to the root, and the new node takes over its children and its slot
  obtain ⟨T,hz,hs,-,hS,htree⟩ := id ht1
  obtain ⟨c,l₀,⟨⟩,r₀,rfl⟩ := exists_plug ((hS p).mpr hp)
  obtain ⟨N,hN⟩ : ∃ N, N = (plug c (.node l₀ p () r₀)).addrs.length + 1 := ⟨_,rfl⟩
  obtain ⟨h1,l,r,hs1,hz1,hx1,hkeep⟩ := stSplay_spec (zip_top.mpr hz)
    (show _ < max fuel N by have := le_max_right fuel N; omega)
  have hk1 : h1.keys = (setTree h n t).keys := hkeep.keys
  have hx1' : (LTree.node l p () r).addrs = (plug c (.node l₀ p () r₀)).addrs := hx1
  have hsort : Sorted cmp h1.keys (LTree.node l p () r).addrs := by rwa [hx1',hk1]
  have hS1 : ∀ x, x ∈ (LTree.node l p () r).addrs ↔ x ∈ S := fun x => by rw [hx1',hS]
  have htree1 : ∀ x ∈ S, (h1 x).tree = t := fun x hx => by rw [hkeep.tree,htree x hx]
  have hl' := findloc_grows cmp (setTree h n t) t (h n).key (le_max_left fuel N) _ hl
  have hnT : n ∉ 0 :: t :: (plug [] (LTree.node l p () r)).addrs := by
    rw [plug_nil]
    simp only [List.mem_cons, not_or, hS1]
    exact ⟨hn.ne_zero,hn.ne_root,hn.out⟩
  obtain ⟨h2,h3,h4,hf2,hf3,hf4,hz4,e2,e3,e4,hk4⟩ := hz1.transplant hnT
  obtain ⟨s1,s2,-,s4,s5,-,-⟩ := hz1.sub
  have hna : n ≠ p := by rintro rfl; exact hn.out hp
  rw [← s4] at hf2
  rw [← s5,← e2] at hf3
  rw [← s1,← s2,← e3] at hf4
  have hkeys : (h4.put p { h4 p with pL := 0, pR := 0, pP := 0, pdir := .N }).keys = h.keys := by
    rw [← hkey1,← hk1,← hk4.keys]
    funext x
    by_cases hx : x = p
    · subst hx
      simp [Heap.keys]
    · simp [Heap.keys, Heap.put_of_ne hx]
  refine ⟨max fuel N,h4.put p { h4 p with pL := 0, pR := 0, pP := 0, pdir := .N },?_,hkeys,?_,?_,?_,?_⟩
  · simp only [stIns, nonnull_of_ne hn.ne_zero, Option.bind_eq_bind, Option.bind_some, stFindloc, hkn, hl', hpt,
      if_false, if_true, hs1, stFix, hf2, hf3, hf4, Option.pure_def]
  · refine isSearchTree_replace hz1 hsort hS1 htree1 hc ?_ hn.out
      (show Zip _ _ [] (.node l n (h1 n).dat r) from hz4.congr fun x hx => Heap.put_of_ne ?_) trivial (by simp [lefts, rights]) (by rw [hkeys, ← hkey1, hk1]) ?_ ?_
    · have hkn1 : (h1 n).key = (h n).key := by rw [← hkn]; exact congrFun hk1 n
      have hkp1 : (h1 p).key = (h p).key := by rw [← hkp]; exact congrFun hk1 p
      rw [hkn1,hkp1]
      exact he
    · rintro rfl
      have hd := hz1.distinct
      simp only [plug_nil, LTree.addrs_node, List.nodup_cons, List.mem_cons, List.mem_append, List.nodup_append,
        not_or] at hd hx
      grind
    · rw [Heap.put_of_ne hna,hk4.tree,hkeep.tree]
      simp [setTree]
    · intro x hx hxa
      rw [Heap.put_of_ne hxa,hk4.tree]
  · rw [Heap.put_of_ne (Ne.symm hpt)]
    exact hz4.root_slot
  · have hS4 : ∀ x, x ∈ n :: (LTree.node l p () r).addrs → x ∈ insert n S := fun x hx => by
      rcases List.mem_cons.1 hx with rfl | hx
      · exact Set.mem_insert x S
      · exact Set.mem_insert_of_mem n ((hS1 x).1 hx)
    have hkeep' := hkeep.sameOff (S := insert n S) fun x hx => Set.mem_insert_of_mem n ((hS x).1 hx)
    have hk4' : SameOff h1 h4 t (insert n S) := fun x hx hxS => hk4.out x fun hm => by
      simp only [List.mem_cons, plug_nil] at hm
      grind
    refine ((hset.trans hkeep').trans hk4').trans fun x _ hx => Heap.put_of_ne ?_
    rintro rfl
    exact hx (Set.mem_insert_of_mem n hp)
  · refine ⟨by rw [Heap.put_self],by rw [Heap.put_self],?_⟩
    rw [Heap.put_self,hk4.tree,htree1 p hp]

theorem stIns_isStTree (hc : IsCmp cmp) (ht : IsStTree cmp h t S) {n : Addr} (hn : Fresh h t S n) :
    ∃ fuel h' p, stIns cmp h t n fuel = some (h',p) ∧ h'.keys = h.keys ∧
      (p = 0 ∧ (∀ x ∈ S, cmp (h n).key (h x).key ≠ 0) ∨ p ∈ S ∧ cmp (h n).key (h p).key = 0) ∧
      IsStTree cmp h' t (insert n (S \ {p})) ∧ (h' t).pP = n ∧ SameOff h h' t (insert n S) ∧
      (p ≠ 0 → Detached h' t p) := by
  by_cases habs : ∀ x ∈ S, cmp (h n).key (h x).key ≠ 0
  · obtain ⟨fuel,h',hi,hk,ht',hr,hs⟩ := stIns_absent hc ht hn habs
    refine ⟨fuel,h',0,hi,hk,Or.inl ⟨rfl,habs⟩,?_,hr,hs,fun h0 => absurd rfl h0⟩
    rwa [Set.sdiff_singleton_eq_self ht.zero_notin]
  · push Not at habs
    obtain ⟨p,hp,he⟩ := habs
    obtain ⟨fuel,h',hi,hk,ht',hr,hs,hd⟩ := stIns_present hc ht hn hp he
    exact ⟨fuel,h',p,hi,hk,Or.inr ⟨hp,he⟩,ht',hr,hs,fun _ => hd⟩

theorem stLkup_isStTree (hc : IsCmp cmp) (ht : IsStTree cmp h t S) (k : κ) :
    ∃ fuel h' a, stLkup cmp h t k fuel = some (h',a) ∧ h'.keys = h.keys ∧ IsStTree cmp h' t S ∧ SameOff h h' t S ∧
      (a = 0 ∧ (∀ x ∈ S, cmp k (h x).key ≠ 0) ∨ a ∈ S ∧ cmp k (h a).key = 0 ∧ (h' t).pP = a) := by
  by_cases habs : ∀ x ∈ S, cmp k (h x).key ≠ 0
  · obtain ⟨fuel,h',a,hl,hk,ht',hsame,ha⟩ := stLkup_spec hc ht k
    refine ⟨fuel,h',a,hl,hk,ht',hsame,Or.inl ?_⟩
    rcases ha with ha | ⟨ha,he⟩
    · exact ha
    · exact absurd he (habs a ha)
  · push Not at habs
    obtain ⟨p,hp,he⟩ := habs
    obtain ⟨fuel,hl⟩ := ht.findloc_present hc hp he
    have hat : p ≠ t := by rintro rfl; exact ht.root_notin hp
    obtain ⟨N,hsp⟩ := stSplay_isStTree ht hp
    obtain ⟨h',l,r,hs,hz,hkey,hs',hS',htree',-,hsame⟩ := hsp (max fuel N) (le_max_right _ _)
    have hl' := findloc_grows cmp h t k (le_max_left fuel N) _ hl
    refine ⟨max fuel N,h',p,?_,hkey,⟨_,hz,hs',trivial,hS',htree'⟩,hsame,Or.inr ⟨hp,he,hz.root_slot⟩⟩
    simp [stLkup, stFindloc, hl', hat, hs]

/-! ## Runs -/

/-- The states of a tree at the sentinel `t` under `st_init`, `st_ins`, `st_lkup`, `st_rem` and
client writes outside the tree, with the nodes that were inserted and neither removed nor replaced. -/
inductive StRun (cmp : κ → κ → ℤ) (t : Addr) : StHeap κ → Set Addr → Prop
  | init {h : StHeap κ} {k : κ} (ht : t ≠ 0) : StRun cmp t (stInit h t k) ∅
  | client {h h' : StHeap κ} {S : Set Addr} (hr : StRun cmp t h S)
      (hf : ∀ x, x = t ∨ x ∈ S → h' x = h x) : StRun cmp t h' S
  | ins {h h' : StHeap κ} {S : Set Addr} {n p : Addr} {fuel : ℕ} (hr : StRun cmp t h S)
      (hn : Fresh h t S n) (hi : stIns cmp h t n fuel = some (h',p)) : StRun cmp t h' (insert n (S \ {p}))
  | lkup {h h' : StHeap κ} {S : Set Addr} {k : κ} {a : Addr} {fuel : ℕ} (hr : StRun cmp t h S)
      (hl : stLkup cmp h t k fuel = some (h',a)) : StRun cmp t h' S
  | rem {h h' : StHeap κ} {S : Set Addr} {a : Addr} {fuel : ℕ} (hr : StRun cmp t h S) (ha : a ∈ S)
      (hd : stRem h a fuel = some h') : StRun cmp t h' (S \ {a})

theorem stRun_isStTree (hc : IsCmp cmp) (hr : StRun cmp t h S) : IsStTree cmp h t S := by
  induction hr with
  | init ht => exact isStTree_init ht
  | client _ hf ih => exact ih.frame hf
  | ins _ hn hi ih =>
    obtain ⟨m,h',p,hi',-,-,ht,-⟩ := stIns_isStTree hc ih hn
    cases Grows.agree (fun _ _ hkm => stIns_grows hkm _ _ _) hi hi'
    exact ht
  | lkup _ hl ih =>
    obtain ⟨m,h',a,hl',-,ht,-⟩ := stLkup_isStTree hc ih _
    cases Grows.agree (fun _ _ hkm => stLkup_grows hkm _ _ _) hl hl'
    exact ht
  | rem _ ha hd ih =>
    obtain ⟨m,h',hd',-,ht,-⟩ := stRem_spec ih ha
    cases Grows.agree (fun _ _ hkm => stRem_grows hkm _ _) hd hd'
    exact ht

/-- After every operation of every run the tree is a search tree on exactly the live nodes, and
every legal next operation comes back. An insertion leaves its node at the root and answers
with the one node of an equal key, a lookup that finds the key leaves its node at the root. -/
theorem stRun_spec (hc : IsCmp cmp) (hr : StRun cmp t h S) :
    IsStTree cmp h t S ∧
    (∀ n, Fresh h t S n → ∃ fuel h' p, stIns cmp h t n fuel = some (h',p) ∧ h'.keys = h.keys ∧
      (p = 0 ∧ (∀ x ∈ S, cmp (h n).key (h x).key ≠ 0) ∨ p ∈ S ∧ cmp (h n).key (h p).key = 0) ∧
      IsStTree cmp h' t (insert n (S \ {p})) ∧ (h' t).pP = n) ∧
    (∀ k, ∃ fuel h' a, stLkup cmp h t k fuel = some (h',a) ∧ h'.keys = h.keys ∧ IsStTree cmp h' t S ∧
      (a = 0 ∧ (∀ x ∈ S, cmp k (h x).key ≠ 0) ∨ a ∈ S ∧ cmp k (h a).key = 0 ∧ (h' t).pP = a)) ∧
    ∀ a ∈ S, ∃ fuel h', stRem h a fuel = some h' ∧ h'.keys = h.keys ∧ IsStTree cmp h' t (S \ {a}) := by
  have ht := stRun_isStTree hc hr
  refine ⟨ht,fun n hn => ?_,fun k => ?_,fun a ha => ?_⟩
  · obtain ⟨fuel,h',p,hi,hk,hp,ht',hr,-⟩ := stIns_isStTree hc ht hn
    exact ⟨fuel,h',p,hi,hk,hp,ht',hr⟩
  · obtain ⟨fuel,h',a,hl,hk,ht',-,ha⟩ := stLkup_isStTree hc ht k
    exact ⟨fuel,h',a,hl,hk,ht',ha⟩
  · obtain ⟨fuel,h',hd,hk,ht',-⟩ := stRem_spec ht ha
    exact ⟨fuel,h',hd,hk,ht'⟩

/-- A sentinel at 1 and two initialised nodes, the second of which is inserted. -/
def sampleHeap : StHeap ℤ := stNinit (stNinit (stInit (fun _ => ⟨0,0,0,.L,(),0,0⟩) 1 0) 2 7) 3 9

def sampleIns : Option (StHeap ℤ × Addr) := stIns (fun a b => a - b) sampleHeap 1 3 3

theorem sampleHeap_run : StRun (fun a b => a - b) 1 sampleHeap ∅ := by
  refine .client (.init (h := fun _ => ⟨0,0,0,.L,(),0,0⟩) (k := 0) (by decide)) ?_
  rintro x (rfl | hx)
  · rfl
  · exact absurd hx (Set.notMem_empty x)

theorem sampleIns_isSome : sampleIns.isSome := by decide

theorem sampleIns_eq : stIns (fun a b => a - b) sampleHeap 1 3 3 = some (sampleIns.get sampleIns_isSome) :=
  (Option.some_get sampleIns_isSome).symm

theorem stRun_spec_sample :
    IsStTree (fun a b => a - b) (sampleIns.get sampleIns_isSome).1 1
      (insert 3 (∅ \ {(sampleIns.get sampleIns_isSome).2})) :=
  (stRun_spec isCmp_sub (.ins sampleHeap_run ⟨by decide,by decide,by simp,rfl,rfl⟩ sampleIns_eq)).1

end Catlib.Splay
