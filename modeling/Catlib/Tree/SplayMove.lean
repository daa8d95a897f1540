import Catlib.Tree.Splay
import Catlib.Tree.SearchTree

/-! # Splaying moves a node to the root

The loop of `st_splay` shortens the path above the node by one or two steps a turn and
keeps the order of the tree; the operations of the splay tree follow.
-/
namespace Catlib.Splay
open Linked

variable {κ : Type} {h h₀ : StHeap κ} {root : Addr} {c : Spine Unit} {t : LTree Unit} {xs : List Addr}

/-! ## Double rotations in the order of splay.h -/

theorem stZrr_eq {n p gp : Addr} (hn : n ≠ 0) (hp : p ≠ 0) (hg : gp ≠ 0) (h1 : (h n).pP = p) (h2 : (h p).pP = gp) :
    stZrr h n = zagR h gp p n := by
  simp [stZrr, zagR, h1, h2, nonnull_of_ne hp, nonnull_of_ne hg, hn, hp, hg, stFix]

theorem stZll_eq {n p gp : Addr} (hn : n ≠ 0) (hp : p ≠ 0) (hg : gp ≠ 0) (h1 : (h n).pP = p) (h2 : (h p).pP = gp) :
    stZll h n = zagL h gp p n := by
  simp [stZll, zagL, h1, h2, nonnull_of_ne hp, nonnull_of_ne hg, hn, hp, hg, stFix]

theorem fix_bind_read {a par cld : Addr} {d : Dir} (ha : a ≠ par) (hac : a ≠ cld) (hpc : par ≠ cld)
    (f : Node Unit κ → StHeap κ → Option (StHeap κ)) :
    (fix h par cld d).bind (fun h' => f (h' a) h') = (fix h par cld d).bind (fun h' => f (h a) h') := by
  by_cases h0 : par = 0 ∨ d = .N
  · simp [fix, h0]
  · rw [not_or] at h0
    obtain ⟨h',hf,-,-,ho⟩ := fix_spec h par cld d h0.1 h0.2 hpc
    simp only [hf, Option.bind_some, ho a ha hac]

theorem zig_swap {n p gp B C : Addr} {d d' : Dir} {s : StHeap κ → Addr × Dir} (hd : d ≠ .P) (hd' : d' ≠ .P)
    (hdd : d ≠ d') (hpg : p ≠ gp) (hBC : B = 0 ∨ B ≠ C) :
    ((fix h gp B d).bind fun h => (fix h p C d').bind fun h => (fix h (s h).1 n (s h).2).bind fun h =>
      (fix h n p d).bind fun h => fix h n gp d') =
    ((fix h p C d').bind fun h => (fix h gp B d).bind fun h => (fix h (s h).1 n (s h).2).bind fun h =>
      (fix h n gp d').bind fun h => fix h n p d) := by
  have hend : ∀ h : StHeap κ, ((fix h n p d).bind fun h => fix h n gp d') =
      (fix h n gp d').bind fun h => fix h n p d :=
    fun h => fix_comm h hd hd' (Or.inr hdd) (Or.inr hpg)
  simp only [hend]
  rw [← Option.bind_assoc,← Option.bind_assoc,fix_comm h hd hd' (Or.inr hdd) hBC]
  simp only [Option.bind_assoc]

theorem stZlr_eq {l r s u : LTree Unit} {n p gp : Addr}
    (hz : Zip h root c (.node (.node s p () (.node l n () r)) gp () u)) : stZlr h n = zigR h gp p n := by
  obtain ⟨-,-,-,-,-,⟨hpP,-,-,-,-,-,⟨hnP,-,-,hnL,hnR,-⟩⟩,-⟩ := hz.sub
  have hd := hz.focus_distinct
  have h0 : ∀ y ∈ (LTree.node (.node s p () (.node l n () r)) gp () u).addrs, y ≠ 0 :=
    fun y hy => hz.ne_zero (Zip.focus_mem hy)
  simp only [LTree.addrs_node, List.nodup_append, List.nodup_cons, List.mem_append, List.mem_cons, not_or] at hd h0
  have hn0 : n ≠ 0 := by grind
  have hp0 : p ≠ 0 := by grind
  have hg0 : gp ≠ 0 := by grind
  have hlm : l.ptr ≠ 0 → l.ptr ∈ l.addrs := LTree.ptr_mem
  have hrm : r.ptr ≠ 0 → r.ptr ∈ r.addrs := LTree.ptr_mem
  simp only [stZlr, zigR, hnP, hpP, nonnull_of_ne hp0, nonnull_of_ne hg0, hn0, hp0, hg0, or_self, if_false,
    Option.bind_eq_bind, Option.bind_some, stFix]
  rw [fix_bind_read (a := n) (by grind) (by grind) (by grind) (fun nd h => (fix h p nd.pL .R).bind _),
    fix_bind_read (a := n) (by grind) (by grind) (by grind) (fun nd h => (fix h gp nd.pR .L).bind _)]
  exact zig_swap (s := fun h => ((h gp).pP,(h gp).pdir)) (by simp) (by simp) (by simp) (by grind) (by grind)

theorem stZrl_eq {l r s u : LTree Unit} {n p gp : Addr}
    (hz : Zip h root c (.node u gp () (.node (.node l n () r) p () s))) : stZrl h n = zigL h gp p n := by
  obtain ⟨-,-,-,-,-,-,⟨hpP,-,-,-,-,⟨hnP,-,-,hnL,hnR,-⟩,-⟩⟩ := hz.sub
  have hd := hz.focus_distinct
  have h0 : ∀ y ∈ (LTree.node u gp () (.node (.node l n () r) p () s)).addrs, y ≠ 0 :=
    fun y hy => hz.ne_zero (Zip.focus_mem hy)
  simp only [LTree.addrs_node, List.nodup_append, List.nodup_cons, List.mem_append, List.mem_cons, not_or] at hd h0
  have hn0 : n ≠ 0 := by grind
  have hp0 : p ≠ 0 := by grind
  have hg0 : gp ≠ 0 := by grind
  have hlm : l.ptr ≠ 0 → l.ptr ∈ l.addrs := LTree.ptr_mem
  have hrm : r.ptr ≠ 0 → r.ptr ∈ r.addrs := LTree.ptr_mem
  simp only [stZrl, zigL, hnP, hpP, nonnull_of_ne hp0, nonnull_of_ne hg0, hn0, hp0, hg0, or_self, if_false,
    Option.bind_eq_bind, Option.bind_some, stFix]
  rw [fix_bind_read (a := n) (by grind) (by grind) (by grind) (fun nd h => (fix h p nd.pR .L).bind _),
    fix_bind_read (a := n) (by grind) (by grind) (by grind) (fun nd h => (fix h gp nd.pL .R).bind _)]
  exact zig_swap (s := fun h => ((h gp).pP,(h gp).pdir)) (by simp) (by simp) (by simp) (by grind) (by grind)

/-! ## The loop -/

/-- The loop of `st_splay` has brought the node within `m` steps of the root. -/
def SplayInv (h₀ : StHeap κ) (root n : Addr) (xs : List Addr) (m : ℕ) (h : StHeap κ) : Prop :=
  ∃ c l r, Zip h root c (.node l n () r) ∧ (plug c (.node l n () r)).addrs = xs ∧ Keeps h₀ h (root :: xs) ∧
    c.length = m

theorem splayInv_of {m k : ℕ} {n : Addr} {h' : StHeap κ} {l r t : LTree Unit} (hz : Zip h' root c (.node l n () r))
    (hx : (plug c t).addrs = xs) (hk' : Keeps h h' (root :: (plug c t).addrs)) (hk : Keeps h₀ h (root :: xs))
    (ht : (LTree.node l n () r).addrs = t.addrs) (hc : c.length = k) (hm : k < m) :
    ∃ k, k < m ∧ SplayInv h₀ root n xs k h' := by
  refine ⟨k,hm,c,l,r,hz,?_,?_,hc⟩
  · rw [addrs_plug,ht,← addrs_plug,hx]
  · rw [hx] at hk'
    exact hk.trans hk'

theorem splayBody_spec {m : ℕ} {n : Addr} {h : StHeap κ} (hi : SplayInv h₀ root n xs m h) :
    (∃ h' k, splayBody n h = some (.again h') ∧ k < m ∧ SplayInv h₀ root n xs k h') ∨
      ∃ h', splayBody n h = some (.leave h') ∧ SplayInv h₀ root n xs 0 h' := by
  obtain ⟨c,l,r,hz,hx,hk,rfl⟩ := hi
  have hn0 : n ≠ 0 := hz.ne_zero (Zip.focus_mem (by simp))
  match c with
  | [] =>
    have hd : (h n).pdir = .P := hz.sub.2.1
    exact Or.inr ⟨h,by simp [splayBody, hd],[],l,r,hz,hx,hk,rfl⟩
  | [.inL p () s] =>
    left
    have z := zip_inL.mp hz
    have hp0 : p ≠ 0 := z.ne_zero (by simp)
    obtain ⟨-,hpd,-,-,-,⟨hnP,hnd,-⟩,-⟩ := z.sub
    simp only [slot_nil] at hpd
    obtain ⟨h',hr,hz',hk'⟩ := z.rotR
    obtain ⟨k,hm,hi⟩ := splayInv_of hz' hx hk' hk (by simp) rfl (show 0 < 1 by decide)
    exact ⟨h',k,by simp [splayBody, hnd, hnP, nonnull_of_ne hp0, hpd, stRr, hr],hm,hi⟩
  | [.inR s p ()] =>
    left
    have z := zip_inR.mp hz
    have hp0 : p ≠ 0 := z.ne_zero (by simp)
    obtain ⟨-,hpd,-,-,-,-,⟨hnP,hnd,-⟩⟩ := z.sub
    simp only [slot_nil] at hpd
    obtain ⟨h',hr,hz',hk'⟩ := z.rotL
    obtain ⟨k,hm,hi⟩ := splayInv_of hz' hx hk' hk (by simp) rfl (show 0 < 1 by decide)
    exact ⟨h',k,by simp [splayBody, hnd, hnP, nonnull_of_ne hp0, hpd, stRl, hr],hm,hi⟩
  | .inL p () s :: .inL gp () u :: c =>
    left
    have z := zip_inL.mp (zip_inL.mp hz)
    have hp0 : p ≠ 0 := z.ne_zero (Zip.focus_mem (by simp))
    have hg0 : gp ≠ 0 := z.ne_zero (Zip.focus_mem (by simp))
    obtain ⟨-,-,-,-,-,⟨hpP,hpd,-,-,-,⟨hnP,hnd,-⟩,-⟩,-⟩ := z.sub
    obtain ⟨h',hr,hz',hk'⟩ := z.zagR
    rw [← stZrr_eq hn0 hp0 hg0 hnP hpP] at hr
    obtain ⟨k,hm,hi⟩ := splayInv_of hz' hx hk' hk (by simp) rfl (show c.length < c.length + 2 by omega)
    exact ⟨h',k,by simp [splayBody, hnd, hnP, nonnull_of_ne hp0, hpd, hr],hm,hi⟩
  | .inR s p () :: .inL gp () u :: c =>
    left
    have z := zip_inL.mp (zip_inR.mp hz)
    have hp0 : p ≠ 0 := z.ne_zero (Zip.focus_mem (by simp))
    obtain ⟨-,-,-,-,-,⟨hpP,hpd,-,-,-,-,⟨hnP,hnd,-⟩⟩,-⟩ := z.sub
    obtain ⟨h',hr,hz',hk'⟩ := z.zigR
    rw [← stZlr_eq z] at hr
    obtain ⟨k,hm,hi⟩ := splayInv_of hz' hx hk' hk (by simp) rfl (show c.length < c.length + 2 by omega)
    exact ⟨h',k,by simp [splayBody, hnd, hnP, nonnull_of_ne hp0, hpd, hr],hm,hi⟩
  | .inL p () s :: .inR u gp () :: c =>
    left
    have z := zip_inR.mp (zip_inL.mp hz)
    have hp0 : p ≠ 0 := z.ne_zero (Zip.focus_mem (by simp))
    obtain ⟨-,-,-,-,-,-,⟨hpP,hpd,-,-,-,⟨hnP,hnd,-⟩,-⟩⟩ := z.sub
    obtain ⟨h',hr,hz',hk'⟩ := z.zigL
    rw [← stZrl_eq z] at hr
    obtain ⟨k,hm,hi⟩ := splayInv_of hz' hx hk' hk (by simp) rfl (show c.length < c.length + 2 by omega)
    exact ⟨h',k,by simp [splayBody, hnd, hnP, nonnull_of_ne hp0, hpd, hr],hm,hi⟩
  | .inR s p () :: .inR u gp () :: c =>
    left
    have z := zip_inR.mp (zip_inR.mp hz)
    have hp0 : p ≠ 0 := z.ne_zero (Zip.focus_mem (by simp))
    have hg0 : gp ≠ 0 := z.ne_zero (Zip.focus_mem (by simp))
    obtain ⟨-,-,-,-,-,-,⟨hpP,hpd,-,-,-,-,⟨hnP,hnd,-⟩⟩⟩ := z.sub
    obtain ⟨h',hr,hz',hk'⟩ := z.zagL
    rw [← stZll_eq hn0 hp0 hg0 hnP hpP] at hr
    obtain ⟨k,hm,hi⟩ := splayInv_of hz' hx hk' hk (by simp) rfl (show c.length < c.length + 2 by omega)
    exact ⟨h',k,by simp [splayBody, hnd, hnP, nonnull_of_ne hp0, hpd, hr],hm,hi⟩

theorem stSplay_spec {l r : LTree Unit} {n : Addr} {fuel : ℕ} (hz : Zip h root c (.node l n () r))
    (hf : (plug c (.node l n () r)).addrs.length < fuel) :
    ∃ h' l' r', stSplay h n fuel = some h' ∧ Zip h' root [] (.node l' n () r') ∧
      l'.addrs ++ n :: r'.addrs = (plug c (.node l n () r)).addrs ∧
      Keeps h h' (root :: (plug c (.node l n () r)).addrs) := by
  have hn0 : n ≠ 0 := hz.ne_zero (Zip.focus_mem (by simp))
  have hi : SplayInv h root n (plug c (.node l n () r)).addrs c.length h := ⟨c,l,r,hz,rfl,Keeps.refl _ _,rfl⟩
  obtain ⟨h',hl,c',l',r',hz',hx',hk',hc'⟩ := loop_total (fun _ _ => splayBody_spec) hi
    (show c.length < fuel by have := length_le_addrs c (.node l n () r); omega)
  obtain rfl : c' = [] := List.length_eq_zero_iff.mp hc'
  exact ⟨h',l',r',by simp [stSplay, nonnull_of_ne hn0, hl],hz',hx',hk'⟩

/-! ## Operations -/

/-- The shape of a splay tree is not constrained. -/
abbrev IsStTree (cmp : κ → κ → ℤ) (h : StHeap κ) (t : Addr) (S : Set Addr) : Prop :=
  IsSearchTree (fun _ => True) cmp h t S

/-- What is left of a node that went: it is unlinked, and its owner is still the tree. -/
def Detached (h : StHeap κ) (t n : Addr) : Prop := (h n).pP = 0 ∧ (h n).pdir = .N ∧ (h n).tree = t

variable {cmp : κ → κ → ℤ} {S : Set Addr}

theorem isStTree_init {k : κ} (ht : root ≠ 0) : IsStTree cmp (stInit h root k) root ∅ :=
  isSearchTree_empty ht (by simp [stInit, stNinit]) trivial

theorem stSplay_isStTree (ht : IsStTree cmp h root S) {n : Addr} (hn : n ∈ S) :
    ∃ N, ∀ fuel, N ≤ fuel → ∃ h' l r, stSplay h n fuel = some h' ∧ Zip h' root [] (.node l n () r) ∧
      h'.keys = h.keys ∧ Sorted cmp h'.keys (LTree.node l n () r).addrs ∧
      (∀ x, x ∈ (LTree.node l n () r).addrs ↔ x ∈ S) ∧ (∀ x ∈ S, (h' x).tree = root) ∧
      (LTree.node l n () r).addrs.length < N ∧ SameOff h h' root S := by
  obtain ⟨T,hz,hs,-,hS,htree⟩ := ht
  obtain ⟨c,l,⟨⟩,r,rfl⟩ := exists_plug ((hS n).mpr hn)
  refine ⟨(plug c (.node l n () r)).addrs.length + 1,fun fuel hf => ?_⟩
  obtain ⟨h',l',r',hl,hz',hx',hk⟩ := stSplay_spec (zip_top.mpr hz) (show _ < fuel by omega)
  have hx : (LTree.node l' n () r').addrs = (plug c (.node l n () r)).addrs := hx'
  refine ⟨h',l',r',hl,hz',hk.keys,?_,fun x => by rw [hx,hS],fun x hx => ?_,by rw [hx]; omega,hk.sameOff fun x hx => (hS x).1 hx⟩
  · rw [hx,hk.keys]
    exact hs
  · rw [hk.tree,htree x hx]

theorem stLkup_spec (hc : IsCmp cmp) (ht : IsStTree cmp h root S) (k : κ) :
    ∃ fuel h' a, stLkup cmp h root k fuel = some (h',a) ∧ h'.keys = h.keys ∧ IsStTree cmp h' root S ∧ SameOff h h' root S ∧
      (a = 0 ∧ (∀ x ∈ S, cmp k (h x).key ≠ 0) ∨ a ∈ S ∧ cmp k (h a).key = 0) := by
  have hroot : root ∉ S := ht.root_notin
  obtain ⟨fuel,a,d,hl,hf⟩ := ht.findloc hc k
  by_cases ha : a = root
  · subst ha
    have hk : ∀ x ∈ S, cmp k (h x).key ≠ 0 := by
      rcases hf with ⟨-,hk,-⟩ | ⟨-,ha,-⟩
      · exact hk
      · exact absurd ha hroot
    exact ⟨fuel,h,0,by simp [stLkup, stFindloc, hl],rfl,ht,fun _ _ _ => rfl,Or.inl ⟨rfl,hk⟩⟩
  · have haS : a ∈ S := by tauto
    obtain ⟨N,hsp⟩ := stSplay_isStTree ht haS
    obtain ⟨h',l,r,hs,hz',hkey,hs',hS',htree',-,hsame⟩ := hsp (max fuel N) (by omega)
    have hl' := findloc_grows cmp h root k (show fuel ≤ max fuel N by omega) _ hl
    have ht' : IsStTree cmp h' root S := ⟨_,hz',hs',trivial,hS',htree'⟩
    rcases hf with ⟨hd,hk,-⟩ | ⟨rfl,-,hk⟩
    · exact ⟨max fuel N,h',0,by simp [stLkup, stFindloc, hl', ha, hs, hd],hkey,ht',hsame,Or.inl ⟨rfl,hk⟩⟩
    · exact ⟨max fuel N,h',a,by simp [stLkup, stFindloc, hl', ha, hs],hkey,ht',hsame,Or.inr ⟨haS,hk⟩⟩

theorem stIns_absent (hc : IsCmp cmp) (ht : IsStTree cmp h root S) {n : Addr} (hn : Fresh h root S n)
    (habs : ∀ x ∈ S, cmp (h n).key (h x).key ≠ 0) :
    ∃ fuel h', stIns cmp h root n fuel = some (h',0) ∧ h'.keys = h.keys ∧
      IsStTree cmp h' root (insert n S) ∧ (h' root).pP = n ∧ SameOff h h' root (insert n S) := by
  have hset : SameOff h (setTree h n root) root (insert n S) := fun x _ hx =>
    Heap.put_of_ne fun hxn => hx (hxn ▸ Set.mem_insert n S)
  have ht1 : IsStTree cmp (setTree h n root) root S := ht.frame (by
    rintro x (rfl | hx)
    · exact Heap.put_of_ne hn.ne_root.symm
    · exact Heap.put_of_ne (by rintro rfl; exact hn.out hx))
  have hkey1 : (setTree h n root).keys = h.keys := setTree_keys h n root
  have hkn : (setTree h n root n).key = (h n).key := congrFun hkey1 n
  have hroot : root ∉ S := ht1.root_notin
  obtain ⟨T,hz,hs,-,hS,htree⟩ := id ht1
  obtain ⟨⟨p,d⟩,hl,hf⟩ := findloc_spec hc hz hs (h n).key (Nat.lt_succ_self _)
  rcases hf.dir_eq with ⟨hN,c,rfl,hpd,hb,hy⟩ | ⟨rfl,c,l,e,r,rfl,hk⟩
  · have hnT : n ∉ 0 :: root :: (plug c (.nil : LTree Unit)).addrs := by
      simp only [List.mem_cons, not_or, hS]
      exact ⟨hn.ne_zero,hn.ne_root,hn.out⟩
    obtain ⟨h2,hf2,hz2,hk2⟩ := (zip_top.mpr hz).attach hnT (by simp [setTree, hn.left]) (by simp [setTree, hn.right])
    have ht2 : IsStTree cmp h2 root (insert n S) := by
      refine isSearchTree_insert hs hS htree (by rwa [hkn]) (by rwa [hkn]) hn.out (zip_top.mp hz2) trivial
        (by simp [addrs_plug]) hk2.keys ?_ (fun x _ => hk2.tree x)
      rw [hk2.tree]
      simp [setTree]
    have hsame2 : SameOff h h2 root (insert n S) := hset.trans (hk2.sameOff fun x hx => by
      rcases List.mem_cons.1 hx with rfl | hx
      · exact Set.mem_insert x S
      · exact Set.mem_insert_of_mem n ((hS x).1 hx))
    by_cases hpr : p = root
    · have hd : d = .P := by
        cases c with
        | nil => exact (Prod.mk.inj hpd).2
        | cons f c =>
          have hm : p ∈ S := by
            rw [← hS,(Prod.mk.inj hpd).1]
            cases f <;> simp [addrs_plug, Frame.addr]
          exact absurd (hpr ▸ hm) hroot
      have hc0 : c = [] := ((zip_top.mpr hz).path_nil_iff).mp (by rw [← hpd]; exact hd)
      have hlink : (h2 root).pP = n := by
        subst hc0
        exact hz2.root_slot
      rw [← hpd,hpr,hd] at hf2
      refine ⟨(plug c (.nil : LTree Unit)).addrs.length.succ,h2,?_,by rw [hk2.keys,hkey1],ht2,hlink,hsame2⟩
      simp only [stIns, nonnull_of_ne hn.ne_zero, Option.bind_eq_bind, Option.bind_some, stFindloc, hkn, hl, hpr,
        if_true, stFix, hf2, Option.pure_def]
    · obtain ⟨N,hsp⟩ := stSplay_isStTree ht2 (Set.mem_insert n S)
      obtain ⟨h3,l,r,hs3,hz3,hkey3,hs3',hS3,htree3,-,hsame3⟩ := hsp _ (le_max_right (plug c (.nil : LTree Unit)).addrs.length.succ N)
      have hl' := findloc_grows cmp (setTree h n root) root (h n).key (le_max_left _ N) _ hl
      rw [← hpd] at hf2
      refine ⟨max (plug c (.nil : LTree Unit)).addrs.length.succ N,h3,?_,by rw [hkey3,hk2.keys,hkey1],
        ⟨_,hz3,hs3',trivial,hS3,htree3⟩,hz3.root_slot,hsame2.trans hsame3⟩
      simp only [stIns, nonnull_of_ne hn.ne_zero, Option.bind_eq_bind, Option.bind_some, stFindloc, hkn, hl', hpr,
        if_false, hN, stFix, hf2, hs3, Option.pure_def]
  · have hp : p ∈ S := (hS p).mp (by simp [addrs_plug])
    have hkp : (setTree h n root p).key = (h p).key := congrFun hkey1 p
    exact absurd (hkp ▸ hk) (habs p hp)

theorem stIns_spec (hc : IsCmp cmp) (ht : IsStTree cmp h root S) {n : Addr} (hn : Fresh h root S n)
    (habs : ∀ x ∈ S, cmp (h n).key (h x).key ≠ 0) :
    ∃ fuel h', stIns cmp h root n fuel = some (h',0) ∧ h'.keys = h.keys ∧ IsStTree cmp h' root (insert n S) := by
  obtain ⟨fuel,h',hi,hk,ht',-⟩ := stIns_absent hc ht hn habs
  exact ⟨fuel,h',hi,hk,ht'⟩

theorem right_nil_of_last {l r T : LTree Unit} {m : Addr} {ys : List Addr} (hT : T.addrs.Nodup)
    (hx : l.addrs ++ m :: r.addrs = T.addrs) (hl : T.addrs = ys ++ [m]) : r = .nil := by
  cases r with
  | nil => rfl
  | node rl a d rr =>
    have hm : m ∈ (LTree.node rl a d rr).addrs := by
      have h1 : (l.addrs ++ m :: (LTree.node rl a d rr).addrs).getLast? = some m := by
        rw [hx,hl]
        simp
      rw [List.getLast?_append_of_ne_nil _ (by simp),List.getLast?_cons_of_ne_nil (by simp)] at h1
      exact List.mem_of_getLast? h1
    rw [← hx,List.nodup_append,List.nodup_cons] at hT
    exact absurd hm hT.2.1.1

theorem stJoin_both {l r : LTree Unit} {n : Addr} {fuel : ℕ} (hz : Zip h root [] (.node l n () r))
    (hl0 : l ≠ .nil) (hr0 : r ≠ .nil) (hf : l.addrs.length < fuel) :
    ∃ h' T, stJoin h root n fuel = some h' ∧ Zip h' root [] T ∧ T.addrs = l.addrs ++ r.addrs ∧
      Keeps h h' (root :: (LTree.node l n () r).addrs) := by
  obtain ⟨-,-,-,h4,h5,hl,hr⟩ := hz.sub
  have hd := hz.distinct
  simp only [plug_nil, LTree.addrs_node, List.nodup_cons, List.mem_cons, List.mem_append, List.nodup_append,
    not_or] at hd
  obtain ⟨c₁,l',m,⟨⟩,hlm,hr1,hm⟩ := rightmost_of_ne_nil (zip_inL.mpr hz) hl0 hf
  obtain ⟨k1,hf1,z1,hk1,ho1⟩ := hz.hoist hl (by simp)
  rw [← hlm] at z1
  obtain ⟨k2,l2,r2,hs2,z2,hx2,hk2⟩ := stSplay_spec (zip_top.mpr z1) (show _ < fuel by rw [hlm]; exact hf)
  have hlast : (plug c₁ (.node l' m () .nil)).addrs = (lefts c₁ ++ l'.addrs) ++ [m] := by simp [addrs_plug, hr1]
  obtain rfl := right_nil_of_last (by rw [hlm]; exact hd.2.2.1) hx2 hlast
  rw [hlm] at hx2 hk2
  have hout : ∀ y, y ∈ n :: r.addrs → k2 y = h y := by
    intro y hy
    rw [hk2.out y (by simp only [List.mem_cons, not_or] at hy ⊢; grind)]
    refine ho1 y (by simp only [LTree.addrs_node, List.mem_cons, List.mem_append] at hy ⊢; tauto) ?_
    simp only [List.mem_cons] at hy
    grind
  have hr2 : Holds k2 r (n,.R) := hr.congr (fun y hy => hout y (by simp [hy]))
  have hmem2 : ∀ y, y ∈ l2.addrs ∨ y = m ↔ y ∈ l.addrs := by
    intro y
    rw [← hx2]
    simp
  have hd2 : (0 :: root :: (plug [.inR l2 m ()] r).addrs).Nodup := by
    simp only [plug_cons, plug_nil, fill_inR, LTree.addrs_node]
    have hx2' : l2.addrs ++ m :: r.addrs = l.addrs ++ r.addrs := by
      rw [← hx2]
      simp
    rw [hx2']
    simp only [List.nodup_cons, List.mem_cons, List.mem_append, List.nodup_append]
    grind
  obtain ⟨k3,hf3,z3,hk3⟩ := (zip_inR.mpr z2).above.store hr2 hd2
  simp only [slot_inR] at hf3 hk3
  have hmn : m ≠ n ∧ r.ptr ≠ n := by
    have hmm := (hmem2 m).mp (Or.inr rfl)
    have hrp : r.ptr ≠ 0 → r.ptr ∈ r.addrs := LTree.ptr_mem
    constructor <;> grind
  refine ⟨k3,.node l2 m () r,?_,zip_inR.mp z3,?_,?_⟩
  · have hlp : l.ptr ≠ 0 := by rwa [Ne,LTree.ptr_eq_zero (by grind)]
    have hrp : r.ptr ≠ 0 := by rwa [Ne,LTree.ptr_eq_zero (by grind)]
    have hm0 : (k2 m).pR = 0 := z2.sub.2.2.2.2.1
    have hn2 : (k2 n).pR = r.ptr := by rw [hout n (by simp),h5]
    simp only [slot_nil] at hf1
    simp only [stJoin, h4, h5, hlp, hrp, and_self, if_false, hm, stFix, hf1, hs2, hm0, hn2, hf3, ne_eq,
      not_true_eq_false, Option.bind_eq_bind, Option.bind_some]
  · rw [← hx2]
    simp
  · refine ((hk1.mono (fun y hy => hy)).trans (hk2.mono ?_)).trans (hk3 _ ?_ ?_)
    · intro y hy
      simp only [plug_nil, LTree.addrs_node, List.mem_cons, List.mem_append] at hy ⊢
      tauto
    · exact List.mem_cons_of_mem _ (by simp [(hmem2 m).mp (Or.inr rfl)])
    · exact fun h0 => List.mem_cons_of_mem _ (by simp [LTree.ptr_mem h0])

theorem stJoin_spec {l r : LTree Unit} {n : Addr} {fuel : ℕ} (hz : Zip h root [] (.node l n () r))
    (hf : l.addrs.length < fuel) :
    ∃ h' T, stJoin h root n fuel = some h' ∧ Zip h' root [] T ∧ T.addrs = l.addrs ++ r.addrs ∧
      Keeps h h' (root :: (LTree.node l n () r).addrs) := by
  obtain ⟨-,-,-,h4,h5,hl,hr⟩ := hz.sub
  have hd := hz.distinct
  simp only [plug_nil, LTree.addrs_node, List.nodup_cons, List.mem_cons, List.mem_append] at hd
  have hlp : l.ptr = 0 ↔ l = .nil := LTree.ptr_eq_zero (by tauto)
  have hrp : r.ptr = 0 ↔ r = .nil := LTree.ptr_eq_zero (by tauto)
  by_cases hl0 : l = .nil
  · obtain ⟨h',hf',z',hk',-⟩ := hz.hoist hr (by simp [hl0])
    refine ⟨h',r,?_,z',by simp [hl0],hk'⟩
    by_cases hr0 : r = .nil
    · subst hl0 hr0
      simpa [stJoin, stFix, h4, h5] using hf'
    · simpa [stJoin, stFix, h4, h5, hrp, hr0, hl0] using hf'
  · by_cases hr0 : r = .nil
    · obtain ⟨h',hf',z',hk',-⟩ := hz.hoist hl (by simp [hr0])
      exact ⟨h',l,by simpa [stJoin, stFix, h4, h5, hlp, hr0, hl0] using hf',z',by simp [hr0],hk'⟩
    · exact stJoin_both hz hl0 hr0 hf

theorem stRem_spec (ht : IsStTree cmp h root S) {n : Addr} (hn : n ∈ S) :
    ∃ fuel h', stRem h n fuel = some h' ∧ h'.keys = h.keys ∧ IsStTree cmp h' root (S \ {n}) ∧ SameOff h h' root S ∧
      Detached h' root n := by
  have htree : (h n).tree = root := ht.choose_spec.2.2.2.2 n hn
  have hr0 : root ≠ 0 := ht.choose_spec.1.root_ne_zero
  have hn0 : n ≠ 0 := by rintro rfl; exact ht.zero_notin hn
  obtain ⟨N,hsp⟩ := stSplay_isStTree ht hn
  obtain ⟨h1,l,r,hs1,z1,hkey1,hsd1,hS1,htree1,hN,hsame1⟩ := hsp N le_rfl
  simp only [LTree.addrs_node, List.length_append] at hN
  obtain ⟨h2,T,hj,z2,hx2,hk2⟩ := stJoin_spec z1 (show l.addrs.length < N by omega)
  have hd := z1.distinct
  simp only [plug_nil, LTree.addrs_node, List.nodup_cons, List.mem_cons, List.mem_append, List.nodup_append,
    not_or] at hd
  have hka : Keeps h2 (h2.put n { h2 n with pL := 0, pR := 0, pP := 0, pdir := .N }) [n] := Keeps.put rfl rfl
  refine ⟨N,_,?_,by rw [hka.keys,hk2.keys,hkey1],isSearchTree_erase z1 hsd1 hS1 htree1
    (z2.congr fun y hy => Heap.put_of_ne ?_) trivial (by simp [hx2, lefts, rights]) (by rw [hka.keys,hk2.keys])
    (fun x _ => by rw [hka.tree,hk2.tree]),?_,by simp,by simp,by rw [hka.tree,hk2.tree,htree1 n hn]⟩
  · simp only [stRem, nonnull_of_ne hn0, Option.bind_eq_bind, Option.bind_some, htree, hr0, if_false, hs1, hj,
      Option.pure_def]
  · rintro rfl
    simp only [plug_nil, hx2, List.mem_cons, List.mem_append] at hy
    grind
  · refine (hsame1.trans (hk2.sameOff fun x hx => (hS1 x).1 hx)).trans fun x _ hx => Heap.put_of_ne ?_
    rintro rfl
    exact hx hn

/-! ## Budgets -/

theorem stSplay_grows {k m : ℕ} (hkm : k ≤ m) (h : StHeap κ) (n : Addr) : Grows (stSplay h n k) (stSplay h n m) :=
  Grows.bind (.refl _) (fun _ => loop_grows hkm _)

theorem stLkup_grows {k m : ℕ} (hkm : k ≤ m) (h : StHeap κ) (t : Addr) (key : κ) :
    Grows (stLkup cmp h t key k) (stLkup cmp h t key m) := by
  refine Grows.bind (findloc_grows cmp h t key hkm) ?_
  rintro ⟨n,dir⟩
  exact Grows.ite (.refl _) (Grows.bind (stSplay_grows hkm h n) (fun _ => .refl _))

theorem stIns_grows {k m : ℕ} (hkm : k ≤ m) (h : StHeap κ) (t n : Addr) :
    Grows (stIns cmp h t n k) (stIns cmp h t n m) := by
  refine Grows.bind (.refl _) (fun n => Grows.bind (findloc_grows cmp _ t _ hkm) ?_)
  rintro ⟨p,dir⟩
  refine Grows.ite (.refl _) (Grows.ite (Grows.bind (stSplay_grows hkm _ _) (fun _ => .refl _)) ?_)
  exact Grows.bind (.refl _) (fun _ => Grows.bind (stSplay_grows hkm _ _) (fun _ => .refl _))

theorem stJoin_grows {k m : ℕ} (hkm : k ≤ m) (h : StHeap κ) (t n : Addr) : Grows (stJoin h t n k) (stJoin h t n m) := by
  refine Grows.ite (.refl _) (Grows.ite (.refl _) (Grows.ite (.refl _) (Grows.bind ?_ (fun rep => ?_))))
  · exact loop_grows hkm _
  · exact Grows.bind (.refl _) (fun _ => Grows.bind (stSplay_grows hkm _ _) (fun _ => .refl _))

theorem stRem_grows {k m : ℕ} (hkm : k ≤ m) (h : StHeap κ) (n : Addr) : Grows (stRem h n k) (stRem h n m) := by
  refine Grows.bind (.refl _) (fun n => Grows.ite (.refl _) (Grows.bind (stSplay_grows hkm h n) (fun _ => ?_)))
  exact Grows.bind (stJoin_grows hkm _ _ _) (fun _ => .refl _)

end Catlib.Splay
