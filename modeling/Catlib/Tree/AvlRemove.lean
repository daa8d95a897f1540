import Catlib.Tree.AvlInsert

/-! # Removal keeps an AVL tree

After the relinking one link has lost a level. The loop of `avl_rem` absorbs the loss in
the balance above, passes it on, or rotates and then does either.
-/
namespace Catlib.Avl
open Linked

variable {κ : Type} {h h₀ : AvlHeap κ} {root : Addr} {c : Spine ℤ} {t : LTree ℤ} {xs : List Addr}

/-- The removal loop stands at a link whose subtree is one level lower than the path expects. -/
def RemInv (h₀ : AvlHeap κ) (root : Addr) (xs : List Addr) (n : ℕ) (s : AvlHeap κ × Addr × Dir) : Prop :=
  ∃ c f, Zip s.1 root c f ∧ IsAvl f ∧ Around c (height f + 1) ∧ s.2 = slot root c ∧
    (plug c f).addrs = xs ∧ Keeps h₀ s.1 (root :: xs) ∧ c.length = n

theorem rem_after {T : LTree ℤ} {m n : ℕ} {k : ℤ} {w : Addr} {body : Option (Turn (AvlHeap κ × Addr × Dir) (AvlHeap κ))}
    (hz : Zip h root c T) (hT : IsAvl T) (hc : Around c k) (hxs : (plug c T).addrs = xs)
    (hk : Keeps h₀ h (root :: xs)) (hm : c.length = m) (hmn : m < n) (hw : T.ptr = w) (hw0 : T ≠ .nil)
    (hbody : height T = k ∧ body = some (.leave h) ∨
      height T + 1 = k ∧ body = some (.again (h,(h w).pP,(h w).pdir))) :
    (∃ s' m, body = some (.again s') ∧ m < n ∧ RemInv h₀ root xs m s') ∨
      ∃ h', body = some (.leave h') ∧ InsDone h₀ root xs h' := by
  rcases hbody with ⟨rfl,hb⟩ | ⟨rfl,hb⟩
  · exact Or.inr ⟨h,hb,insDone_of hz hT hc hxs hk⟩
  · refine Or.inl ⟨_,m,hb,hmn,c,T,hz,hT,hc,?_,hxs,hk,hm⟩
    cases T with
    | nil => exact absurd rfl hw0
    | node l a d r =>
      cases hw
      simp only [LTree.ptr_node]
      rw [hz.sub.1,hz.sub.2.1]

theorem remBody_left {p : Addr} {f s : LTree ℤ} {d : ℤ} (hz : Zip h root (.inL p d s :: c) f) (hf : IsAvl f)
    (ha : Around (.inL p d s :: c) (height f + 1)) (hxs : (plug (.inL p d s :: c) f).addrs = xs)
    (hk : Keeps h₀ h (root :: xs)) :
    (∃ s' m, remBody (h,p,.L) = some (.again s') ∧ m < c.length + 1 ∧ RemInv h₀ root xs m s') ∨
      ∃ h', remBody (h,p,.L) = some (.leave h') ∧ InsDone h₀ root xs h' := by
  obtain ⟨hs,hd,hd1,hd2,hc⟩ := ha
  have hz0 := zip_inL.mp hz
  obtain ⟨-,-,hpd,-⟩ := hz0.sub
  have hp0 : p ≠ 0 := hz0.ne_zero (Zip.focus_mem (by simp))
  have hf0 := height_nonneg f
  obtain rfl | rfl | rfl : d = -1 ∨ d = 0 ∨ d = 1 := by lia
  · obtain ⟨z1,hx1,hk1⟩ := Zip.overwrite 0 hz0 hxs hk
    refine rem_after z1 ⟨hf,hs,by lia,by lia,by lia⟩ hc hx1 hk1 rfl (Nat.lt_succ_self _) rfl (by simp)
      (Or.inr ⟨by rw [height_node]; lia,?_⟩)
    simp [remBody, nonnull_of_ne hp0, hpd]
  · obtain ⟨z1,hx1,hk1⟩ := Zip.overwrite 1 hz0 hxs hk
    refine rem_after z1 ⟨hf,hs,by lia,by lia,by lia⟩ hc hx1 hk1 rfl (Nat.lt_succ_self _) rfl (by simp)
      (Or.inl ⟨by rw [height_node]; lia,?_⟩)
    simp [remBody, nonnull_of_ne hp0, hpd]
  · -- the sibling is two levels higher
    obtain ⟨sl,x,b,sr,rfl⟩ := pos_of_height (t := s) (by lia)
    obtain ⟨z1,hx1,hk1⟩ := Zip.overwrite 2 hz0 hxs hk
    obtain ⟨-,-,-,-,hpR,-,-,-,hxb,hxL,-⟩ := z1.sub
    rw [LTree.ptr_node,setDat_pR] at hpR
    have hx0 : x ≠ 0 := z1.ne_zero (Zip.focus_mem (by simp))
    obtain ⟨hsl,hsr,hb,hb1,hb2⟩ := hs
    by_cases hlean : 0 ≤ b
    · obtain ⟨h2,b',hr2,z2,hb',hx2,hk2⟩ := avlRleft_spec false z1 hx1 hk1
      have hdx : (h2 x).dat = -b' := z2.sub.2.2.1
      simp only [Bool.false_eq_true, false_or] at hb'
      simp only [height_node] at hd hc
      refine rem_after (w := x) z2 ⟨⟨hf,hsl,?_,?_,?_⟩,hsr,?_,?_,?_⟩ hc hx2 hk2 rfl (Nat.lt_succ_self _) rfl
        (by simp) ?_
      any_goals split at hb' <;> first | lia | (simp only [height_node]; lia)
      by_cases hb0 : b = 0
      · subst hb0
        obtain rfl : b' = 1 := by simpa using hb'
        refine Or.inl ⟨by simp only [height_node]; lia,?_⟩
        simp [remBody, nonnull_of_ne hp0, hpd, hpR, nonnull_of_ne hx0, hxb, hr2, hdx]
      · obtain rfl : b' = 0 := by rw [hb',if_pos (by lia)]
        refine Or.inr ⟨by simp only [height_node]; lia,?_⟩
        simp [remBody, nonnull_of_ne hp0, hpd, hpR, nonnull_of_ne hx0, hxb, hlean, hr2, hdx]
    · obtain ⟨l1,y,g,l2,rfl⟩ := pos_of_height (t := sl) (by have := height_nonneg sr; lia)
      obtain ⟨hl1,hl2,hg,hg1,hg2⟩ := hsl
      obtain ⟨h2,b₁,b₂,hr2,z2,hb₁,hb₂,hx2,hk2⟩ := avlZleft_spec z1 ⟨hg1,hg2⟩ hx1 hk1
      rw [LTree.ptr_node,setDat_pL] at hxL
      simp only [height_node] at hd hc hb
      refine rem_after (w := y) z2 ⟨⟨hf,hl1,?_,?_,?_⟩,⟨hl2,hsr,?_,?_,?_⟩,?_,by lia,by lia⟩ hc hx2 hk2 rfl
        (Nat.lt_succ_self _) rfl (by simp) (Or.inr ⟨?_,?_⟩)
      any_goals split at hb₁ <;> split at hb₂ <;> first | lia | (simp only [height_node]; lia)
      simp [remBody, nonnull_of_ne hp0, hpd, hpR, nonnull_of_ne hx0, hxb, hlean, hxL, hr2]

theorem remBody_right {p : Addr} {f s : LTree ℤ} {d : ℤ} (hz : Zip h root (.inR s p d :: c) f) (hf : IsAvl f)
    (ha : Around (.inR s p d :: c) (height f + 1)) (hxs : (plug (.inR s p d :: c) f).addrs = xs)
    (hk : Keeps h₀ h (root :: xs)) :
    (∃ s' m, remBody (h,p,.R) = some (.again s') ∧ m < c.length + 1 ∧ RemInv h₀ root xs m s') ∨
      ∃ h', remBody (h,p,.R) = some (.leave h') ∧ InsDone h₀ root xs h' := by
  obtain ⟨hs,hd,hd1,hd2,hc⟩ := ha
  have hz0 := zip_inR.mp hz
  obtain ⟨-,-,hpd,-⟩ := hz0.sub
  have hp0 : p ≠ 0 := hz0.ne_zero (Zip.focus_mem (by simp))
  have hf0 := height_nonneg f
  obtain rfl | rfl | rfl : d = 1 ∨ d = 0 ∨ d = -1 := by lia
  · obtain ⟨z1,hx1,hk1⟩ := Zip.overwrite 0 hz0 hxs hk
    refine rem_after z1 ⟨hs,hf,by lia,by lia,by lia⟩ hc hx1 hk1 rfl (Nat.lt_succ_self _) rfl (by simp)
      (Or.inr ⟨by rw [height_node]; lia,?_⟩)
    simp [remBody, nonnull_of_ne hp0, hpd]
  · obtain ⟨z1,hx1,hk1⟩ := Zip.overwrite (-1) hz0 hxs hk
    refine rem_after z1 ⟨hs,hf,by lia,by lia,by lia⟩ hc hx1 hk1 rfl (Nat.lt_succ_self _) rfl (by simp)
      (Or.inl ⟨by rw [height_node]; lia,?_⟩)
    simp [remBody, nonnull_of_ne hp0, hpd]
  · obtain ⟨sl,x,b,sr,rfl⟩ := pos_of_height (t := s) (by lia)
    obtain ⟨z1,hx1,hk1⟩ := Zip.overwrite (-2) hz0 hxs hk
    obtain ⟨-,-,-,hpL,-,⟨-,-,hxb,-,hxR,-⟩,-⟩ := z1.sub
    rw [LTree.ptr_node,setDat_pL] at hpL
    have hx0 : x ≠ 0 := z1.ne_zero (Zip.focus_mem (by simp))
    obtain ⟨hsl,hsr,hb,hb1,hb2⟩ := hs
    by_cases hlean : b ≤ 0
    · obtain ⟨h2,b',hr2,z2,hb',hx2,hk2⟩ := avlRright_spec false z1 hx1 hk1
      have hdx : (h2 x).dat = b' := z2.sub.2.2.1
      simp only [Bool.false_eq_true, false_or] at hb'
      simp only [height_node] at hd hc
      refine rem_after (w := x) z2 ⟨hsl,⟨hsr,hf,?_,?_,?_⟩,?_,?_,?_⟩ hc hx2 hk2 rfl (Nat.lt_succ_self _) rfl
        (by simp) ?_
      any_goals split at hb' <;> first | lia | (simp only [height_node]; lia)
      by_cases hb0 : b = 0
      · subst hb0
        obtain rfl : b' = 1 := by simpa using hb'
        refine Or.inl ⟨by simp only [height_node]; lia,?_⟩
        simp [remBody, nonnull_of_ne hp0, hpd, hpL, nonnull_of_ne hx0, hxb, hr2, hdx]
      · obtain rfl : b' = 0 := by rw [hb',if_pos (by lia)]
        refine Or.inr ⟨by simp only [height_node]; lia,?_⟩
        simp [remBody, nonnull_of_ne hp0, hpd, hpL, nonnull_of_ne hx0, hxb, hlean, hr2, hdx]
    · obtain ⟨r1,y,g,r2,rfl⟩ := pos_of_height (t := sr) (by have := height_nonneg sl; lia)
      obtain ⟨hr1,hr2',hg,hg1,hg2⟩ := hsr
      obtain ⟨h2,b₁,b₂,hr2,z2,hb₁,hb₂,hx2,hk2⟩ := avlZright_spec z1 ⟨hg1,hg2⟩ hx1 hk1
      rw [LTree.ptr_node,setDat_pR] at hxR
      simp only [height_node] at hd hc hb
      refine rem_after (w := y) z2 ⟨⟨hsl,hr1,?_,?_,?_⟩,⟨hr2',hf,?_,?_,?_⟩,?_,by lia,by lia⟩ hc hx2 hk2 rfl
        (Nat.lt_succ_self _) rfl (by simp) (Or.inr ⟨?_,?_⟩)
      any_goals split at hb₁ <;> split at hb₂ <;> first | lia | (simp only [height_node]; lia)
      simp [remBody, nonnull_of_ne hp0, hpd, hpL, nonnull_of_ne hx0, hxb, hlean, hxR, hr2]

theorem remBody_spec {n : ℕ} {s : AvlHeap κ × Addr × Dir} (hi : RemInv h₀ root xs n s) :
    (∃ s' m, remBody s = some (.again s') ∧ m < n ∧ RemInv h₀ root xs m s') ∨
      ∃ h', remBody s = some (.leave h') ∧ InsDone h₀ root xs h' := by
  obtain ⟨h,trav,dir⟩ := s
  obtain ⟨c,f,hz,hf,ha,hs,hxs,hk,rfl⟩ := hi
  simp only at hz hs hk
  cases c with
  | nil =>
    cases hs
    exact Or.inr ⟨h,by simp [remBody],insDone_of hz hf trivial hxs hk⟩
  | cons g c =>
    cases g with
    | inL p d s =>
      cases hs
      exact remBody_left hz hf ha hxs hk
    | inR s p d =>
      cases hs
      exact remBody_right hz hf ha hxs hk

/-! ## Taking a node out -/

/-- What is left after the relinking: a tree without the node that has lost a level at a known link. -/
def Unlinked (h : AvlHeap κ) (root : Addr) (xs ys : List Addr) (s : AvlHeap κ × Addr × Dir) : Prop :=
  ∃ c f, Zip s.1 root c f ∧ IsAvl f ∧ Around c (height f + 1) ∧ s.2 = slot root c ∧ (plug c f).addrs = ys ∧
    Keeps h s.1 (root :: xs)

theorem avlUnlink_right {r : LTree ℤ} {a : Addr} {d : ℤ} {fuel : ℕ} (hz : Zip h root c (.node .nil a d r))
    (hT : IsAvl (plug c (.node .nil a d r))) :
    ∃ s, avlUnlink h a fuel = some s ∧ Unlinked h root (plug c (.node .nil a d r)).addrs
      (lefts c ++ r.addrs ++ rights c) s := by
  obtain ⟨h1,h2,-,h4,h5,-,hr⟩ := hz.sub
  obtain ⟨⟨-,hr',-,-,-⟩,hc⟩ := isAvl_plug.mp hT
  have hd := hz.focus_distinct
  simp only [LTree.addrs_node, LTree.addrs_nil, List.nil_append, List.nodup_cons] at hd
  obtain ⟨h',hf,hz',hk,ho⟩ := hz.hoist hr (by simp)
  have ha : h' a = h a := ho a (by simp) hd.1
  have hr0 := height_nonneg r
  rw [height_node,height_nil,max_eq_right hr0] at hc
  refine ⟨(h',slot root c),?_,c,r,hz',hr',hc,rfl,by simp [addrs_plug],hk⟩
  simp only [LTree.ptr_nil] at h4
  have hcond : ¬(r.ptr ≠ 0 ∧ (h a).pL ≠ r.ptr ∧ (h a).pR ≠ r.ptr) := by simp [h5]
  have hcond' : ¬(r.ptr ≠ 0 ∧ (h' a).pL = r.ptr) := by
    rw [ha,h4]
    rintro ⟨h0,h1⟩
    exact h0 h1.symm
  simp only [avlUnlink, avlFindrep, findrep, h4, if_true, Option.bind_eq_bind, Option.bind_some, h5, ne_eq,
    not_true_eq_false, and_false, if_false, avlFix, h1, h2, hf, if_neg hcond', Option.pure_def]

theorem avlUnlink_left {ll r : LTree ℤ} {a x : Addr} {d e : ℤ} {fuel : ℕ}
    (hz : Zip h root c (.node (.node ll x e .nil) a d r)) (hT : IsAvl (plug c (.node (.node ll x e .nil) a d r)))
    (hfuel : 0 < fuel) :
    ∃ s, avlUnlink h a fuel = some s ∧ Unlinked h root (plug c (.node (.node ll x e .nil) a d r)).addrs
      (lefts c ++ (LTree.node ll x e .nil).addrs ++ r.addrs ++ rights c) s := by
  obtain ⟨h1,h2,h3,h4,h5,hl,hr⟩ := hz.sub
  obtain ⟨⟨⟨hll,-,he,he1,he2⟩,hr',hde,hd1,hd2⟩,hc⟩ := isAvl_plug.mp hT
  have hd := hz.distinct
  simp only [addrs_plug, LTree.addrs_node, LTree.addrs_nil, List.nodup_cons, List.mem_cons, List.mem_append,
    List.nodup_append, List.not_mem_nil, or_false, not_or] at hd
  have hx0 : x ≠ 0 := by grind
  have hax : a ≠ x := by grind
  have hfr : rightmost h x fuel = some x := rightmost_leaf (zip_inL.mpr hz) hfuel
  obtain ⟨k1,hf1,z1,hk1,ho⟩ := hz.hoist hl (by simp)
  have ha1 : k1 a = h a := ho a (by simp) (by simp; grind)
  have z2 := z1.setDat d
  have ha2 : setDat k1 x d a = h a := by rw [setDat,Heap.put_of_ne hax,ha1]
  -- the right subtree goes to the empty slot of the child that moved up
  have hr2 : Holds (setDat k1 x d) r (a,.R) := by
    refine hr.congr (fun y hy => ?_)
    rw [setDat,Heap.put_of_ne (by grind)]
    exact ho y (by simp [hy]) (by simp; grind)
  obtain ⟨k3,hf3,z3,hk3⟩ := (zip_inR.mpr z2).above.store hr2 (by
    simp only [plug_cons, fill_inR, addrs_plug, LTree.addrs_node, List.nodup_cons, List.mem_cons, List.mem_append,
      List.nodup_append]
    grind)
  have z3' := zip_inR.mp z3
  simp only [slot_inR] at hf3
  have hmem : ∀ y ∈ (LTree.node (.node ll x e .nil) a d r).addrs,
      y ∈ root :: (plug c (.node (.node ll x e .nil) a d r)).addrs :=
    fun y hy => List.mem_cons_of_mem _ (Zip.focus_mem hy)
  have hll0 := height_nonneg ll
  have hr0 := height_nonneg r
  simp only [height_node, height_nil] at hc hde he
  refine ⟨(k3,x,.L),?_,.inL x d r :: c,ll,zip_inL.mpr z3',hll,⟨hr',by lia,hd1,hd2,?_⟩,rfl,by simp [addrs_plug],
    (hk1.trans (setDat_keeps (hmem x (by simp)))).trans (hk3 _ (hmem x (by simp)) (fun h0 => hmem _ ?_))⟩
  · simp only [LTree.ptr_node] at hf1 h4
    simp only [avlUnlink, avlFindrep, findrep, h4, hx0, if_false, hfr, Option.bind_eq_bind, Option.bind_some, ne_eq,
      not_true_eq_false, false_and, and_false, avlFix, h1, h2, hf1, ha1, not_false_eq_true, true_and, if_true, h3,
      ha2, h5, hf3, Option.pure_def]
  · convert hc using 1
    lia
  · simp [LTree.ptr_mem h0]

theorem avlUnlink_far {h₁ h₂ h₃ h₄ : AvlHeap κ} {a m : Addr} {fuel : ℕ} (hrep : avlFindrep h a fuel = some m)
    (hm : m ≠ 0) (hL : (h a).pL ≠ m) (hR : (h a).pR ≠ m)
    (hf1 : fix h (h m).pP (h m).pL (h m).pdir = some h₁) (hf2 : fix h₁ m (h₁ a).pL .L = some h₂)
    (hf3 : fix h₂ m (h₂ a).pR .R = some h₃) (hf4 : fix h₃ (h₃ a).pP m (h₃ a).pdir = some h₄) :
    avlUnlink h a fuel = some (setDat h₄ m (h₄ a).dat,(h m).pP,(h m).pdir) := by
  simp only [avlUnlink, hrep, Option.bind_eq_bind, Option.bind_some, ne_eq, hm, not_false_eq_true, hL, hR, and_self,
    if_true, avlFix, hf1, hf2, hf3, hf4, Option.pure_def]

theorem avlUnlink_deep {l' r : LTree ℤ} {a m : Addr} {d e : ℤ} {fuel : ℕ} {c₁ : Spine ℤ} (hc₁ : c₁ ≠ [])
    (hz : Zip h root c (.node (plug c₁ (.node l' m e .nil)) a d r))
    (hT : IsAvl (plug c (.node (plug c₁ (.node l' m e .nil)) a d r)))
    (hm : rightmost h (plug c₁ (.node l' m e .nil)).ptr fuel = some m) (hr1 : rights c₁ = []) :
    ∃ s, avlUnlink h a fuel = some s ∧ Unlinked h root (plug c (.node (plug c₁ (.node l' m e .nil)) a d r)).addrs
      (lefts c ++ (plug c₁ (.node l' m e .nil)).addrs ++ r.addrs ++ rights c) s := by
  obtain ⟨h1,h2,h3,h4,h5,-,-⟩ := hz.sub
  have hzm : Zip h root (c₁ ++ .inL a d r :: c) (.node l' m e .nil) := zip_plug.mpr (zip_inL.mpr hz)
  have hT' : IsAvl (plug (c₁ ++ .inL a d r :: c) (.node l' m e .nil)) := by rwa [plug_append]
  obtain ⟨⟨hl',-,he,-,-⟩,hc⟩ := isAvl_plug.mp hT'
  have hd := hz.distinct
  have hpm := plug_ptr_mem hc₁ (.node l' m e .nil)
  have hpm' := plug_ptr_mem hc₁ l'
  simp only [addrs_plug, LTree.addrs_node, LTree.addrs_nil, hr1, List.nodup_cons, List.mem_cons, List.mem_append,
    List.nodup_append, List.not_mem_nil, or_false, not_or, List.append_nil] at hd hpm hpm'
  have hrp : r.ptr ≠ 0 → r.ptr ∈ r.addrs := LTree.ptr_mem
  have hp0 : (plug c₁ (.node l' m e .nil)).ptr ≠ 0 := by grind
  have hm0 : m ≠ 0 := by grind
  have hml : (plug c₁ (.node l' m e .nil)).ptr ≠ m := by grind
  have hmr : r.ptr ≠ m := by grind
  -- its left child takes its place
  obtain ⟨k1,hf1,z1,hk1,ho1⟩ := hzm.hoist hzm.sub.2.2.2.2.2.1 (by simp)
  have hsm := hzm.sub
  simp only [Holds] at hsm
  have z1' : Zip k1 root c (.node (plug c₁ l') a d r) := zip_inL.mp (zip_plug.mp z1)
  -- it takes the children, the slot and the balance of the node
  have hout : m ∉ 0 :: root :: (plug c (.node (plug c₁ l') a d r)).addrs := by
    simp only [addrs_plug, LTree.addrs_node, hr1, List.mem_cons, List.mem_append, not_or, List.append_nil]
    grind
  obtain ⟨s1,s2,s3,s4,s5,-,-⟩ := z1'.sub
  obtain ⟨k3,k4,k5,hf3,hf4,hf5,z5,e3,e4,e5,hk5⟩ := z1'.transplant hout
  have z6 := z5.setDat d
  have hsub : ∀ y ∈ root :: m :: (plug c (.node (plug c₁ l') a d r)).addrs,
      y ∈ root :: (plug c (.node (plug c₁ (.node l' m e .nil)) a d r)).addrs := by
    intro y hy
    simp only [addrs_plug, LTree.addrs_node, LTree.addrs_nil, hr1, List.mem_cons, List.mem_append,
      List.not_mem_nil, or_false, List.append_nil] at hy ⊢
    clear * - hy
    tauto
  have hkk : Keeps h (setDat k5 m d) (root :: (plug c (.node (plug c₁ (.node l' m e .nil)) a d r)).addrs) := by
    refine ((hk1.mono ?_).trans (hk5.mono hsub)).trans (setDat_keeps (hsub m (by simp)))
    intro y hy
    rwa [plug_append] at hy
  have hl0 := height_nonneg l'
  simp only [height_node, height_nil] at hc
  refine ⟨(setDat k5 m d,slot root (c₁ ++ .inL a d r :: c)),?_,c₁ ++ .inL m d r :: c,l',
    zip_plug.mpr (zip_inL.mpr z6),hl',?_,?_,?_,hkk⟩
  · have hrep : avlFindrep h a fuel = some m := by
      rw [← h4] at hm hp0
      simp only [avlFindrep, findrep, hp0, if_false, hm]
    have hslot : slot root (c₁ ++ .inL a d r :: c) = ((h m).pP,(h m).pdir) := by rw [hsm.1,hsm.2.1]
    have hd5 : (k5 a).dat = d := by rw [e5,s3]
    rw [hslot,← hd5]
    rw [← hsm.2.2.2.1,← hsm.1,← hsm.2.1] at hf1
    rw [← s4] at hf3
    rw [← s5,← e3] at hf4
    rw [← s1,← s2,← e4] at hf5
    exact avlUnlink_far hrep hm0 (h4 ▸ hml) (h5 ▸ hmr) hf1 hf3 hf4 hf5
  · rw [max_eq_left hl0] at hc
    exact hc.readdress
  · cases c₁ with
    | nil => exact absurd rfl hc₁
    | cons f c₁ => cases f <;> rfl
  · simp [plug_append, addrs_plug, hr1]

theorem avlUnlink_spec {l r : LTree ℤ} {a : Addr} {d : ℤ} {fuel : ℕ} (hz : Zip h root c (.node l a d r))
    (hT : IsAvl (plug c (.node l a d r))) (hf : (plug c (.node l a d r)).addrs.length < fuel) :
    ∃ s, avlUnlink h a fuel = some s ∧ Unlinked h root (plug c (.node l a d r)).addrs
      (lefts c ++ l.addrs ++ r.addrs ++ rights c) s := by
  cases l with
  | nil => simpa using avlUnlink_right hz hT
  | node ll x e lr =>
    simp only [addrs_plug, LTree.addrs_node, List.length_append, List.length_cons] at hf
    obtain ⟨c₁,l',m,e',hl,hr1,hm⟩ := rightmost_spec (zip_inL.mpr hz) (show lr.addrs.length < fuel by omega)
    by_cases hc₁ : c₁ = []
    · subst hc₁
      obtain ⟨rfl,rfl,rfl,rfl⟩ : l' = ll ∧ m = x ∧ e' = e ∧ .nil = lr := by simpa using hl
      exact avlUnlink_left hz hT (by omega)
    · rw [← hl] at hz hT ⊢
      exact avlUnlink_deep hc₁ hz hT (by rw [hl]; exact hm) hr1

theorem avlRem_spec {l r : LTree ℤ} {a : Addr} {d : ℤ} {fuel : ℕ} (hz : Zip h root c (.node l a d r))
    (hT : IsAvl (plug c (.node l a d r))) (ht : (h a).tree ≠ 0)
    (hf : (plug c (.node l a d r)).addrs.length < fuel) :
    ∃ h' T', avlRem h a fuel = some h' ∧ Zip h' root [] T' ∧ IsAvl T' ∧
      T'.addrs = lefts c ++ l.addrs ++ r.addrs ++ rights c ∧ h'.keys = h.keys ∧
      ∀ x, x ≠ a → (h' x).tree = (h x).tree := by
  have ha0 : a ≠ 0 := hz.ne_zero (Zip.focus_mem (by simp))
  obtain ⟨⟨h1,trav,dir⟩,hu,c',f,hz1,hf1,hc1,hs,hx1,hk1⟩ := avlUnlink_spec hz hT hf
  simp only at hz1 hs hk1
  have hd := hz.distinct
  simp only [addrs_plug, LTree.addrs_node, List.nodup_cons, List.mem_cons, List.mem_append, List.nodup_append,
    not_or] at hd
  have hna : a ∉ root :: (plug c' f).addrs := by
    rw [hx1]
    simp only [List.mem_cons, List.mem_append, not_or]
    grind
  let h2 := h1.put a { h1 a with pL := 0, pP := 0, pR := 0, tree := 0, pdir := .P, dat := 0 }
  have hz2 : Zip h2 root c' f := hz1.congr (fun y hy => Heap.put_of_ne (by rintro rfl; exact hna hy))
  have hi : RemInv h2 root (plug c' f).addrs c'.length (h2,trav,dir) :=
    ⟨c',f,hz2,hf1,hc1,hs,rfl,Keeps.refl _ _,rfl⟩
  have hlen := length_le_addrs c' f
  have hlen' : (plug c' f).addrs.length < (plug c (.node l a d r)).addrs.length := by
    rw [hx1,addrs_plug]
    simp only [LTree.addrs_node, List.length_append, List.length_cons]
    omega
  obtain ⟨h3,hl,T',hz3,hT3,hx3,hk3⟩ := loop_total (fun _ _ => remBody_spec) hi (show c'.length < fuel by omega)
  refine ⟨h3,T',?_,hz3,hT3,hx3.trans hx1,?_,?_⟩
  · simp only [avlRem, nonnull_of_ne ha0, Option.bind_eq_bind, Option.bind_some, ht, if_false, hu]
    exact hl
  · rw [hk3.keys,← hk1.keys]
    funext x
    by_cases hx : x = a
    · subst hx; simp [Heap.keys, h2]
    · simp [Heap.keys, h2, Heap.put_of_ne hx]
  · intro x hx
    rw [hk3.tree,show h2 x = h1 x from Heap.put_of_ne hx,hk1.tree]

end Catlib.Avl
