import Catlib.Tree.Avl

/-! # AVL balance through a zipper

`IsAvl t`: the datum of every node is the height of its right subtree minus that of its
left one, and lies between -1 and 1. `Around c k`: the path is balanced as soon as the
focus has height `k`.
-/
namespace Catlib.Avl
open Linked

variable {κ : Type} {h h' : AvlHeap κ} {root : Addr} {c : Spine ℤ} {t : LTree ℤ} {k : ℤ}

def height : LTree ℤ → ℤ
  | .nil => 0
  | .node l _ _ r => max (height l) (height r) + 1

@[simp] theorem height_nil : height .nil = 0 := rfl
@[simp] theorem height_node (l : LTree ℤ) (a : Addr) (d : ℤ) (r : LTree ℤ) :
    height (.node l a d r) = max (height l) (height r) + 1 := rfl

theorem height_nonneg (t : LTree ℤ) : 0 ≤ height t := by
  induction t with
  | nil => exact le_rfl
  | node l a d r ihl ihr => rw [height_node]; omega

def IsAvl : LTree ℤ → Prop
  | .nil => True
  | .node l _ d r => IsAvl l ∧ IsAvl r ∧ d = height r - height l ∧ -1 ≤ d ∧ d ≤ 1

def Around : Spine ℤ → ℤ → Prop
  | [], _ => True
  | .inL _ d r :: c, k => IsAvl r ∧ d = height r - k ∧ -1 ≤ d ∧ d ≤ 1 ∧ Around c (max k (height r) + 1)
  | .inR l _ d :: c, k => IsAvl l ∧ d = k - height l ∧ -1 ≤ d ∧ d ≤ 1 ∧ Around c (max (height l) k + 1)

theorem isAvl_plug : IsAvl (plug c t) ↔ IsAvl t ∧ Around c (height t) := by
  induction c generalizing t with
  | nil => simp [Around]
  | cons f c ih =>
    cases f with
    | inL a d r =>
      rw [plug_cons,ih,fill_inL]
      simp only [IsAvl, Around, height_node]
      tauto
    | inR l a d =>
      rw [plug_cons,ih,fill_inR]
      simp only [IsAvl, Around, height_node]
      tauto

theorem Around.readdress {c₁ : Spine ℤ} {a b : Addr} {d : ℤ} {r : LTree ℤ}
    (ha : Around (c₁ ++ .inL a d r :: c) k) : Around (c₁ ++ .inL b d r :: c) k := by
  induction c₁ generalizing k with
  | nil => exact ha
  | cons f c₁ ih =>
    cases f with
    | inL a' d' r' => exact ⟨ha.1,ha.2.1,ha.2.2.1,ha.2.2.2.1,ih ha.2.2.2.2⟩
    | inR l' a' d' => exact ⟨ha.1,ha.2.1,ha.2.2.1,ha.2.2.2.1,ih ha.2.2.2.2⟩

/-! ## Rotations with balances -/

section
variable {h₀ : AvlHeap κ} {xs : List Addr} {A B C D : LTree ℤ} {n x y : Addr} {d e g : ℤ}

theorem avlRleft_spec (ins : Bool) (hz : Zip h root c (.node A n d (.node B x e C)))
    (hxs : (plug c (.node A n d (.node B x e C))).addrs = xs) (hk : Keeps h₀ h (root :: xs)) :
    ∃ h' b, avlRleft h n x ins = some h' ∧ Zip h' root c (.node (.node A n b B) x (-b) C) ∧
      b = (if ins ∨ 0 < e then 0 else 1) ∧ (plug c (.node (.node A n b B) x (-b) C)).addrs = xs ∧
      Keeps h₀ h' (root :: xs) := by
  obtain ⟨-,-,-,-,hnR,-,-⟩ := hz.sub
  obtain ⟨h1,hr,z1,hk1⟩ := hz.rotL
  rw [hxs] at hk1
  have hx1 : (plug c (.node (.node A n d B) x e C)).addrs = xs := by
    rw [← hxs]
    simp [addrs_plug]
  let b : ℤ := if ins ∨ 0 < e then 0 else 1
  obtain ⟨z2,hx2,hk2⟩ := Zip.overwrite b (zip_inL.mpr z1) hx1 (hk.trans hk1)
  obtain ⟨z3,hx3,hk3⟩ := Zip.overwrite (-b) (zip_inL.mp z2) hx2 hk2
  refine ⟨_,b,?_,z3,rfl,hx3,hk3⟩
  have he : (h1 x).dat = e := z1.sub.2.2.1
  simp only [LTree.ptr_node] at hnR
  simp only [rotL, hnR] at hr
  simp only [avlRleft, avlFix, ← he, b]
  by_cases h0 : n = 0 ∨ x = 0
  · simp [h0] at hr
  · rw [if_neg h0] at hr ⊢
    simp only [Option.bind_eq_bind, Option.bind_eq_some_iff] at hr ⊢
    obtain ⟨k1,e1,k2,e2,e3⟩ := hr
    refine ⟨k1,e1,k2,e2,h1,e3,?_⟩
    split <;> simp

theorem avlRright_spec (ins : Bool) (hz : Zip h root c (.node (.node A x e B) n d C))
    (hxs : (plug c (.node (.node A x e B) n d C)).addrs = xs) (hk : Keeps h₀ h (root :: xs)) :
    ∃ h' b, avlRright h n x ins = some h' ∧ Zip h' root c (.node A x b (.node B n (-b) C)) ∧
      b = (if ins ∨ e < 0 then 0 else 1) ∧ (plug c (.node A x b (.node B n (-b) C))).addrs = xs ∧
      Keeps h₀ h' (root :: xs) := by
  obtain ⟨-,-,-,hnL,-,-,-⟩ := hz.sub
  obtain ⟨h1,hr,z1,hk1⟩ := hz.rotR
  rw [hxs] at hk1
  have hx1 : (plug c (.node A x e (.node B n d C))).addrs = xs := by
    rw [← hxs]
    simp [addrs_plug]
  let b : ℤ := if ins ∨ e < 0 then 0 else 1
  obtain ⟨z2,hx2,hk2⟩ := Zip.overwrite (-b) (zip_inR.mpr z1) hx1 (hk.trans hk1)
  obtain ⟨z3,hx3,hk3⟩ := Zip.overwrite b (zip_inR.mp z2) hx2 hk2
  refine ⟨_,b,?_,z3,rfl,hx3,hk3⟩
  have he : (h1 x).dat = e := z1.sub.2.2.1
  simp only [LTree.ptr_node] at hnL
  simp only [rotR, hnL] at hr
  simp only [avlRright, avlFix, ← he, b]
  by_cases h0 : n = 0 ∨ x = 0
  · simp [h0] at hr
  · rw [if_neg h0] at hr ⊢
    simp only [Option.bind_eq_bind, Option.bind_eq_some_iff] at hr ⊢
    obtain ⟨k1,e1,k2,e2,e3⟩ := hr
    refine ⟨k1,e1,k2,e2,h1,e3,?_⟩
    split <;> simp

theorem avlZleft_spec (hz : Zip h root c (.node A n d (.node (.node B y g C) x e D)))
    (hg : -1 ≤ g ∧ g ≤ 1) (hxs : (plug c (.node A n d (.node (.node B y g C) x e D))).addrs = xs)
    (hk : Keeps h₀ h (root :: xs)) :
    ∃ h' b₁ b₂, avlZleft h n x y = some h' ∧ Zip h' root c (.node (.node A n b₁ B) y 0 (.node C x b₂ D)) ∧
      b₁ = (if g = 1 then -1 else 0) ∧ b₂ = (if g = -1 then 1 else 0) ∧
      (plug c (.node (.node A n b₁ B) y 0 (.node C x b₂ D))).addrs = xs ∧ Keeps h₀ h' (root :: xs) := by
  obtain ⟨h1,hr,z1,hk1⟩ := hz.zigL
  rw [hxs] at hk1
  have hx1 : (plug c (.node (.node A n d B) y g (.node C x e D))).addrs = xs := by
    rw [← hxs]
    simp [addrs_plug]
  let b₁ : ℤ := if g = 1 then -1 else 0
  let b₂ : ℤ := if g = -1 then 1 else 0
  obtain ⟨z2,hx2,hk2⟩ := Zip.overwrite b₁ (zip_inL.mpr z1) hx1 (hk.trans hk1)
  obtain ⟨z3,hx3,hk3⟩ := Zip.overwrite b₂ (zip_inR.mpr (zip_inL.mp z2)) hx2 hk2
  obtain ⟨z4,hx4,hk4⟩ := Zip.overwrite 0 (zip_inR.mp z3) hx3 hk3
  refine ⟨_,b₁,b₂,?_,z4,rfl,rfl,hx4,hk4⟩
  have hge : (h1 y).dat = g := z1.sub.2.2.1
  simp only [avlZleft, hr, Option.bind_eq_bind, Option.bind_some, hge, Option.pure_def, Option.some.injEq, b₁, b₂]
  obtain rfl | rfl | rfl : g = -1 ∨ g = 0 ∨ g = 1 := by omega
  all_goals simp

theorem avlZright_spec (hz : Zip h root c (.node (.node D x e (.node C y g B)) n d A))
    (hg : -1 ≤ g ∧ g ≤ 1) (hxs : (plug c (.node (.node D x e (.node C y g B)) n d A)).addrs = xs)
    (hk : Keeps h₀ h (root :: xs)) :
    ∃ h' b₁ b₂, avlZright h n x y = some h' ∧ Zip h' root c (.node (.node D x b₂ C) y 0 (.node B n b₁ A)) ∧
      b₁ = (if g = -1 then 1 else 0) ∧ b₂ = (if g = 1 then -1 else 0) ∧
      (plug c (.node (.node D x b₂ C) y 0 (.node B n b₁ A))).addrs = xs ∧ Keeps h₀ h' (root :: xs) := by
  obtain ⟨h1,hr,z1,hk1⟩ := hz.zigR
  rw [hxs] at hk1
  have hx1 : (plug c (.node (.node D x e C) y g (.node B n d A))).addrs = xs := by
    rw [← hxs]
    simp [addrs_plug]
  let b₁ : ℤ := if g = -1 then 1 else 0
  let b₂ : ℤ := if g = 1 then -1 else 0
  obtain ⟨z2,hx2,hk2⟩ := Zip.overwrite b₁ (zip_inR.mpr z1) hx1 (hk.trans hk1)
  obtain ⟨z3,hx3,hk3⟩ := Zip.overwrite b₂ (zip_inL.mpr (zip_inR.mp z2)) hx2 hk2
  obtain ⟨z4,hx4,hk4⟩ := Zip.overwrite 0 (zip_inL.mp z3) hx3 hk3
  refine ⟨_,b₁,b₂,?_,z4,rfl,rfl,hx4,hk4⟩
  have hge : (h1 y).dat = g := z1.sub.2.2.1
  simp only [avlZright, hr, Option.bind_eq_bind, Option.bind_some, hge, Option.pure_def, Option.some.injEq, b₁, b₂]
  obtain rfl | rfl | rfl : g = -1 ∨ g = 0 ∨ g = 1 := by omega
  all_goals simp

end

end Catlib.Avl

/-! # Insertion keeps an AVL tree

The loop of `avl_ins_at` carries a subtree that has grown by one level. A turn absorbs
the growth in the balance above, passes it on, or rotates.
-/
namespace Catlib.Avl
open Linked

variable {κ : Type} {h h₀ : AvlHeap κ} {root : Addr} {c : Spine ℤ} {t : LTree ℤ} {xs : List Addr}

/-- The state of the insertion loop: the subtree at `s.2` is one level higher than the
path expects, and leans to one side unless it is the new node itself. -/
def InsInv (h₀ : AvlHeap κ) (root : Addr) (xs : List Addr) (n : ℕ) (s : AvlHeap κ × Addr) : Prop :=
  ∃ c l b r k, Zip s.1 root c (.node l s.2 b r) ∧ IsAvl (.node l s.2 b r) ∧ Around c k ∧
    height (.node l s.2 b r) = k + 1 ∧ (b ≠ 0 ∨ k = 0) ∧
    (plug c (.node l s.2 b r)).addrs = xs ∧ Keeps h₀ s.1 (root :: xs) ∧ c.length = n

def InsDone (h₀ : AvlHeap κ) (root : Addr) (xs : List Addr) (h : AvlHeap κ) : Prop :=
  ∃ T, Zip h root [] T ∧ IsAvl T ∧ T.addrs = xs ∧ Keeps h₀ h (root :: xs)

theorem insDone_of {T : LTree ℤ} (hz : Zip h root c T) (hT : IsAvl T) (ha : Around c (height T))
    (hxs : (plug c T).addrs = xs) (hk : Keeps h₀ h (root :: xs)) : InsDone h₀ root xs h :=
  ⟨plug c T,zip_top.mp hz,isAvl_plug.mpr ⟨hT,ha⟩,hxs,hk⟩

theorem pos_of_height {t : LTree ℤ} (ht : 0 < height t) : ∃ l a d r, t = .node l a d r := by
  cases t with
  | nil => simp at ht
  | node l a d r => exact ⟨l,a,d,r,rfl⟩

theorem insBody_left {x p : Addr} {l r s : LTree ℤ} {b d k : ℤ}
    (hz : Zip h root (.inL p d s :: c) (.node l x b r)) (ht : IsAvl (.node l x b r))
    (ha : Around (.inL p d s :: c) k) (hh : height (.node l x b r) = k + 1) (hb : b ≠ 0 ∨ k = 0)
    (hxs : (plug (.inL p d s :: c) (.node l x b r)).addrs = xs) (hk : Keeps h₀ h (root :: xs)) :
    (∃ s' m, insBody (h,x) = some (.again s') ∧ m < c.length + 1 ∧ InsInv h₀ root xs m s') ∨
      ∃ h', insBody (h,x) = some (.leave h') ∧ InsDone h₀ root xs h' := by
  obtain ⟨hs,hd,hd1,hd2,hc⟩ := ha
  have hz0 := zip_inL.mp hz
  obtain ⟨-,-,hpd,-,-,⟨hxP,hxd,hxb,-,hxR,-⟩,-⟩ := hz0.sub
  have hp0 : p ≠ 0 := hz0.ne_zero (Zip.focus_mem (by simp))
  have hx0 : x ≠ 0 := hz0.ne_zero (Zip.focus_mem (by simp))
  obtain ⟨hl,hr,hbe,hb1,hb2⟩ := ht
  have hs0 := height_nonneg s
  rw [height_node] at hh
  obtain rfl | rfl | rfl : d = 1 ∨ d = 0 ∨ d = -1 := by lia
  · -- the other side was higher
    obtain ⟨z1,hx1,hk1⟩ := Zip.overwrite 0 hz0 hxs hk
    right
    refine ⟨setDat h p 0,by simp [insBody, hxd, hxP, nonnull_of_ne hp0, hpd],insDone_of z1 ?_ ?_ hx1 hk1⟩
    · exact ⟨⟨hl,hr,hbe,hb1,hb2⟩,hs,by rw [height_node]; lia,by lia,by lia⟩
    · rw [height_node,height_node]
      convert hc using 1
      lia
  · obtain ⟨z1,hx1,hk1⟩ := Zip.overwrite (-1) hz0 hxs hk
    left
    refine ⟨(setDat h p (-1),p),c.length,by simp [insBody, hxd, hxP, nonnull_of_ne hp0, hpd],by lia,
      c,_,_,_,_,z1,?_,hc,?_,Or.inl (by decide),hx1,hk1,rfl⟩
    · exact ⟨⟨hl,hr,hbe,hb1,hb2⟩,hs,by rw [height_node]; lia,by lia,by lia⟩
    · rw [height_node,height_node]
      lia
  · obtain ⟨z1,hx1,hk1⟩ := Zip.overwrite (-2) hz0 hxs hk
    right
    obtain ⟨-,-,-,hpL,-⟩ := z1.sub
    rw [LTree.ptr_node,setDat_pL] at hpL
    by_cases hlean : b < 0
    · obtain ⟨h2,b',hr2,z2,hb',hx2,hk2⟩ := avlRright_spec true z1 hx1 hk1
      obtain rfl : b' = 0 := by simpa using hb'
      have hxb' : (setDat h p (-2) x).dat = b := z1.sub.2.2.2.2.2.1.2.2.1
      refine ⟨h2,?_,insDone_of z2 ?_ ?_ hx2 hk2⟩
      · simp [insBody, hxd, hxP, nonnull_of_ne hp0, hpd, hpL, nonnull_of_ne hx0, hxb', hlean, hr2]
      · exact ⟨hl,⟨hr,hs,by lia,by lia,by lia⟩,by rw [height_node]; lia,by lia,by lia⟩
      · rw [height_node,height_node]
        convert hc using 1
        lia
    · -- the inner grandchild takes the place of the parent
      obtain ⟨rl,y,g,rr,rfl⟩ := pos_of_height (t := r) (by have := height_nonneg l; lia)
      obtain ⟨hrl,hrr,hg,hg1,hg2⟩ := hr
      obtain ⟨h2,b₁,b₂,hr2,z2,hb₁,hb₂,hx2,hk2⟩ := avlZright_spec z1 ⟨hg1,hg2⟩ hx1 hk1
      have hxb' : (setDat h p (-2) x).dat = b := z1.sub.2.2.2.2.2.1.2.2.1
      rw [LTree.ptr_node] at hxR
      simp only [height_node] at hh hbe
      refine ⟨h2,?_,insDone_of z2 ?_ ?_ hx2 hk2⟩
      · simp [insBody, hxd, hxP, nonnull_of_ne hp0, hpd, hpL, nonnull_of_ne hx0, hxb', hlean, hxR, hr2]
      · refine ⟨⟨hl,hrl,?_,?_,?_⟩,⟨hrr,hs,?_,?_,?_⟩,?_,by lia,by lia⟩
        all_goals try rw [height_node,height_node]
        all_goals split at hb₁ <;> split at hb₂ <;> lia
      · simp only [height_node]
        convert hc using 1
        lia

theorem insBody_right {x p : Addr} {l r s : LTree ℤ} {b d k : ℤ}
    (hz : Zip h root (.inR s p d :: c) (.node l x b r)) (ht : IsAvl (.node l x b r))
    (ha : Around (.inR s p d :: c) k) (hh : height (.node l x b r) = k + 1) (hb : b ≠ 0 ∨ k = 0)
    (hxs : (plug (.inR s p d :: c) (.node l x b r)).addrs = xs) (hk : Keeps h₀ h (root :: xs)) :
    (∃ s' m, insBody (h,x) = some (.again s') ∧ m < c.length + 1 ∧ InsInv h₀ root xs m s') ∨
      ∃ h', insBody (h,x) = some (.leave h') ∧ InsDone h₀ root xs h' := by
  obtain ⟨hs,hd,hd1,hd2,hc⟩ := ha
  have hz0 := zip_inR.mp hz
  obtain ⟨-,-,hpd,-,-,-,⟨hxP,hxd,hxb,hxL,-⟩⟩ := hz0.sub
  have hp0 : p ≠ 0 := hz0.ne_zero (Zip.focus_mem (by simp))
  have hx0 : x ≠ 0 := hz0.ne_zero (Zip.focus_mem (by simp))
  obtain ⟨hl,hr,hbe,hb1,hb2⟩ := ht
  have hs0 := height_nonneg s
  rw [height_node] at hh
  obtain rfl | rfl | rfl : d = -1 ∨ d = 0 ∨ d = 1 := by lia
  · obtain ⟨z1,hx1,hk1⟩ := Zip.overwrite 0 hz0 hxs hk
    right
    refine ⟨setDat h p 0,by simp [insBody, hxd, hxP, nonnull_of_ne hp0, hpd],insDone_of z1 ?_ ?_ hx1 hk1⟩
    · exact ⟨hs,⟨hl,hr,hbe,hb1,hb2⟩,by rw [height_node]; lia,by lia,by lia⟩
    · rw [height_node,height_node]
      convert hc using 1
      lia
  · obtain ⟨z1,hx1,hk1⟩ := Zip.overwrite 1 hz0 hxs hk
    left
    refine ⟨(setDat h p 1,p),c.length,by simp [insBody, hxd, hxP, nonnull_of_ne hp0, hpd],by lia,
      c,_,_,_,_,z1,?_,hc,?_,Or.inl (by decide),hx1,hk1,rfl⟩
    · exact ⟨hs,⟨hl,hr,hbe,hb1,hb2⟩,by rw [height_node]; lia,by lia,by lia⟩
    · rw [height_node,height_node]
      lia
  · obtain ⟨z1,hx1,hk1⟩ := Zip.overwrite 2 hz0 hxs hk
    right
    obtain ⟨-,-,-,-,hpR,-⟩ := z1.sub
    rw [LTree.ptr_node,setDat_pR] at hpR
    have hxb' : (setDat h p 2 x).dat = b := z1.sub.2.2.2.2.2.2.2.2.1
    by_cases hlean : 0 < b
    · obtain ⟨h2,b',hr2,z2,hb',hx2,hk2⟩ := avlRleft_spec true z1 hx1 hk1
      obtain rfl : b' = 0 := by simpa using hb'
      refine ⟨h2,?_,insDone_of z2 ?_ ?_ hx2 hk2⟩
      · simp [insBody, hxd, hxP, nonnull_of_ne hp0, hpd, hpR, nonnull_of_ne hx0, hxb', hlean, hr2]
      · exact ⟨⟨hs,hl,by lia,by lia,by lia⟩,hr,by rw [height_node]; lia,by lia,by lia⟩
      · rw [height_node,height_node]
        convert hc using 1
        lia
    · obtain ⟨ll,y,g,lr,rfl⟩ := pos_of_height (t := l) (by have := height_nonneg r; lia)
      obtain ⟨hll,hlr,hg,hg1,hg2⟩ := hl
      obtain ⟨h2,b₁,b₂,hr2,z2,hb₁,hb₂,hx2,hk2⟩ := avlZleft_spec z1 ⟨hg1,hg2⟩ hx1 hk1
      rw [LTree.ptr_node] at hxL
      simp only [height_node] at hh hbe
      refine ⟨h2,?_,insDone_of z2 ?_ ?_ hx2 hk2⟩
      · simp [insBody, hxd, hxP, nonnull_of_ne hp0, hpd, hpR, nonnull_of_ne hx0, hxb', hlean, hxL, hr2]
      · refine ⟨⟨hs,hll,?_,?_,?_⟩,⟨hlr,hr,?_,?_,?_⟩,?_,by lia,by lia⟩
        all_goals try rw [height_node,height_node]
        all_goals split at hb₁ <;> split at hb₂ <;> lia
      · simp only [height_node]
        convert hc using 1
        lia

theorem insBody_spec {n : ℕ} {s : AvlHeap κ × Addr} (hi : InsInv h₀ root xs n s) :
    (∃ s' m, insBody s = some (.again s') ∧ m < n ∧ InsInv h₀ root xs m s') ∨
      ∃ h', insBody s = some (.leave h') ∧ InsDone h₀ root xs h' := by
  obtain ⟨h,x⟩ := s
  obtain ⟨c,l,b,r,k,hz,ht,ha,hh,hb,hxs,hk,rfl⟩ := hi
  cases c with
  | nil =>
    have hd : (h x).pdir = .P := hz.sub.2.1
    exact Or.inr ⟨h,by simp [insBody, hd],insDone_of hz ht trivial hxs hk⟩
  | cons f c =>
    cases f with
    | inL p d s => exact insBody_left hz ht ha hh hb hxs hk
    | inR s p d => exact insBody_right hz ht ha hh hb hxs hk

theorem avlInsAt_spec {n fuel : ℕ} (hz : Zip h root c .nil) (hT : IsAvl (plug c .nil))
    (hn : n ∉ 0 :: root :: (plug c (.nil : LTree ℤ)).addrs) (hl : (h n).pL = 0) (hr : (h n).pR = 0)
    (hb : (h n).dat = 0) (hf : (plug c (.nil : LTree ℤ)).addrs.length < fuel) :
    ∃ h' T', avlInsAt h n (slot root c).1 (slot root c).2 fuel = some h' ∧ Zip h' root [] T' ∧
      IsAvl T' ∧ T'.addrs = lefts c ++ n :: rights c ∧
      Keeps h h' (root :: n :: (plug c (.nil : LTree ℤ)).addrs) := by
  have hn0 : n ≠ 0 := by rintro rfl; simp at hn
  obtain ⟨h1,hf1,hz1,hk1⟩ := hz.attach hn hl hr
  rw [hb] at hz1
  have hi : InsInv h1 root (plug c (.node .nil n 0 .nil)).addrs c.length (h1,n) :=
    ⟨c,.nil,0,.nil,0,hz1,⟨trivial,trivial,by simp,by simp,by simp⟩,(isAvl_plug.mp hT).2,rfl,Or.inr rfl,rfl,
      Keeps.refl _ _,rfl⟩
  obtain ⟨h2,hf2,T,hz2,hT2,hx2,hk2⟩ := loop_total (fun _ _ => insBody_spec) hi
    (show c.length < fuel by have := length_le_addrs c (.nil : LTree ℤ); omega)
  refine ⟨h2,T,?_,hz2,hT2,by rw [hx2]; simp [addrs_plug],hk1.trans (hk2.mono ?_)⟩
  · simp only [avlInsAt, nonnull_of_ne hn0, avlFix, hf1, hf2, Option.bind_eq_bind, Option.bind_some]
  · intro x hx
    simp only [addrs_plug, LTree.addrs_node, LTree.addrs_nil, List.mem_cons, List.mem_append] at hx ⊢
    tauto

theorem avlIns_absent {cmp : κ → κ → ℤ} {n loc fuel : ℕ} {dir : Dir} (hz : Zip h root c .nil)
    (hT : IsAvl (plug c .nil)) (hn : n ∉ 0 :: root :: (plug c (.nil : LTree ℤ)).addrs)
    (hl : (h n).pL = 0) (hr : (h n).pR = 0) (hb : (h n).dat = 0)
    (hf : (plug c (.nil : LTree ℤ)).addrs.length < fuel)
    (hloc : locate cmp h root (h n).key loc dir fuel = some (slot root c)) :
    ∃ h' T', avlIns cmp h root n loc dir fuel = some (h',0) ∧ Zip h' root [] T' ∧ IsAvl T' ∧
      T'.addrs = lefts c ++ n :: rights c ∧ (h' n).tree = root ∧ h'.keys = h.keys ∧
      ∀ x, x ≠ n → (h' x).tree = (h x).tree := by
  have hn0 : n ≠ 0 := by rintro rfl; simp at hn
  obtain ⟨h1,T1,hf1,hz1,hrb,hx,hk⟩ := avlInsAt_spec hz hT hn hl hr hb hf
  refine ⟨setTree h1 n root,T1,?_,hz1.setTree n root,hrb,hx,by simp [setTree],?_,?_⟩
  · simp [avlIns, hn0, hloc, slot_dir_ne root c, hf1]
  · rw [setTree_keys,hk.keys]
  · intro x hxn
    rw [setTree,Heap.put_of_ne hxn,hk.tree]

end Catlib.Avl
