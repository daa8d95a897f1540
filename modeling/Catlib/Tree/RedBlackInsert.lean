import Catlib.Tree.RedBlack

/-! # Red-black balance through a zipper

`Bh t n`: no red node of `t` has a red child and every path to a null link passes `n`
black nodes. `PathOk c n`: the path around the focus is balanced as soon as the focus
brings `n` black nodes.
-/
namespace Catlib.RedBlack
open Linked

variable {κ : Type} {h : RbHeap κ} {root : Addr} {c : Spine Color} {t : LTree Color}

/-- The colour a link to the tree shows. -/
def color : LTree Color → Color
  | .nil => .black
  | .node _ _ d _ => d

@[simp] theorem color_nil : color .nil = .black := rfl
@[simp] theorem color_node (l : LTree Color) (a : Addr) (d : Color) (r : LTree Color) :
    color (.node l a d r) = d := rfl

def Bh : LTree Color → ℕ → Prop
  | .nil, n => n = 0
  | .node l _ .red r, n => color l = .black ∧ color r = .black ∧ Bh l n ∧ Bh r n
  | .node l _ .black r, n => ∃ m, n = m + 1 ∧ Bh l m ∧ Bh r m

/-- Both children have the black height of the hole when the node is red, one less when
it is black: what is left of `Bh` when the root may clash with its children. -/
def BhWeak : LTree Color → ℕ → Prop
  | .node l _ .red r, n => Bh l n ∧ Bh r n
  | t, n => Bh t n

def PathOk : Spine Color → ℕ → Prop
  | [], _ => True
  | f :: c, n => Bh f.sib n ∧
    match f.dat with
    | .red => color f.sib = .black ∧ PathOk c n ∧ ∃ g c', c = g :: c' ∧ g.dat = .black
    | .black => PathOk c (n + 1)

/-- A red-black tree: balanced, with a black root. -/
def IsRb (t : LTree Color) : Prop := color t = .black ∧ ∃ n, Bh t n

theorem Bh.weak {n : ℕ} (hb : Bh t n) : BhWeak t n := by
  cases t with
  | nil => exact hb
  | node l a d r =>
    cases d with
    | red => exact ⟨hb.2.2.1,hb.2.2.2⟩
    | black => exact hb

theorem bh_plug {n : ℕ} (hb : Bh t n) (hp : PathOk c n)
    (hr : color t = .red → ∀ f c', c = f :: c' → f.dat = .black) : ∃ m, Bh (plug c t) m := by
  induction c generalizing t n with
  | nil => exact ⟨n,hb⟩
  | cons f c ih =>
    obtain ⟨hsib,hp⟩ := hp
    cases hf : f.dat with
    | red =>
      have ht : color t = .black := by
        by_contra ht
        have := hr (by cases hc : color t <;> simp_all) f c rfl
        simp_all
      rw [hf] at hp
      obtain ⟨hsc,hp,g,c',rfl,hg⟩ := hp
      refine ih (t := f.fill t) (n := n) ?_ hp ?_
      · cases f <;> cases hf <;> exact ⟨by assumption,by assumption,by assumption,by assumption⟩
      · rintro - g' c'' he
        cases he
        exact hg
    | black =>
      rw [hf] at hp
      refine ih (t := f.fill t) (n := n + 1) ?_ hp ?_
      · cases f with
        | inL a d r => cases hf; exact ⟨n,rfl,hb,hsib⟩
        | inR l a d => cases hf; exact ⟨n,rfl,hsib,hb⟩
      · intro hc
        cases f <;> cases hf <;> simp at hc

theorem bh_unplug {m : ℕ} (hb : Bh (plug c t) m) (hr : color (plug c t) = .black) :
    ∃ n, Bh t n ∧ PathOk c n ∧ (color t = .red → ∃ f c', c = f :: c' ∧ f.dat = .black) := by
  induction c generalizing t with
  | nil => exact ⟨m,hb,trivial,fun ht => by simp_all⟩
  | cons f c ih =>
    obtain ⟨n,hf,hp,hred⟩ := ih hb hr
    cases f with
    | inL a d r =>
      cases d with
      | red => exact ⟨n,hf.2.2.1,⟨hf.2.2.2,hf.2.1,hp,hred rfl⟩,fun ht => by simp_all [Bh]⟩
      | black =>
        obtain ⟨k,rfl,hl,hr⟩ := hf
        exact ⟨k,hl,⟨hr,hp⟩,fun _ => ⟨_,_,rfl,rfl⟩⟩
    | inR l a d =>
      cases d with
      | red => exact ⟨n,hf.2.2.2,⟨hf.2.2.1,hf.1,hp,hred rfl⟩,fun ht => by simp_all [Bh]⟩
      | black =>
        obtain ⟨k,rfl,hl,hr⟩ := hf
        exact ⟨k,hr,⟨hl,hp⟩,fun _ => ⟨_,_,rfl,rfl⟩⟩

theorem PathOk.red_head {f : Frame Color} {n : ℕ} (hp : PathOk (f :: c) n) (hf : f.dat = .red) :
    ∃ g c', c = g :: c' ∧ g.dat = .black := by
  have := hp.2
  rw [hf] at this
  exact this.2.2

theorem PathOk.root_black {n : ℕ} (hp : PathOk c n) (hc : c ≠ []) (t : LTree Color) : color (plug c t) = .black := by
  induction c generalizing t n with
  | nil => exact absurd rfl hc
  | cons f c ih =>
    by_cases hc' : c = []
    · subst hc'
      have h2 := hp.2
      cases hf : f.dat with
      | red => rw [hf] at h2; simp at h2
      | black => cases f <;> exact hf
    · have h2 := hp.2
      cases hf : f.dat with
      | red => rw [hf] at h2; exact ih h2.2.1 hc' _
      | black => rw [hf] at h2; exact ih h2 hc' _

theorem Zip.col_focus (hz : Zip h root c t) : col h t.ptr = color t := by
  cases t with
  | nil => rfl
  | node l a d r =>
    have ha : a ≠ 0 := hz.ne_zero (Zip.focus_mem (by simp))
    simp [col, ha, hz.sub.2.2.1]

end Catlib.RedBlack

/-! # Insertion keeps a red-black tree

The loop of `rb_ins_at` carries one red node that may sit below a red parent. Each turn
either moves the clash two levels up or ends it by rotations.
-/
namespace Catlib.RedBlack
open Linked

variable {κ : Type} {h h₀ : RbHeap κ} {root : Addr} {c : Spine Color} {t : LTree Color} {xs : List Addr}

/-- The state of the insertion loop: a red node `s.2` whose children are black and whose
surroundings are balanced. -/
def InsInv (h₀ : RbHeap κ) (root : Addr) (xs : List Addr) (n : ℕ) (s : RbHeap κ × Addr) : Prop :=
  ∃ c l r k, Zip s.1 root c (.node l s.2 .red r) ∧ Bh (.node l s.2 .red r) k ∧ PathOk c k ∧
    (plug c (.node l s.2 .red r)).addrs = xs ∧ Keeps h₀ s.1 (root :: xs) ∧ c.length = n

/-- The loop leaves a balanced tree, except that the root may be red. -/
def InsDone (h₀ : RbHeap κ) (root : Addr) (xs : List Addr) (h : RbHeap κ) : Prop :=
  ∃ T k, Zip h root [] T ∧ Bh T k ∧ T.addrs = xs ∧ Keeps h₀ h (root :: xs)

theorem ins_rotate_right {y q g : Addr} {l r s u : LTree Color} {k : ℕ}
    (hz : Zip h root c (.node (.node (.node l y .red r) q .red s) g .black u))
    (hb : Bh (.node l y .red r) k) (hsc : color s = .black) (hs : Bh s k) (huc : color u = .black)
    (hu : Bh u k) (hp : PathOk c (k + 1))
    (hxs : (plug c (.node (.node (.node l y .red r) q .red s) g .black u)).addrs = xs)
    (hk : Keeps h₀ h (root :: xs)) :
    ∃ h', rbRright (setDat (setDat h q .black) g .red) g = some h' ∧
      InsInv h₀ root xs (c.length + 1) (h',y) := by
  obtain ⟨z1,hx1,hk1⟩ := Zip.overwrite .black (zip_inL.mpr hz) hxs hk
  obtain ⟨z2,hx2,hk2⟩ := Zip.overwrite .red (zip_inL.mp z1) hx1 hk1
  obtain ⟨h',hr,z3,hk3⟩ := z2.rotR
  rw [hx2] at hk3
  refine ⟨h',hr,.inL q .black (.node s g .red u) :: c,l,r,k,zip_inL.mpr z3,hb,
    ⟨⟨hsc,huc,hs,hu⟩,hp⟩,?_,hk2.trans hk3,rfl⟩
  rw [← hx2]
  simp [addrs_plug]

theorem ins_rotate_left {y q g : Addr} {l r s u : LTree Color} {k : ℕ}
    (hz : Zip h root c (.node u g .black (.node s q .red (.node l y .red r))))
    (hb : Bh (.node l y .red r) k) (hsc : color s = .black) (hs : Bh s k) (huc : color u = .black)
    (hu : Bh u k) (hp : PathOk c (k + 1))
    (hxs : (plug c (.node u g .black (.node s q .red (.node l y .red r)))).addrs = xs)
    (hk : Keeps h₀ h (root :: xs)) :
    ∃ h', rbRleft (setDat (setDat h q .black) g .red) g = some h' ∧
      InsInv h₀ root xs (c.length + 1) (h',y) := by
  obtain ⟨z1,hx1,hk1⟩ := Zip.overwrite .black (zip_inR.mpr hz) hxs hk
  obtain ⟨z2,hx2,hk2⟩ := Zip.overwrite .red (zip_inR.mp z1) hx1 hk1
  obtain ⟨h',hr,z3,hk3⟩ := z2.rotL
  rw [hx2] at hk3
  refine ⟨h',hr,.inR (.node u g .red s) q .black :: c,l,r,k,zip_inR.mpr z3,hb,
    ⟨⟨huc,hsc,hu,hs⟩,hp⟩,?_,hk2.trans hk3,rfl⟩
  rw [← hx2]
  simp [addrs_plug]

theorem insBody_left {x p g : Addr} {l r s u : LTree Color} {k : ℕ} {f : Frame Color}
    (hf : f = .inL p .red s ∨ f = .inR s p .red)
    (hz : Zip h root (f :: .inL g .black u :: c) (.node l x .red r))
    (hb : Bh (.node l x .red r) k) (hp : PathOk (f :: .inL g .black u :: c) k)
    (hxs : (plug (f :: .inL g .black u :: c) (.node l x .red r)).addrs = xs)
    (hk : Keeps h₀ h (root :: xs)) :
    ∃ s m, insBody root (h,x) = some (.again s) ∧ m < c.length + 2 ∧ InsInv h₀ root xs m s := by
  have hroot : x ≠ (h root).pP := by
    intro he
    have := (hz.root_link_eq_iff (by simp)).mp he.symm
    simp at this
  rcases hf with rfl | rfl
  · have z := zip_inL.mp (zip_inL.mp hz)
    obtain ⟨-,-,hgd,-,hgR,⟨hpP,hpd,hpc,-,-,⟨hxP,hxd,-⟩,-⟩,-⟩ := z.sub
    obtain ⟨hs,hsc,⟨hu,hpc'⟩,-⟩ := hp
    have hp0 : p ≠ 0 := z.ne_zero (Zip.focus_mem (by simp))
    have hg0 : g ≠ 0 := z.ne_zero (Zip.focus_mem (by simp))
    have hcol := Zip.col_focus (zip_inR.mpr z)
    cases huc : color u with
    | red =>
      cases u with
      | nil => simp at huc
      | node ul v d ur =>
        cases huc
        have hcol : col h v = .red := hcol
        obtain ⟨z1,hx1,hk1⟩ := Zip.overwrite .black (zip_inL.mpr z) hxs hk
        obtain ⟨z2,hx2,hk2⟩ := Zip.overwrite .black (zip_inR.mpr (zip_inL.mp z1)) hx1 hk1
        obtain ⟨z3,hx3,hk3⟩ := Zip.overwrite .red (zip_inR.mp z2) hx2 hk2
        refine ⟨(insRecolor h p v g,g),c.length,?_,by omega,c,_,_,k + 1,z3,
          ⟨rfl,rfl,⟨k,rfl,hb,hs⟩,k,rfl,hu.2.2.1,hu.2.2.2⟩,hpc',hx3,hk3,rfl⟩
        simp [insBody, nonnull_of_ne hp0, nonnull_of_ne hg0, hroot, hxP, hxd, hpc, hpP, hpd, hgR, hcol]
    | black =>
      obtain ⟨h',hr,hi⟩ := ins_rotate_right z hb hsc hs huc hu hpc' hxs hk
      refine ⟨(h',x),_,?_,Nat.lt_succ_self _,hi⟩
      simp [insBody, nonnull_of_ne hp0, nonnull_of_ne hg0, hroot, hxP, hxd, hpc, hpP, hpd, hgR, hcol, huc, hr]
  · have z := zip_inL.mp (zip_inR.mp hz)
    obtain ⟨-,-,hgd,-,hgR,⟨hpP,hpd,hpc,-,-,-,⟨hxP,hxd,-⟩⟩,-⟩ := z.sub
    obtain ⟨hs,hsc,⟨hu,hpc'⟩,-⟩ := hp
    have hp0 : p ≠ 0 := z.ne_zero (Zip.focus_mem (by simp))
    have hg0 : g ≠ 0 := z.ne_zero (Zip.focus_mem (by simp))
    have hcol := Zip.col_focus (zip_inR.mpr z)
    cases huc : color u with
    | red =>
      cases u with
      | nil => simp at huc
      | node ul v d ur =>
        cases huc
        have hcol : col h v = .red := hcol
        obtain ⟨z1,hx1,hk1⟩ := Zip.overwrite .black (zip_inL.mpr z) hxs hk
        obtain ⟨z2,hx2,hk2⟩ := Zip.overwrite .black (zip_inR.mpr (zip_inL.mp z1)) hx1 hk1
        obtain ⟨z3,hx3,hk3⟩ := Zip.overwrite .red (zip_inR.mp z2) hx2 hk2
        refine ⟨(insRecolor h p v g,g),c.length,?_,by omega,c,_,_,k + 1,z3,
          ⟨rfl,rfl,⟨k,rfl,hs,hb⟩,k,rfl,hu.2.2.1,hu.2.2.2⟩,hpc',hx3,hk3,rfl⟩
        simp [insBody, nonnull_of_ne hp0, nonnull_of_ne hg0, hroot, hxP, hxd, hpc, hpP, hpd, hgR, hcol]
    | black =>
      -- the inner grandchild `x` becomes the parent of `p`
      obtain ⟨h1,hr1,z1,hk1⟩ := (zip_inL.mpr z).rotL
      have hx1 : (plug c (.node (.node (.node s p .red l) x .red r) g .black u)).addrs = xs := by
        rw [← hxs]
        simp [addrs_plug]
      rw [show (plug _ (LTree.node s p .red (.node l x .red r))).addrs = xs from hxs] at hk1
      obtain ⟨hlc,hrc,hl,hr⟩ := hb
      obtain ⟨h',hr',hi⟩ := ins_rotate_right (zip_inL.mp z1) ⟨hsc,hlc,hs,hl⟩ hrc hr huc hu hpc' hx1
        (hk.trans hk1)
      refine ⟨(h',p),_,?_,Nat.lt_succ_self _,hi⟩
      have hr1' : rbRleft h p = some h1 := hr1
      simp [insBody, nonnull_of_ne hp0, nonnull_of_ne hg0, hroot, hxP, hxd, hpc, hpP, hpd, hgR, hcol, huc, hr1', hr']

theorem insBody_right {x p g : Addr} {l r s u : LTree Color} {k : ℕ} {f : Frame Color}
    (hf : f = .inR s p .red ∨ f = .inL p .red s)
    (hz : Zip h root (f :: .inR u g .black :: c) (.node l x .red r))
    (hb : Bh (.node l x .red r) k) (hp : PathOk (f :: .inR u g .black :: c) k)
    (hxs : (plug (f :: .inR u g .black :: c) (.node l x .red r)).addrs = xs)
    (hk : Keeps h₀ h (root :: xs)) :
    ∃ s m, insBody root (h,x) = some (.again s) ∧ m < c.length + 2 ∧ InsInv h₀ root xs m s := by
  have hroot : x ≠ (h root).pP := by
    intro he
    have := (hz.root_link_eq_iff (by simp)).mp he.symm
    simp at this
  rcases hf with rfl | rfl
  · have z := zip_inR.mp (zip_inR.mp hz)
    obtain ⟨-,-,hgd,hgL,-,-,⟨hpP,hpd,hpc,-,-,-,⟨hxP,hxd,-⟩⟩⟩ := z.sub
    obtain ⟨hs,hsc,⟨hu,hpc'⟩,-⟩ := hp
    have hp0 : p ≠ 0 := z.ne_zero (Zip.focus_mem (by simp))
    have hg0 : g ≠ 0 := z.ne_zero (Zip.focus_mem (by simp))
    have hcol := Zip.col_focus (zip_inL.mpr z)
    cases huc : color u with
    | red =>
      cases u with
      | nil => simp at huc
      | node ul v d ur =>
        cases huc
        have hcol : col h v = .red := hcol
        obtain ⟨z1,hx1,hk1⟩ := Zip.overwrite .black (zip_inR.mpr z) hxs hk
        obtain ⟨z2,hx2,hk2⟩ := Zip.overwrite .black (zip_inL.mpr (zip_inR.mp z1)) hx1 hk1
        obtain ⟨z3,hx3,hk3⟩ := Zip.overwrite .red (zip_inL.mp z2) hx2 hk2
        refine ⟨(insRecolor h p v g,g),c.length,?_,by omega,c,_,_,k + 1,z3,
          ⟨rfl,rfl,⟨k,rfl,hu.2.2.1,hu.2.2.2⟩,k,rfl,hs,hb⟩,hpc',hx3,hk3,rfl⟩
        simp [insBody, nonnull_of_ne hp0, nonnull_of_ne hg0, hroot, hxP, hxd, hpc, hpP, hpd, hgL, hcol]
    | black =>
      obtain ⟨h',hr,hi⟩ := ins_rotate_left z hb hsc hs huc hu hpc' hxs hk
      refine ⟨(h',x),_,?_,Nat.lt_succ_self _,hi⟩
      simp [insBody, nonnull_of_ne hp0, nonnull_of_ne hg0, hroot, hxP, hxd, hpc, hpP, hpd, hgL, hcol, huc, hr]
  · have z := zip_inR.mp (zip_inL.mp hz)
    obtain ⟨-,-,hgd,hgL,-,-,⟨hpP,hpd,hpc,-,-,⟨hxP,hxd,-⟩,-⟩⟩ := z.sub
    obtain ⟨hs,hsc,⟨hu,hpc'⟩,-⟩ := hp
    have hp0 : p ≠ 0 := z.ne_zero (Zip.focus_mem (by simp))
    have hg0 : g ≠ 0 := z.ne_zero (Zip.focus_mem (by simp))
    have hcol := Zip.col_focus (zip_inL.mpr z)
    cases huc : color u with
    | red =>
      cases u with
      | nil => simp at huc
      | node ul v d ur =>
        cases huc
        have hcol : col h v = .red := hcol
        obtain ⟨z1,hx1,hk1⟩ := Zip.overwrite .black (zip_inR.mpr z) hxs hk
        obtain ⟨z2,hx2,hk2⟩ := Zip.overwrite .black (zip_inL.mpr (zip_inR.mp z1)) hx1 hk1
        obtain ⟨z3,hx3,hk3⟩ := Zip.overwrite .red (zip_inL.mp z2) hx2 hk2
        refine ⟨(insRecolor h p v g,g),c.length,?_,by omega,c,_,_,k + 1,z3,
          ⟨rfl,rfl,⟨k,rfl,hu.2.2.1,hu.2.2.2⟩,k,rfl,hb,hs⟩,hpc',hx3,hk3,rfl⟩
        simp [insBody, nonnull_of_ne hp0, nonnull_of_ne hg0, hroot, hxP, hxd, hpc, hpP, hpd, hgL, hcol]
    | black =>
      obtain ⟨h1,hr1,z1,hk1⟩ := (zip_inR.mpr z).rotR
      have hx1 : (plug c (.node u g .black (.node l x .red (.node r p .red s)))).addrs = xs := by
        rw [← hxs]
        simp [addrs_plug]
      rw [show (plug _ (LTree.node (.node l x .red r) p .red s)).addrs = xs from hxs] at hk1
      obtain ⟨hlc,hrc,hl,hr⟩ := hb
      obtain ⟨h',hr',hi⟩ := ins_rotate_left (zip_inR.mp z1) ⟨hrc,hsc,hr,hs⟩ hlc hl huc hu hpc' hx1
        (hk.trans hk1)
      refine ⟨(h',p),_,?_,Nat.lt_succ_self _,hi⟩
      have hr1' : rbRright h p = some h1 := hr1
      simp [insBody, nonnull_of_ne hp0, nonnull_of_ne hg0, hroot, hxP, hxd, hpc, hpP, hpd, hgL, hcol, huc, hr1', hr']

theorem insBody_spec {n : ℕ} {s : RbHeap κ × Addr} (hi : InsInv h₀ root xs n s) :
    (∃ s' m, insBody root s = some (.again s') ∧ m < n ∧ InsInv h₀ root xs m s') ∨
      ∃ h', insBody root s = some (.leave h') ∧ InsDone h₀ root xs h' := by
  obtain ⟨h,x⟩ := s
  obtain ⟨c,l,r,k,hz,hb,hp,hxs,hk,rfl⟩ := hi
  cases c with
  | nil =>
    have hl : (h root).pP = x := hz.root_slot
    exact Or.inr ⟨h,by simp [insBody, hl],_,k,hz,hb,hxs,hk⟩
  | cons f c =>
    have hroot : x ≠ (h root).pP := by
      intro he
      have := (hz.root_link_eq_iff (by simp)).mp he.symm
      simp at this
    cases hf : f.dat with
    | black =>
      right
      obtain ⟨m,hm⟩ := bh_plug hb hp (by rintro - f' c' he; cases he; exact hf)
      refine ⟨h,?_,_,m,zip_top.mp hz,hm,hxs,hk⟩
      have z := zip_cons.mp hz
      cases f with
      | inL p d s =>
        cases hf
        obtain ⟨-,-,hpc,-,-,⟨hxP,-⟩,-⟩ := z.sub
        have hp0 : p ≠ 0 := z.ne_zero (Zip.focus_mem (by simp))
        have hpc : (h p).dat = .black := hpc
        have hxP : (h x).pP = p := hxP
        simp [insBody, nonnull_of_ne hp0, hroot, hxP, hpc]
      | inR s p d =>
        cases hf
        obtain ⟨-,-,hpc,-,-,-,⟨hxP,-⟩⟩ := z.sub
        have hp0 : p ≠ 0 := z.ne_zero (Zip.focus_mem (by simp))
        have hpc : (h p).dat = .black := hpc
        have hxP : (h x).pP = p := hxP
        simp [insBody, nonnull_of_ne hp0, hroot, hxP, hpc]
    | red =>
      left
      obtain ⟨g,c',rfl,hg⟩ := hp.red_head hf
      cases g with
      | inL g d u =>
        cases hg
        cases f with
        | inL p d s => cases hf; exact insBody_left (Or.inl rfl) hz hb hp hxs hk
        | inR s p d => cases hf; exact insBody_left (Or.inr rfl) hz hb hp hxs hk
      | inR u g d =>
        cases hg
        cases f with
        | inL p d s => cases hf; exact insBody_right (Or.inr rfl) hz hb hp hxs hk
        | inR s p d => cases hf; exact insBody_right (Or.inl rfl) hz hb hp hxs hk

theorem isRb_blacken {T : LTree Color} {k : ℕ} (hz : Zip h root [] T) (hb : Bh T k) (hT : T ≠ .nil) :
    ∃ T', Zip (setDat h T.ptr .black) root [] T' ∧ IsRb T' ∧ T'.addrs = T.addrs := by
  cases T with
  | nil => exact absurd rfl hT
  | node l a d r =>
    refine ⟨.node l a .black r,by simpa using hz.setDat .black,⟨rfl,?_⟩,by simp⟩
    cases d with
    | red => exact ⟨k + 1,k,rfl,hb.2.2⟩
    | black => exact ⟨k,hb⟩

theorem rbInsAt_spec {n fuel : ℕ} (hz : Zip h root c .nil) (hT : IsRb (plug c .nil))
    (hn : n ∉ 0 :: root :: (plug c (.nil : LTree Color)).addrs) (hl : (h n).pL = 0) (hr : (h n).pR = 0)
    (hf : (plug c (.nil : LTree Color)).addrs.length < fuel) :
    ∃ h' T', rbInsAt h root n (slot root c).1 (slot root c).2 fuel = some h' ∧ Zip h' root [] T' ∧
      IsRb T' ∧ T'.addrs = lefts c ++ n :: rights c ∧
      Keeps h h' (root :: n :: (plug c (.nil : LTree Color)).addrs) := by
  have hn0 : n ≠ 0 := by rintro rfl; simp at hn
  have hne : ∀ x ∈ root :: (plug c (.nil : LTree Color)).addrs, x ≠ n := by
    rintro x hx rfl
    exact hn (List.mem_cons_of_mem _ hx)
  have hz1 : Zip (setDat h n .red) root c .nil := hz.congr (fun x hx => Heap.put_of_ne (hne x hx))
  obtain ⟨h2,hf2,hz2,hk2⟩ := hz1.attach hn (by simp [setDat, hl]) (by simp [setDat, hr])
  rw [show (setDat h n Color.red n).dat = .red by simp [setDat]] at hz2
  obtain ⟨k,hb,hp,-⟩ := bh_unplug hT.2.choose_spec hT.1
  cases hb
  have hi : InsInv h2 root (plug c (.node .nil n .red .nil)).addrs c.length (h2,n) :=
    ⟨c,.nil,.nil,0,hz2,⟨rfl,rfl,rfl,rfl⟩,hp,rfl,Keeps.refl _ _,rfl⟩
  have hlen := length_le_addrs c (.nil : LTree Color)
  obtain ⟨h3,hf3,T3,k3,hz3,hb3,hx3,hk3⟩ := loop_total (fun _ _ => insBody_spec) hi
    (show c.length < fuel by omega)
  have hx3' : T3.addrs = lefts c ++ n :: rights c := by rw [hx3]; simp [addrs_plug]
  have hT3 : T3 ≠ .nil := by rintro rfl; simp at hx3'
  have hp0 : T3.ptr ≠ 0 := by
    cases T3 with
    | nil => exact absurd rfl hT3
    | node l a d r => exact hz3.ne_zero (by simp)
  obtain ⟨T',hz',hrb,hx'⟩ := isRb_blacken hz3 hb3 hT3
  have hroot := hz3.root_slot
  refine ⟨_,T',?_,hz',hrb,hx'.trans hx3',?_⟩
  · simp only [rbInsAt, nonnull_of_ne hn0, rbFix, hf2, hf3, hroot, nonnull_of_ne hp0, Option.bind_eq_bind,
      Option.bind_some, Option.pure_def]
  · have hsub : ∀ x ∈ root :: (plug c (.node .nil n .red .nil)).addrs,
        x ∈ root :: n :: (plug c (.nil : LTree Color)).addrs := by
      intro x hx
      simp only [addrs_plug, LTree.addrs_node, LTree.addrs_nil, List.mem_cons, List.mem_append] at hx ⊢
      tauto
    refine (((setDat_keeps (by simp)).trans hk2).trans (hk3.mono hsub)).trans (setDat_keeps (hsub _ ?_))
    rw [← hx3]
    exact List.mem_cons_of_mem _ (LTree.ptr_mem hp0)

theorem rbIns_absent {cmp : κ → κ → ℤ} {n loc fuel : ℕ} {dir : Dir} (hz : Zip h root c .nil)
    (hT : IsRb (plug c .nil)) (hn : n ∉ 0 :: root :: (plug c (.nil : LTree Color)).addrs)
    (hl : (h n).pL = 0) (hr : (h n).pR = 0) (hf : (plug c (.nil : LTree Color)).addrs.length < fuel)
    (hloc : locate cmp h root (h n).key loc dir fuel = some (slot root c)) :
    ∃ h' T', rbIns cmp h root n loc dir fuel = some (h',0) ∧ Zip h' root [] T' ∧ IsRb T' ∧
      T'.addrs = lefts c ++ n :: rights c ∧ (h' n).tree = root ∧ h'.keys = h.keys ∧
      ∀ x, x ≠ n → (h' x).tree = (h x).tree := by
  have hn0 : n ≠ 0 := by rintro rfl; simp at hn
  obtain ⟨h1,T1,hf1,hz1,hrb,hx,hk⟩ := rbInsAt_spec hz hT hn hl hr hf
  refine ⟨setTree h1 n root,T1,?_,hz1.setTree n root,hrb,hx,by simp [setTree],?_,?_⟩
  · simp [rbIns, hn0, hloc, slot_dir_ne root c, hf1]
  · rw [setTree_keys,hk.keys]
  · intro x hxn
    rw [setTree,Heap.put_of_ne hxn,hk.tree]

theorem IsRb.readdress {l r : LTree Color} {a n : Addr} {d : Color} (hT : IsRb (plug c (.node l a d r))) :
    IsRb (plug c (.node l n d r)) := by
  obtain ⟨k,hb,hp,hcl⟩ := bh_unplug hT.2.choose_spec hT.1
  have hb' : Bh (.node l n d r) k := by cases d <;> exact hb
  refine ⟨?_,bh_plug hb' hp ?_⟩
  · by_cases hc : c = []
    · subst hc
      exact hT.1
    · exact hp.root_black hc _
  · rintro hd f c' rfl
    obtain ⟨g,c'',he,hg⟩ := hcl hd
    cases he
    exact hg

theorem rbIns_present {cmp : κ → κ → ℤ} {n a loc fuel : ℕ} {dir : Dir} {l r : LTree Color} {d : Color}
    (hz : Zip h root c (.node l a d r)) (hT : IsRb (plug c (.node l a d r)))
    (hn : n ∉ 0 :: root :: (plug c (.node l a d r)).addrs)
    (hloc : locate cmp h root (h n).key loc dir fuel = some (a,.N)) :
    ∃ h', rbIns cmp h root n loc dir fuel = some (h',a) ∧ Zip h' root [] (plug c (.node l n d r)) ∧
      IsRb (plug c (.node l n d r)) ∧ (h' n).tree = root ∧ h'.keys = h.keys ∧
      ∀ x, x ≠ n → x ≠ a → (h' x).tree = (h x).tree := by
  have hn0 : n ≠ 0 := by rintro rfl; simp at hn
  obtain ⟨s1,s2,s3,s4,s5,-,-⟩ := hz.sub
  have hna : n ≠ a := by rintro rfl; simp [addrs_plug] at hn
  obtain ⟨h1,h2,h3,hf1,hf2,hf3,z3,e1,e2,e3,hk⟩ := hz.transplant hn
  have hd3 : (h3 a).dat = d := by rw [e3,s3]
  have z4 := (z3.setDat d).setTree n root
  have hda : a ∉ root :: (plug c (.node l n d r)).addrs := by
    have := hz.distinct
    simp only [addrs_plug, LTree.addrs_node, List.nodup_cons, List.mem_cons, List.mem_append,
      List.nodup_append, not_or] at this ⊢
    grind
  rw [← s4] at hf1
  rw [← s5,← e1] at hf2
  rw [← s1,← s2,← e2] at hf3
  refine ⟨rbNinit (setDat (setTree (setTree (setDat h3 n d) n root) a 0) a .red) a
    (setDat (setTree (setTree (setDat h3 n d) n root) a 0) a .red a).key,?_,zip_top.mp (z4.congr ?_),hT.readdress,
    ?_,?_,?_⟩
  · simp only [rbIns, hn0, if_false, hloc, Option.bind_eq_bind, Option.bind_some, if_true, rbFix, hf1, hf2, hf3,
      hd3, Option.pure_def]
  · intro x hx
    have hxa : x ≠ a := by rintro rfl; exact hda hx
    rw [rbNinit,Heap.put_of_ne hxa,setDat,Heap.put_of_ne hxa,setTree,Heap.put_of_ne hxa]
  · rw [rbNinit,Heap.put_of_ne hna,setDat,Heap.put_of_ne hna,setTree,Heap.put_of_ne hna]
    simp [setTree]
  · rw [← hk.keys]
    funext x
    by_cases hx : x = a
    · subst hx
      simp [Heap.keys, rbNinit, setDat, setTree, Heap.put_of_ne (Ne.symm hna)]
    · by_cases hx' : x = n
      · subst hx'
        simp [Heap.keys, rbNinit, setDat, setTree, Heap.put_of_ne hx]
      · simp [Heap.keys, rbNinit, setDat, setTree, Heap.put_of_ne hx, Heap.put_of_ne hx']
  · intro x hx hx'
    rw [← hk.tree]
    simp [rbNinit, setDat, setTree, Heap.put_of_ne hx, Heap.put_of_ne hx']

end Catlib.RedBlack
