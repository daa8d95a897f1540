import Catlib.Tree.RedBlackInsert

/-! # Removal keeps a red-black tree

After the relinking one link may be one black node short. The loop of `rb_rem` moves
the shortage up until a red node can absorb it or rotations make it up.
-/
namespace Catlib.RedBlack
open Linked

variable {κ : Type} {h h₀ : RbHeap κ} {root : Addr} {c : Spine Color} {t : LTree Color} {xs : List Addr}

/-- The removal loop stands at a link whose subtree `f` is one black node short. -/
def RemAt (h₀ : RbHeap κ) (root : Addr) (xs : List Addr) (c : Spine Color) (f : LTree Color)
    (s : RbHeap κ × Addr × Dir) : Prop :=
  ∃ k, Zip s.1 root c f ∧ BhWeak f k ∧ PathOk c (k + 1) ∧ s.2 = slot root c ∧
    (plug c f).addrs = xs ∧ Keeps h₀ s.1 (root :: xs)

/-- The measure of the loop: a red subtree ends it, otherwise the path gets shorter. -/
def RemInv (h₀ : RbHeap κ) (root : Addr) (xs : List Addr) (n : ℕ) (s : RbHeap κ × Addr × Dir) : Prop :=
  ∃ c f, RemAt h₀ root xs c f s ∧ n = if color f = .red then 0 else c.length + 1

def RemDone (h₀ : RbHeap κ) (root : Addr) (xs : List Addr) (s : RbHeap κ × Addr × Dir) : Prop :=
  ∃ c f, RemAt h₀ root xs c f s ∧ (c = [] ∨ color f = .red)

/-- The loop has a short left link of `p`, with a black sibling `b`. -/
structure ShortL (h₀ h : RbHeap κ) (root : Addr) (xs : List Addr) (c : Spine Color) (f : LTree Color)
    (p b : Addr) (d : Color) (A B : LTree Color) (k : ℕ) : Prop where
  zip : Zip h root c (.node f p d (.node A b .black B))
  focus : Bh f k
  near : Bh A k
  far : Bh B k
  path : PathOk (.inL p d (.node A b .black B) :: c) (k + 1)
  addrs : (plug c (.node f p d (.node A b .black B))).addrs = xs
  keeps : Keeps h₀ h (root :: xs)

structure ShortR (h₀ h : RbHeap κ) (root : Addr) (xs : List Addr) (c : Spine Color) (f : LTree Color)
    (p b : Addr) (d : Color) (A B : LTree Color) (k : ℕ) : Prop where
  zip : Zip h root c (.node (.node B b .black A) p d f)
  focus : Bh f k
  near : Bh A k
  far : Bh B k
  path : PathOk (.inR (.node B b .black A) p d :: c) (k + 1)
  addrs : (plug c (.node (.node B b .black A) p d f)).addrs = xs
  keeps : Keeps h₀ h (root :: xs)

theorem remRedL_spec {p : Addr} {d : Color} {f s : LTree Color} {k : ℕ}
    (hz : Zip h root c (.node f p d s)) (hb : Bh f k) (hp : PathOk (.inL p d s :: c) (k + 1))
    (hxs : (plug c (.node f p d s)).addrs = xs) (hk : Keeps h₀ h (root :: xs)) :
    ∃ h' b c' d' A B, remRedL h p = some (h',b) ∧ ShortL h₀ h' root xs c' f p b d' A B k ∧
      (d' = .red ∨ c'.length = c.length) := by
  obtain ⟨-,-,hpd,-,hpR,-,hs⟩ := hz.sub
  cases s with
  | nil => exact absurd hp.1 (by simp [Bh, Frame.sib])
  | node A b e B =>
    have hb0 : b ≠ 0 := hz.ne_zero (Zip.focus_mem (by simp))
    have hbd : (h b).dat = e := hs.2.2.1
    simp only [LTree.ptr_node] at hpR
    cases e with
    | black =>
      obtain ⟨m,hm,hA,hB⟩ := hp.1
      obtain rfl : m = k := by omega
      exact ⟨h,b,c,d,A,B,by simp [remRedL, hpR, nonnull_of_ne hb0, hbd],
        ⟨hz,hb,hA,hB,hp,hxs,hk⟩,Or.inr rfl⟩
    | red =>
      have hd : d = .black := by
        cases d with
        | red => simp [PathOk, Frame.dat, Frame.sib] at hp
        | black => rfl
      subst hd
      obtain ⟨⟨hAc,hBc,hA,hB⟩,hpc⟩ := hp
      obtain ⟨z1,hx1,hk1⟩ := Zip.overwrite .black (zip_inR.mpr hz) hxs hk
      obtain ⟨z2,hx2,hk2⟩ := Zip.overwrite .red (zip_inR.mp z1) hx1 hk1
      obtain ⟨h',hr,z3,hk3⟩ := z2.rotL
      rw [hx2] at hk3
      have hr' : rbRleft (setDat (setDat h b .black) p .red) p = some h' := hr
      cases A with
      | nil => exact absurd hA (by simp [Bh])
      | node A1 a e A2 =>
        cases hAc
        obtain ⟨m,hm,hA1,hA2⟩ := hA
        obtain rfl : m = k := by omega
        have ha0 : a ≠ 0 := hz.ne_zero (Zip.focus_mem (by simp))
        have haR : (h' p).pR = a := z3.sub.2.2.2.2.2.1.2.2.2.2.1
        refine ⟨h',a,.inL b .black B :: c,.red,A1,A2,?_,⟨zip_inL.mpr z3,hb,hA1,hA2,?_,?_,hk2.trans hk3⟩,
          Or.inl rfl⟩
        · simp [remRedL, hpR, nonnull_of_ne hb0, hbd, hr', haR, nonnull_of_ne ha0]
        · exact ⟨⟨m,rfl,hA1,hA2⟩,rfl,⟨hB,hpc⟩,_,_,rfl,rfl⟩
        · rw [← hxs]
          simp [addrs_plug]

theorem rem_rotate_left {f A B C : LTree Color} {p b y : Addr} {d e g : Color}
    (hz : Zip h root c (.node f p d (.node A b e (.node B y g C))))
    (hxs : (plug c (.node f p d (.node A b e (.node B y g C)))).addrs = xs) (hk : Keeps h₀ h (root :: xs)) :
    ∃ h', rbRleft (setDat (setDat (setDat h b d) p .black) y .black) p = some h' ∧
      Zip h' root c (.node (.node f p .black A) b d (.node B y .black C)) ∧
      (plug c (.node (.node f p .black A) b d (.node B y .black C))).addrs = xs ∧
      Keeps h₀ h' (root :: xs) := by
  obtain ⟨z1,hx1,hk1⟩ := Zip.overwrite d (zip_inR.mpr hz) hxs hk
  obtain ⟨z2,hx2,hk2⟩ := Zip.overwrite .black (zip_inR.mp z1) hx1 hk1
  obtain ⟨z3,hx3,hk3⟩ := Zip.overwrite .black (zip_inR.mpr (zip_inR.mpr z2)) hx2 hk2
  obtain ⟨h',hr,z4,hk4⟩ := (zip_inR.mp (zip_inR.mp z3)).rotL
  simp only [plug_cons, fill_inR] at hx3
  rw [hx3] at hk4
  refine ⟨h',hr,z4,?_,hk3.trans hk4⟩
  rw [← hxs]
  simp [addrs_plug]

theorem bh_rotated {l r : LTree Color} {a : Addr} {f : Frame Color} {k : ℕ} (hlc : color l = .black)
    (hrc : color r = .black) (hl : Bh l (k + 1)) (hr : Bh r (k + 1)) (hp : PathOk (f :: c) (k + 1)) :
    ∃ m, Bh (plug c (.node l a f.dat r)) m := by
  cases hd : f.dat with
  | red =>
    have h2 := hp.2
    rw [hd] at h2
    refine bh_plug (n := k + 1) ⟨hlc,hrc,hl,hr⟩ h2.2.1 ?_
    obtain ⟨g,c',rfl,hg⟩ := h2.2.2
    rintro - g' c'' he
    cases he
    exact hg
  | black =>
    have h2 := hp.2
    rw [hd] at h2
    exact bh_plug (n := k + 2) ⟨k + 1,rfl,hl,hr⟩ h2 (by simp)

theorem remEndL_spec {f A B : LTree Color} {p b : Addr} {d : Color} {k : ℕ}
    (hs : ShortL h₀ h root xs c f p b d A B k) (hred : ¬(color A = .black ∧ color B = .black)) :
    ∃ h' T m, remEndL h p b = some h' ∧ Zip h' root [] T ∧ Bh T m ∧ T.addrs = xs ∧
      Keeps h₀ h' (root :: xs) := by
  obtain ⟨-,-,hpd,-,-,-,-,-,-,hbL,hbR,-⟩ := hs.zip.sub
  have zB := zip_inR.mpr (zip_inR.mpr hs.zip)
  have hcol : col h (h b).pR = color B := by rw [hbR]; exact Zip.col_focus zB
  cases hB : color B with
  | red =>
    cases B with
    | nil => simp at hB
    | node B1 y e B2 =>
      cases hB
      have hy0 : y ≠ 0 := zB.ne_zero (Zip.focus_mem (by simp))
      obtain ⟨h',hr,hz',hx',hk'⟩ := rem_rotate_left hs.zip hs.addrs hs.keeps
      obtain ⟨-,-,hB1,hB2⟩ := hs.far
      obtain ⟨m,hm⟩ := bh_rotated (l := .node f p .black A) (r := .node B1 y .black B2) (a := b) rfl rfl
        ⟨k,rfl,hs.focus,hs.near⟩ ⟨k,rfl,hB1,hB2⟩ hs.path
      refine ⟨h',_,m,?_,zip_top.mp hz',hm,hx',hk'⟩
      simp only [LTree.ptr_node] at hbR
      rw [hbR] at hcol
      simp [remEndL, hcol, hbR, hpd, nonnull_of_ne hy0, hr]
  | black =>
    cases A with
    | nil => simp_all
    | node A1 x e A2 =>
      have he : e = .red := by
        cases e <;> simp_all
      subst he
      have hx0 : x ≠ 0 := hs.zip.ne_zero (Zip.focus_mem (by simp))
      have zA := zip_inL.mpr (zip_inR.mpr hs.zip)
      obtain ⟨z1,hx1,hk1⟩ := Zip.overwrite .black zA hs.addrs hs.keeps
      obtain ⟨z2,hx2,hk2⟩ := Zip.overwrite .red (zip_inL.mp z1) hx1 hk1
      obtain ⟨h3,hr3,z3,hk3⟩ := z2.rotR
      rw [hx2] at hk3
      have hr3' : rbRright (setDat (setDat h x .black) b .red) b = some h3 := hr3
      have z3' := zip_inR.mp z3
      have hpR : (h3 p).pR = x := z3'.sub.2.2.2.2.1
      have hpd3 : (h3 p).dat = d := z3'.sub.2.2.1
      have hxR : (h3 x).pR = b := z3.sub.2.2.2.2.1
      have hb0 : b ≠ 0 := hs.zip.ne_zero (Zip.focus_mem (by simp))
      have hx3 : (plug c (.node f p d (.node A1 x .black (.node A2 b .red B)))).addrs = xs := by
        rw [← hs.addrs]
        simp [addrs_plug]
      obtain ⟨h',hr,hz',hx',hk'⟩ := rem_rotate_left z3' hx3 (hk2.trans hk3)
      obtain ⟨-,-,hA1,hA2⟩ := hs.near
      obtain ⟨m,hm⟩ := bh_rotated (l := .node f p .black A1) (r := .node A2 b .black B) (a := x) rfl rfl
        ⟨k,rfl,hs.focus,hA1⟩ ⟨k,rfl,hA2,hs.far⟩ hs.path
      refine ⟨h',_,m,?_,zip_top.mp hz',hm,hx',hk'⟩
      simp only [LTree.ptr_node] at hbL
      simp [remEndL, hcol, hB, hbL, nonnull_of_ne hx0, hr3', hpR, hpd3, hxR, nonnull_of_ne hb0, hr]

/-! ## The mirror images -/

theorem remRedR_spec {p : Addr} {d : Color} {f s : LTree Color} {k : ℕ}
    (hz : Zip h root c (.node s p d f)) (hb : Bh f k) (hp : PathOk (.inR s p d :: c) (k + 1))
    (hxs : (plug c (.node s p d f)).addrs = xs) (hk : Keeps h₀ h (root :: xs)) :
    ∃ h' b c' d' A B, remRedR h p = some (h',b) ∧ ShortR h₀ h' root xs c' f p b d' A B k ∧
      (d' = .red ∨ c'.length = c.length) := by
  obtain ⟨-,-,hpd,hpL,-,hs,-⟩ := hz.sub
  cases s with
  | nil => exact absurd hp.1 (by simp [Bh, Frame.sib])
  | node B b e A =>
    have hb0 : b ≠ 0 := hz.ne_zero (Zip.focus_mem (by simp))
    have hbd : (h b).dat = e := hs.2.2.1
    simp only [LTree.ptr_node] at hpL
    cases e with
    | black =>
      obtain ⟨m,hm,hB,hA⟩ := hp.1
      obtain rfl : m = k := by omega
      exact ⟨h,b,c,d,A,B,by simp [remRedR, hpL, nonnull_of_ne hb0, hbd],
        ⟨hz,hb,hA,hB,hp,hxs,hk⟩,Or.inr rfl⟩
    | red =>
      have hd : d = .black := by
        cases d with
        | red => simp [PathOk, Frame.dat, Frame.sib] at hp
        | black => rfl
      subst hd
      obtain ⟨⟨hBc,hAc,hB,hA⟩,hpc⟩ := hp
      obtain ⟨z1,hx1,hk1⟩ := Zip.overwrite .black (zip_inL.mpr hz) hxs hk
      obtain ⟨z2,hx2,hk2⟩ := Zip.overwrite .red (zip_inL.mp z1) hx1 hk1
      obtain ⟨h',hr,z3,hk3⟩ := z2.rotR
      rw [hx2] at hk3
      have hr' : rbRright (setDat (setDat h b .black) p .red) p = some h' := hr
      cases A with
      | nil => exact absurd hA (by simp [Bh])
      | node A2 a e A1 =>
        cases hAc
        obtain ⟨m,hm,hA2,hA1⟩ := hA
        obtain rfl : m = k := by omega
        have ha0 : a ≠ 0 := hz.ne_zero (Zip.focus_mem (by simp))
        have haL : (h' p).pL = a := z3.sub.2.2.2.2.2.2.2.2.2.1
        refine ⟨h',a,.inR B b .black :: c,.red,A1,A2,?_,⟨zip_inR.mpr z3,hb,hA1,hA2,?_,?_,hk2.trans hk3⟩,
          Or.inl rfl⟩
        · simp [remRedR, hpL, nonnull_of_ne hb0, hbd, hr', haL, nonnull_of_ne ha0]
        · exact ⟨⟨m,rfl,hA2,hA1⟩,rfl,⟨hB,hpc⟩,_,_,rfl,rfl⟩
        · rw [← hxs]
          simp [addrs_plug]

theorem rem_rotate_right {f A B C : LTree Color} {p b y : Addr} {d e g : Color}
    (hz : Zip h root c (.node (.node (.node C y g B) b e A) p d f))
    (hxs : (plug c (.node (.node (.node C y g B) b e A) p d f)).addrs = xs) (hk : Keeps h₀ h (root :: xs)) :
    ∃ h', rbRright (setDat (setDat (setDat h b d) p .black) y .black) p = some h' ∧
      Zip h' root c (.node (.node C y .black B) b d (.node A p .black f)) ∧
      (plug c (.node (.node C y .black B) b d (.node A p .black f))).addrs = xs ∧
      Keeps h₀ h' (root :: xs) := by
  obtain ⟨z1,hx1,hk1⟩ := Zip.overwrite d (zip_inL.mpr hz) hxs hk
  obtain ⟨z2,hx2,hk2⟩ := Zip.overwrite .black (zip_inL.mp z1) hx1 hk1
  obtain ⟨z3,hx3,hk3⟩ := Zip.overwrite .black (zip_inL.mpr (zip_inL.mpr z2)) hx2 hk2
  obtain ⟨h',hr,z4,hk4⟩ := (zip_inL.mp (zip_inL.mp z3)).rotR
  simp only [plug_cons, fill_inL] at hx3
  rw [hx3] at hk4
  refine ⟨h',hr,z4,?_,hk3.trans hk4⟩
  rw [← hxs]
  simp [addrs_plug]

theorem remEndR_spec {f A B : LTree Color} {p b : Addr} {d : Color} {k : ℕ}
    (hs : ShortR h₀ h root xs c f p b d A B k) (hred : ¬(color B = .black ∧ color A = .black)) :
    ∃ h' T m, remEndR h p b = some h' ∧ Zip h' root [] T ∧ Bh T m ∧ T.addrs = xs ∧
      Keeps h₀ h' (root :: xs) := by
  obtain ⟨-,-,hpd,-,-,⟨-,-,-,hbL,hbR,-⟩,-⟩ := hs.zip.sub
  have zB := zip_inL.mpr (zip_inL.mpr hs.zip)
  have hcol : col h (h b).pL = color B := by rw [hbL]; exact Zip.col_focus zB
  cases hB : color B with
  | red =>
    cases B with
    | nil => simp at hB
    | node B2 y e B1 =>
      cases hB
      have hy0 : y ≠ 0 := zB.ne_zero (Zip.focus_mem (by simp))
      obtain ⟨h',hr,hz',hx',hk'⟩ := rem_rotate_right hs.zip hs.addrs hs.keeps
      obtain ⟨-,-,hB2,hB1⟩ := hs.far
      obtain ⟨m,hm⟩ := bh_rotated (l := .node B2 y .black B1) (r := .node A p .black f) (a := b) rfl rfl
        ⟨k,rfl,hB2,hB1⟩ ⟨k,rfl,hs.near,hs.focus⟩ hs.path
      refine ⟨h',_,m,?_,zip_top.mp hz',hm,hx',hk'⟩
      simp only [LTree.ptr_node] at hbL
      rw [hbL] at hcol
      simp [remEndR, hcol, hbL, hpd, nonnull_of_ne hy0, hr]
  | black =>
    cases A with
    | nil => simp_all
    | node A2 x e A1 =>
      have he : e = .red := by
        cases e <;> simp_all
      subst he
      have hx0 : x ≠ 0 := hs.zip.ne_zero (Zip.focus_mem (by simp))
      have zA := zip_inR.mpr (zip_inL.mpr hs.zip)
      obtain ⟨z1,hx1,hk1⟩ := Zip.overwrite .black zA hs.addrs hs.keeps
      obtain ⟨z2,hx2,hk2⟩ := Zip.overwrite .red (zip_inR.mp z1) hx1 hk1
      obtain ⟨h3,hr3,z3,hk3⟩ := z2.rotL
      rw [hx2] at hk3
      have hr3' : rbRleft (setDat (setDat h x .black) b .red) b = some h3 := hr3
      have z3' := zip_inL.mp z3
      have hpL : (h3 p).pL = x := z3'.sub.2.2.2.1
      have hpd3 : (h3 p).dat = d := z3'.sub.2.2.1
      have hxL : (h3 x).pL = b := z3.sub.2.2.2.1
      have hb0 : b ≠ 0 := hs.zip.ne_zero (Zip.focus_mem (by simp))
      have hx3 : (plug c (.node (.node (.node B b .red A2) x .black A1) p d f)).addrs = xs := by
        rw [← hs.addrs]
        simp [addrs_plug]
      obtain ⟨h',hr,hz',hx',hk'⟩ := rem_rotate_right z3' hx3 (hk2.trans hk3)
      obtain ⟨-,-,hA2,hA1⟩ := hs.near
      obtain ⟨m,hm⟩ := bh_rotated (l := .node B b .black A2) (r := .node A1 p .black f) (a := x) rfl rfl
        ⟨k,rfl,hs.far,hA2⟩ ⟨k,rfl,hA1,hs.focus⟩ hs.path
      refine ⟨h',_,m,?_,zip_top.mp hz',hm,hx',hk'⟩
      simp only [LTree.ptr_node] at hbR
      simp [remEndR, hcol, hB, hbR, nonnull_of_ne hx0, hr3', hpL, hpd3, hxL, nonnull_of_ne hb0, hr]

/-! ## The loop -/

theorem BhWeak.of_black {f : LTree Color} {k : ℕ} (hb : BhWeak f k) (hf : color f = .black) : Bh f k := by
  cases f with
  | nil => exact hb
  | node l a d r =>
    cases hf
    exact hb

theorem short_up {f s : LTree Color} {p : Addr} {d : Color} {k : ℕ} {g : Frame Color} (hf : Bh f k)
    (hs : Bh s k) (hg : g.dat = d) (hp : PathOk (g :: c) (k + 1)) :
    ∃ m, (BhWeak (.node f p d s) m ∧ BhWeak (.node s p d f) m) ∧ PathOk c (m + 1) := by
  have hpc := hp.2
  rw [hg] at hpc
  cases d with
  | red => exact ⟨k,⟨⟨hf,hs⟩,hs,hf⟩,hpc.2.1⟩
  | black => exact ⟨k + 1,⟨⟨k,rfl,hf,hs⟩,k,rfl,hs,hf⟩,hpc⟩

theorem remBody_spec {n : ℕ} {s : RbHeap κ × Addr × Dir} (hi : RemInv h₀ root xs n s) :
    (∃ s' m, remBody root s = some (.again s') ∧ m < n ∧ RemInv h₀ root xs m s') ∨
      ∃ s', remBody root s = some (.leave s') ∧ RemDone h₀ root xs s' := by
  obtain ⟨h,par,cdir⟩ := s
  obtain ⟨c,f,⟨k,hz,hb,hp,hs,hxs,hk⟩,hn⟩ := hi
  simp only at hz hs hk
  cases c with
  | nil =>
    obtain ⟨rfl,rfl⟩ : par = root ∧ cdir = .P := by simpa using hs
    exact Or.inr ⟨(h,par,.P),by simp [remBody],[],f,⟨k,hz,hb,hp,rfl,hxs,hk⟩,Or.inl rfl⟩
  | cons g c =>
    have hp0 : par ≠ 0 := by
      have := hz.slot_ne_zero
      rw [← hs] at this
      exact this
    have hcol : col h ((h par).p cdir) = color f := by
      have hv := hz.above.slot_val
      rw [← hs] at hv
      rw [hv]
      exact Zip.col_focus hz
    cases hf : color f with
    | red =>
      refine Or.inr ⟨(h,par,cdir),?_,_,f,⟨k,hz,hb,hp,hs,hxs,hk⟩,Or.inr hf⟩
      have hcd : cdir ≠ .P := by
        cases g <;> simp at hs <;> simp [hs]
      simp [remBody, hcd, nonnull_of_ne hp0, hcol, hf]
    | black =>
      left
      have hbf := hb.of_black hf
      simp only [hf, reduceCtorEq, if_false, List.length_cons] at hn
      cases g with
      | inL p d s =>
        obtain ⟨rfl,rfl⟩ : par = p ∧ cdir = .L := by simpa using hs
        rw [Node.p_L] at hcol
        obtain ⟨h1,b,c',d',A,B,hr,sh,hd'⟩ := remRedL_spec (zip_inL.mp hz) hbf hp hxs hk
        have hcA := Zip.col_focus (zip_inL.mpr (zip_inR.mpr sh.zip))
        have hcB := Zip.col_focus (zip_inR.mpr (zip_inR.mpr sh.zip))
        obtain ⟨-,-,-,-,-,-,-,-,-,hbL,hbR,-⟩ := sh.zip.sub
        rw [← hbL] at hcA
        rw [← hbR] at hcB
        by_cases hAB : color A = .black ∧ color B = .black
        · obtain ⟨z1,hx1,hk1⟩ := Zip.overwrite .red (zip_inR.mpr sh.zip) sh.addrs sh.keeps
          obtain ⟨m,hm,hpm⟩ := short_up (p := par) (s := .node A b .red B) sh.focus
            ⟨hAB.1,hAB.2,sh.near,sh.far⟩ rfl sh.path
          have z2 := zip_inR.mp z1
          refine ⟨(setDat h1 b .red,slot root c'),_,?_,?_,c',_,⟨m,z2,hm.1,hpm,rfl,hx1,hk1⟩,rfl⟩
          · have hP := z2.sub.1
            have hD := z2.sub.2.1
            simp only [setDat_pP, setDat_pdir] at hP hD
            simp [remBody, nonnull_of_ne hp0, hcol, hf, hr, hcA, hcB, hAB, hP, hD]
          · simp only [color_node]
            rcases hd' with rfl | hd'
            · simp [hn]
            · cases d' <;> simp [hn, hd']
        · obtain ⟨h2,T,m,hr2,hz2,hm,hx2,hk2⟩ := remEndL_spec sh hAB
          refine ⟨(h2,root,.P),_,?_,?_,[],T,⟨m,hz2,hm.weak,trivial,rfl,hx2,hk2⟩,rfl⟩
          · rw [← hcA,← hcB] at hAB
            simp [remBody, nonnull_of_ne hp0, hcol, hf, hr, hAB, hr2]
          · simp only [List.length_nil]
            split <;> omega
      | inR s p d =>
        obtain ⟨rfl,rfl⟩ : par = p ∧ cdir = .R := by simpa using hs
        rw [Node.p_R] at hcol
        obtain ⟨h1,b,c',d',A,B,hr,sh,hd'⟩ := remRedR_spec (zip_inR.mp hz) hbf hp hxs hk
        have hcB := Zip.col_focus (zip_inL.mpr (zip_inL.mpr sh.zip))
        have hcA := Zip.col_focus (zip_inR.mpr (zip_inL.mpr sh.zip))
        obtain ⟨-,-,-,-,-,⟨-,-,-,hbL,hbR,-⟩,-⟩ := sh.zip.sub
        rw [← hbL] at hcB
        rw [← hbR] at hcA
        by_cases hAB : color B = .black ∧ color A = .black
        · obtain ⟨z1,hx1,hk1⟩ := Zip.overwrite .red (zip_inL.mpr sh.zip) sh.addrs sh.keeps
          obtain ⟨m,hm,hpm⟩ := short_up (p := par) (s := .node B b .red A) sh.focus
            ⟨hAB.1,hAB.2,sh.far,sh.near⟩ rfl sh.path
          have z2 := zip_inL.mp z1
          refine ⟨(setDat h1 b .red,slot root c'),_,?_,?_,c',_,⟨m,z2,hm.2,hpm,rfl,hx1,hk1⟩,rfl⟩
          · have hP := z2.sub.1
            have hD := z2.sub.2.1
            simp only [setDat_pP, setDat_pdir] at hP hD
            simp [remBody, nonnull_of_ne hp0, hcol, hf, hr, hcA, hcB, hAB, hP, hD]
          · simp only [color_node]
            rcases hd' with rfl | hd'
            · simp [hn]
            · cases d' <;> simp [hn, hd']
        · obtain ⟨h2,T,m,hr2,hz2,hm,hx2,hk2⟩ := remEndR_spec sh hAB
          refine ⟨(h2,root,.P),_,?_,?_,[],T,⟨m,hz2,hm.weak,trivial,rfl,hx2,hk2⟩,rfl⟩
          · rw [← hcA,← hcB] at hAB
            simp [remBody, nonnull_of_ne hp0, hcol, hf, hr, hAB, hr2]
          · simp only [List.length_nil]
            split <;> omega

/-! ## Taking a node out -/

theorem isRb_plug {n : ℕ} (hb : Bh t n) (hp : PathOk c n) (ht : color t = .black) : IsRb (plug c t) := by
  refine ⟨?_,bh_plug hb hp (by simp [ht])⟩
  by_cases hc : c = []
  · subst hc
    exact ht
  · exact hp.root_black hc t

theorem PathOk.readdress {c₁ : Spine Color} {f g : Frame Color} {n : ℕ} (hs : f.sib = g.sib)
    (hd : f.dat = g.dat) (hp : PathOk (c₁ ++ f :: c) n) : PathOk (c₁ ++ g :: c) n := by
  induction c₁ generalizing n with
  | nil =>
    simp only [List.nil_append, PathOk] at hp ⊢
    rwa [← hs,← hd]
  | cons e c₁ ih =>
    simp only [List.cons_append, PathOk] at hp ⊢
    refine ⟨hp.1,?_⟩
    have h2 := hp.2
    cases he : e.dat with
    | black =>
      rw [he] at h2
      exact ih h2
    | red =>
      rw [he] at h2
      refine ⟨h2.1,ih h2.2.1,?_⟩
      obtain ⟨e',c',he',hb⟩ := h2.2.2
      cases c₁ with
      | nil =>
        cases he'
        exact ⟨g,c,rfl,hd ▸ hb⟩
      | cons e₂ c₁ =>
        cases he'
        exact ⟨_,_,rfl,hb⟩

/-- What is left after the relinking: a tree without the node that is red-black when the
colour that left was red, and one black node short at a known link otherwise. -/
def Unlinked (h : RbHeap κ) (root : Addr) (xs ys : List Addr) (s : RbHeap κ × Addr × Dir × Color) : Prop :=
  ∃ c f, Zip s.1 root c f ∧ (s.2.1,s.2.2.1) = slot root c ∧ (plug c f).addrs = ys ∧ Keeps h s.1 (root :: xs) ∧
    (s.2.2.2 = .red ∧ IsRb (plug c f) ∨ s.2.2.2 = .black ∧ ∃ k, Bh f k ∧ PathOk c (k + 1))

theorem Bh.short {l r : LTree Color} {a : Addr} {n : ℕ} (hb : Bh (.node l a .black r) n) (hp : PathOk c n) :
    (∃ k, Bh l k ∧ PathOk c (k + 1)) ∧ ∃ k, Bh r k ∧ PathOk c (k + 1) := by
  obtain ⟨k,rfl,hl,hr⟩ := hb
  exact ⟨⟨k,hl,hp⟩,k,hr,hp⟩

theorem rbUnlink_leaf {a : Addr} {d : Color} {fuel : ℕ} (hz : Zip h root c (.node .nil a d .nil))
    (hT : IsRb (plug c (.node .nil a d .nil))) :
    ∃ s, rbUnlink h a fuel = some s ∧ Unlinked h root (plug c (.node .nil a d .nil)).addrs
      (lefts c ++ rights c) s := by
  obtain ⟨h1,h2,h3,h4,h5,-,-⟩ := hz.sub
  obtain ⟨n,hb,hp,-⟩ := bh_unplug hT.2.choose_spec hT.1
  obtain ⟨h',hf,hz',hk,ho⟩ := hz.hoist (show Holds h .nil (a,.L) from trivial) (by simp)
  have hd : (h' a).dat = d := by rw [ho a (by simp) (by simp),h3]
  refine ⟨(h',(slot root c).1,(slot root c).2,d),?_,c,.nil,hz',rfl,by simp [addrs_plug],hk,?_⟩
  · simp only [LTree.ptr_nil] at hf h4 h5
    simp only [rbUnlink, rbFindrep, findrep, h4, h5, h1, h2, if_true, rbFix, hf, hd, Option.bind_eq_bind,
      Option.bind_some, Option.pure_def]
  · cases d with
    | red =>
      obtain ⟨-,-,rfl,-⟩ := hb
      exact Or.inl ⟨rfl,isRb_plug (n := 0) rfl hp rfl⟩
    | black => exact Or.inr ⟨rfl,(hb.short hp).1⟩

theorem rbUnlink_right {rl rr : LTree Color} {a x : Addr} {d e : Color} {fuel : ℕ}
    (hz : Zip h root c (.node .nil a d (.node rl x e rr))) (hT : IsRb (plug c (.node .nil a d (.node rl x e rr)))) :
    ∃ s, rbUnlink h a fuel = some s ∧ Unlinked h root (plug c (.node .nil a d (.node rl x e rr))).addrs
      (lefts c ++ (LTree.node rl x e rr).addrs ++ rights c) s := by
  obtain ⟨h1,h2,h3,h4,h5,-,hx⟩ := hz.sub
  obtain ⟨n,hb,hp,-⟩ := bh_unplug hT.2.choose_spec hT.1
  obtain ⟨rfl,rfl,rfl,rfl⟩ : d = .black ∧ e = .red ∧ rl = .nil ∧ rr = .nil := by
    cases d with
    | red =>
      obtain ⟨-,hrc,rfl,hr⟩ := hb
      cases e with
      | red => simp at hrc
      | black => obtain ⟨k,hk,-⟩ := hr; omega
    | black =>
      obtain ⟨k,-,rfl,hr⟩ := hb
      cases e with
      | black => obtain ⟨k,hk,-⟩ := hr; omega
      | red =>
        obtain ⟨hlc,hrc,hl,hr⟩ := hr
        refine ⟨rfl,rfl,?_,?_⟩
        · rcases rl with _ | ⟨_,_,_ | _,_⟩ <;> simp_all [Bh]
        · rcases rr with _ | ⟨_,_,_ | _,_⟩ <;> simp_all [Bh]
  have hx0 : x ≠ 0 := hz.ne_zero (Zip.focus_mem (by simp))
  have hax : a ≠ x := by
    have := hz.focus_distinct
    simp at this
    exact this
  obtain ⟨h',hf,hz',hk,ho⟩ := hz.hoist hx (by simp)
  have hda : (h' a).dat = .black := by rw [ho a (by simp) (by simpa using hax),h3]
  have hdx : (h' x).dat = .red := hz'.sub.2.2.1
  have hz2 := hz'.setDat .black
  obtain ⟨k,rfl,rfl,-⟩ := hb
  refine ⟨(setDat h' x .black,x,.R,.red),?_,.inR .nil x .black :: c,.nil,zip_inR.mpr hz2,rfl,?_,
    hk.trans (setDat_keeps (List.mem_cons_of_mem _ (Zip.focus_mem (by simp)))),
    Or.inl ⟨rfl,isRb_plug (t := .node .nil x .black .nil) ⟨0,rfl,rfl,rfl⟩ hp rfl⟩⟩
  · simp only [LTree.ptr_nil, LTree.ptr_node] at hf h4 h5
    simp only [rbUnlink, rbFindrep, findrep, h4, h5, h1, h2, if_true, rbFix, hf, hda, hdx, hx0, or_true,
      if_false, Option.bind_eq_bind, Option.bind_some, Option.pure_def]
  · simp [addrs_plug]

theorem rbUnlink_left {ll r : LTree Color} {a x : Addr} {d e : Color} {fuel : ℕ}
    (hz : Zip h root c (.node (.node ll x e .nil) a d r)) (hT : IsRb (plug c (.node (.node ll x e .nil) a d r)))
    (hfuel : 0 < fuel) :
    ∃ s, rbUnlink h a fuel = some s ∧ Unlinked h root (plug c (.node (.node ll x e .nil) a d r)).addrs
      (lefts c ++ (LTree.node ll x e .nil).addrs ++ r.addrs ++ rights c) s := by
  obtain ⟨h1,h2,h3,h4,h5,hl,hr⟩ := hz.sub
  obtain ⟨n,hb,hp,-⟩ := bh_unplug (c := .inL a d r :: c) hT.2.choose_spec hT.1
  have hd := hz.distinct
  simp only [addrs_plug, LTree.addrs_node, LTree.addrs_nil, List.nodup_cons, List.mem_cons, List.mem_append,
    List.nodup_append, List.not_mem_nil, or_false, not_or] at hd
  have hrp : r.ptr ≠ 0 → r.ptr ∈ r.addrs := LTree.ptr_mem
  have hx0 : x ≠ 0 := by grind
  have hfr : rightmost h x fuel = some x := rightmost_leaf (zip_inL.mpr hz) hfuel
  obtain ⟨h',hf1,hs',ho1,hk1⟩ := Holds.graft hl hr (by
    simp only [List.nodup_cons, List.mem_cons, List.mem_append, List.nodup_append]
    grind)
  have hd' : (0 :: root :: (plug c (.node ll x e r)).addrs).Nodup := by
    simp only [addrs_plug, LTree.addrs_node, List.nodup_cons, List.mem_cons, List.mem_append, List.nodup_append]
    grind
  have hsl := hz.slot_notin
  simp only [LTree.addrs_node, List.mem_append, List.mem_cons, not_or] at hsl
  have hab : Above h' root c a := hz.above.congr (fun y hy => ho1 y (by grind) (by grind))
  obtain ⟨h'',hf2,hz2,hk2⟩ := hab.store hs' hd'
  have ha1 : h' a = h a := ho1 a (by grind) (by grind)
  have ha2 : h'' a = h a := by
    rw [← ha1]
    refine (hk2 [(slot root c).1,x] (by simp) (by simp)).out a ?_
    simp only [List.mem_cons, List.not_mem_nil, or_false, not_or]
    exact ⟨fun he => hsl.2.1 he.symm,by grind⟩
  have hdx : (h'' x).dat = e := hz2.sub.2.2.1
  have hmem : ∀ y ∈ (LTree.node (.node ll x e .nil) a d r).addrs, y ∈ root :: (plug c (.node (.node ll x e .nil) a d r)).addrs :=
    fun y hy => List.mem_cons_of_mem _ (Zip.focus_mem hy)
  have hkk : Keeps h h'' (root :: (plug c (.node (.node ll x e .nil) a d r)).addrs) :=
    (hk1 _ (hmem x (by simp)) (fun y hy => hmem y (by simp [hy]))).trans
      (hk2 _ (Zip.slot_mem root c _) (fun _ => hmem x (by simp)))
  refine ⟨(setDat h'' x d,x,.L,e),?_,.inL x d r :: c,ll,zip_inL.mpr (hz2.setDat d),rfl,?_,
    hkk.trans (setDat_keeps (hmem x (by simp))),?_⟩
  · simp only [LTree.ptr_node] at hf1 hf2 h4
    simp only [rbUnlink, rbFindrep, findrep, h4, hx0, if_false, hfr, Option.bind_eq_bind, Option.bind_some,
      true_or, if_true, rbFix, h5, hf1, Option.pure_def, ha1, h1, h2, hf2, ha2, h3, hdx]
  · simp [addrs_plug]
  · have hp' : PathOk (.inL x d r :: c) n := hp
    cases e with
    | red => exact Or.inl ⟨rfl,isRb_plug hb.2.2.1 hp' hb.1⟩
    | black => exact Or.inr ⟨rfl,(hb.short hp').1⟩

theorem rbUnlink_far {h₁ h₂ h₃ h₄ h₅ : RbHeap κ} {a m : Addr} {fuel : ℕ} (hrep : rbFindrep h a fuel = some m)
    (hm : m ≠ 0) (hL : m ≠ (h a).pL) (hR : m ≠ (h a).pR)
    (hf1 : fix h (h m).pP (h m).pL (h m).pdir = some h₁) (hf2 : h₂ = setDat h₁ m (h₁ a).dat)
    (hf3 : fix h₂ m (h₂ a).pL .L = some h₃) (hf4 : fix h₃ m (h₃ a).pR .R = some h₄)
    (hf5 : fix h₄ (h₄ a).pP m (h₄ a).pdir = some h₅) :
    rbUnlink h a fuel = some (h₅,(h m).pP,(h m).pdir,(h₁ m).dat) := by
  subst hf2
  simp only [rbUnlink, hrep, Option.bind_eq_bind, Option.bind_some, hm, if_false, hL, hR, or_self, rbFix, hf1,
    hf3, hf4, hf5, Option.pure_def]

theorem rbUnlink_deep {l' r : LTree Color} {a m : Addr} {d e : Color} {fuel : ℕ} {c₁ : Spine Color} (hc₁ : c₁ ≠ [])
    (hz : Zip h root c (.node (plug c₁ (.node l' m e .nil)) a d r))
    (hT : IsRb (plug c (.node (plug c₁ (.node l' m e .nil)) a d r)))
    (hm : rightmost h (plug c₁ (.node l' m e .nil)).ptr fuel = some m) (hr1 : rights c₁ = []) :
    ∃ s, rbUnlink h a fuel = some s ∧ Unlinked h root (plug c (.node (plug c₁ (.node l' m e .nil)) a d r)).addrs
      (lefts c ++ (plug c₁ (.node l' m e .nil)).addrs ++ r.addrs ++ rights c) s := by
  obtain ⟨h1,h2,h3,h4,h5,-,-⟩ := hz.sub
  have hzm : Zip h root (c₁ ++ .inL a d r :: c) (.node l' m e .nil) := zip_plug.mpr (zip_inL.mpr hz)
  have hT' : IsRb (plug (c₁ ++ .inL a d r :: c) (.node l' m e .nil)) := by rwa [plug_append]
  obtain ⟨n,hb,hp,-⟩ := bh_unplug hT'.2.choose_spec hT'.1
  have hd := hz.distinct
  have hpm := plug_ptr_mem hc₁ (.node l' m e .nil)
  have hpm' := plug_ptr_mem hc₁ l'
  simp only [addrs_plug, LTree.addrs_node, LTree.addrs_nil, hr1, List.nodup_cons, List.mem_cons, List.mem_append,
    List.nodup_append, List.not_mem_nil, or_false, not_or, List.append_nil] at hd hpm hpm'
  have hrp : r.ptr ≠ 0 → r.ptr ∈ r.addrs := LTree.ptr_mem
  have hp0 : (plug c₁ (.node l' m e .nil)).ptr ≠ 0 := by grind
  have hm0 : m ≠ 0 := by grind
  have hml : m ≠ (plug c₁ (.node l' m e .nil)).ptr := by grind
  have hmr : m ≠ r.ptr := by grind
  -- its left child takes its place
  obtain ⟨k1,hf1,z1,hk1,ho1⟩ := hzm.hoist hzm.sub.2.2.2.2.2.1 (by simp)
  have hsm := hzm.sub
  simp only [Holds] at hsm
  have hm1 : k1 m = h m := ho1 m (by simp) (by grind)
  have z1' : Zip k1 root c (.node (plug c₁ l') a d r) := zip_inL.mp (zip_plug.mp z1)
  -- it takes the colour, the children and the slot of the node
  have hout : m ∉ 0 :: root :: (plug c (.node (plug c₁ l') a d r)).addrs := by
    simp only [addrs_plug, LTree.addrs_node, hr1, List.mem_cons, List.mem_append, not_or, List.append_nil]
    grind
  have z2 : Zip (setDat k1 m d) root c (.node (plug c₁ l') a d r) :=
    z1'.congr (fun y hy => Heap.put_of_ne (by rintro rfl; exact hout (List.mem_cons_of_mem _ hy)))
  obtain ⟨s1,s2,s3,s4,s5,-,-⟩ := z2.sub
  obtain ⟨k3,k4,k5,hf3,hf4,hf5,z5,e3,e4,-,hk5⟩ := z2.transplant hout
  have hdm : (setDat k1 m d m).dat = d := by simp [setDat]
  rw [hdm] at z5
  have hsub : ∀ y ∈ root :: m :: (plug c (.node (plug c₁ l') a d r)).addrs,
      y ∈ root :: (plug c (.node (plug c₁ (.node l' m e .nil)) a d r)).addrs := by
    intro y hy
    simp only [addrs_plug, LTree.addrs_node, LTree.addrs_nil, hr1, List.mem_cons, List.mem_append,
      List.not_mem_nil, or_false, List.append_nil] at hy ⊢
    clear * - hy
    tauto
  have hkk : Keeps h k5 (root :: (plug c (.node (plug c₁ (.node l' m e .nil)) a d r)).addrs) := by
    refine ((hk1.mono ?_).trans (setDat_keeps (hsub m (by simp)))).trans (hk5.mono hsub)
    intro y hy
    rwa [plug_append] at hy
  refine ⟨(k5,(slot root (c₁ ++ .inL a d r :: c)).1,(slot root (c₁ ++ .inL a d r :: c)).2,e),?_,
    c₁ ++ .inL m d r :: c,l',zip_plug.mpr (zip_inL.mpr z5),?_,?_,hkk,?_⟩
  · have hda : (k1 a).dat = d := z1'.sub.2.2.1
    have hrep : rbFindrep h a fuel = some m := by
      rw [← h4] at hm hp0
      simp only [rbFindrep, findrep, hp0, if_false, hm]
    have he : e = (k1 m).dat := by rw [hm1,hsm.2.2.1]
    rw [he,← hsm.1,← hsm.2.1]
    rw [← hsm.2.2.2.1,← hsm.1,← hsm.2.1] at hf1
    rw [← s4] at hf3
    rw [← s5,← e3] at hf4
    rw [← s1,← s2,← e4] at hf5
    exact rbUnlink_far hrep hm0 (h4 ▸ hml) (h5 ▸ hmr) hf1 (by rw [hda]) hf3 hf4 hf5
  · cases c₁ with
    | nil => exact absurd rfl hc₁
    | cons f c₁ => cases f <;> rfl
  · simp [plug_append, addrs_plug, hr1]
  · have hp' : PathOk (c₁ ++ .inL m d r :: c) n := hp.readdress (f := .inL a d r) (g := .inL m d r) rfl rfl
    cases e with
    | red => exact Or.inl ⟨rfl,isRb_plug hb.2.2.1 hp' hb.1⟩
    | black => exact Or.inr ⟨rfl,(hb.short hp').1⟩

theorem rbUnlink_spec {l r : LTree Color} {a : Addr} {d : Color} {fuel : ℕ} (hz : Zip h root c (.node l a d r))
    (hT : IsRb (plug c (.node l a d r))) (hf : (plug c (.node l a d r)).addrs.length < fuel) :
    ∃ s, rbUnlink h a fuel = some s ∧ Unlinked h root (plug c (.node l a d r)).addrs
      (lefts c ++ l.addrs ++ r.addrs ++ rights c) s := by
  cases l with
  | nil =>
    cases r with
    | nil => simpa using rbUnlink_leaf hz hT
    | node rl x e rr => simpa using rbUnlink_right hz hT
  | node ll x e lr =>
    simp only [addrs_plug, LTree.addrs_node, List.length_append, List.length_cons] at hf
    obtain ⟨c₁,l',m,e',hl,hr1,hm⟩ := rightmost_spec (zip_inL.mpr hz) (show lr.addrs.length < fuel by omega)
    by_cases hc₁ : c₁ = []
    · subst hc₁
      obtain ⟨rfl,rfl,rfl,rfl⟩ : l' = ll ∧ m = x ∧ e' = e ∧ .nil = lr := by simpa using hl
      exact rbUnlink_left hz hT (by omega)
    · rw [← hl] at hz hT ⊢
      exact rbUnlink_deep hc₁ hz hT (by rw [hl]; exact hm) hr1

theorem remDone_blacken {s : RbHeap κ × Addr × Dir} (hd : RemDone h₀ root xs s) :
    ∃ par h' T', nonnull s.2.1 = some par ∧
      (if (s.1 par).p s.2.2 = 0 then s.1 else setDat s.1 ((s.1 par).p s.2.2) .black) = h' ∧
      Zip h' root [] T' ∧ IsRb T' ∧ T'.addrs = xs ∧ Keeps h₀ h' (root :: xs) := by
  obtain ⟨h,par,cdir⟩ := s
  obtain ⟨c,f,⟨k,hz,hb,hp,hs,hxs,hk⟩,hor⟩ := hd
  simp only at hz hs hk ⊢
  have hp0 : par ≠ 0 := by
    have := hz.slot_ne_zero
    rw [← hs] at this
    exact this
  have hv := hz.above.slot_val
  rw [← hs] at hv
  simp only at hv
  cases f with
  | nil =>
    have hc : c = [] := by simpa using hor
    subst hc
    exact ⟨par,h,.nil,nonnull_of_ne hp0,by simp [hv],hz,⟨rfl,k,hb⟩,hxs,hk⟩
  | node l a d r =>
    have ha0 : a ≠ 0 := hz.ne_zero (Zip.focus_mem (by simp))
    obtain ⟨hz',hx',hk'⟩ := Zip.overwrite .black hz hxs hk
    rw [LTree.ptr_node] at hv
    refine ⟨par,_,_,nonnull_of_ne hp0,by simp [hv, ha0],zip_top.mp hz',?_,hx',hk'⟩
    cases d with
    | red => exact isRb_plug (t := .node l a .black r) ⟨k,rfl,hb.1,hb.2⟩ hp rfl
    | black =>
      have hc : c = [] := by simpa using hor
      subst hc
      exact ⟨rfl,k,hb⟩

theorem rbRem_spec {l r : LTree Color} {a : Addr} {d : Color} {fuel : ℕ} (hz : Zip h root c (.node l a d r))
    (hT : IsRb (plug c (.node l a d r))) (ht : (h a).tree = root)
    (hf : (plug c (.node l a d r)).addrs.length < fuel) :
    ∃ h' T', rbRem h a fuel = some h' ∧ Zip h' root [] T' ∧ IsRb T' ∧
      T'.addrs = lefts c ++ l.addrs ++ r.addrs ++ rights c ∧ (h' a).pL = 0 ∧ (h' a).pR = 0 ∧
      Keeps h h' (root :: (plug c (.node l a d r)).addrs) := by
  have ha0 : a ≠ 0 := hz.ne_zero (Zip.focus_mem (by simp))
  obtain ⟨⟨h1,par,cdir,oldc⟩,hu,c',f,hz1,hs,hx1,hk1,hor⟩ := rbUnlink_spec hz hT hf
  simp only at hz1 hs hk1 hor
  have hd := hz.distinct
  simp only [addrs_plug, LTree.addrs_node, List.nodup_cons, List.mem_cons, List.mem_append, List.nodup_append,
    not_or] at hd
  have hna : a ∉ root :: (plug c' f).addrs := by
    rw [hx1]
    simp only [List.mem_cons, List.mem_append, not_or]
    grind
  have hz2 : Zip (rbNinit h1 a (h1 a).key) root c' f :=
    hz1.congr (fun y hy => Heap.put_of_ne (by rintro rfl; exact hna hy))
  have hsub : ∀ y ∈ root :: (plug c' f).addrs, y ∈ root :: (plug c (.node l a d r)).addrs := by
    rw [hx1]
    intro y hy
    simp only [addrs_plug, LTree.addrs_node, List.mem_cons, List.mem_append] at hy ⊢
    clear * - hy
    tauto
  have hka : Keeps h1 (rbNinit h1 a (h1 a).key) [a] := Keeps.put rfl rfl
  have hk2 : Keeps h (rbNinit h1 a (h1 a).key) (root :: (plug c (.node l a d r)).addrs) :=
    hk1.trans (hka.mono (by simp [addrs_plug]))
  have hreset : (rbNinit h1 a (h1 a).key a).pL = 0 ∧ (rbNinit h1 a (h1 a).key a).pR = 0 := by simp [rbNinit]
  cases oldc with
  | red =>
    have hrb : IsRb (plug c' f) := by simpa using hor
    exact ⟨_,_,by simp [rbRem, nonnull_of_ne ha0, hu],zip_top.mp hz2,hrb,hx1,hreset.1,hreset.2,hk2⟩
  | black =>
    obtain ⟨k,hb,hp⟩ : ∃ k, Bh f k ∧ PathOk c' (k + 1) := by simpa using hor
    have hi : RemInv (rbNinit h1 a (h1 a).key) root (plug c' f).addrs
        (if color f = .red then 0 else c'.length + 1) (rbNinit h1 a (h1 a).key,par,cdir) :=
      ⟨c',f,⟨k,hz2,hb.weak,hp,hs,rfl,Keeps.refl _ _⟩,rfl⟩
    have hlen := length_le_addrs c' f
    have hlen' : (plug c' f).addrs.length < (plug c (.node l a d r)).addrs.length := by
      rw [hx1,addrs_plug]
      simp only [LTree.addrs_node, List.length_append, List.length_cons]
      omega
    obtain ⟨s,hl,hdone⟩ := loop_total (fun _ _ => remBody_spec) hi
      (show (if color f = .red then 0 else c'.length + 1) < fuel by split <;> omega)
    obtain ⟨par',h3,T',hpar,he,hz3,hrb,hx3,hk3⟩ := remDone_blacken hdone
    obtain ⟨h2,par2,cdir2⟩ := s
    simp only at hpar he
    have ho := hk3.out a hna
    refine ⟨h3,T',?_,hz3,hrb,hx3.trans hx1,by rw [ho,hreset.1],by rw [ho,hreset.2],hk2.trans (hk3.mono hsub)⟩
    simp only [rbRem, nonnull_of_ne ha0, Option.bind_eq_bind, Option.bind_some, ht, hu, hl, hpar, reduceCtorEq,
      if_false, Option.pure_def, ← he]
    split <;> rfl

end Catlib.RedBlack
