import Catlib.Clist.Clist
import Mathlib.Data.Set.Insert
import Mathlib.Data.List.TakeDrop

/-! # Several lists in one memory

`Rings h A L`: the addresses of `A` are the heads of lists, the one at `a` has the nodes `L a`, and the lists
share no node. Every operation of list.h changes the lists it is about and leaves the others as they are.
-/
namespace Catlib.Clist
open Function

variable {h g : Links} {A : Set ℕ} {L : ℕ → List ℕ} {a b n p : ℕ} {xs ys s t : List ℕ}

/-- Who is on which list. -/
structure Layout (A : Set ℕ) (L : ℕ → List ℕ) : Prop where
  nodup : ∀ a ∈ A, (a :: L a).Nodup
  apart : ∀ a ∈ A, ∀ b ∈ A, a ≠ b → ∀ x ∈ a :: L a, x ∉ b :: L b
  pos : ∀ a ∈ A, 0 ∉ a :: L a

/-- A node, or a head, that is on no list. -/
structure Free (A : Set ℕ) (L : ℕ → List ℕ) (n : ℕ) : Prop where
  pos : n ≠ 0
  off : ∀ a ∈ A, n ∉ a :: L a

structure Rings (h : Links) (A : Set ℕ) (L : ℕ → List ℕ) : Prop where
  layout : Layout A L
  ring : ∀ a ∈ A, Ring h a (L a)

/-! ## Layouts -/

theorem Layout.ne_zero (hl : Layout A L) (ha : a ∈ A) : a ≠ 0 := fun h => hl.pos a ha (by simp [h])

theorem Layout.change (hl : Layout A L) (ha : a ∈ A) (hd : (a :: xs).Nodup) (hx : ∀ x ∈ xs, x ∈ L a ∨ Free A L x) :
    Layout A (update L a xs) := by
  have hother : ∀ b ∈ A, b ≠ a → ∀ x ∈ a :: xs, x ∉ b :: L b := fun b hb hba x hxm => by
    rcases List.mem_cons.1 hxm with rfl | hxm
    · exact hl.apart x ha b hb hba.symm x List.mem_cons_self
    · rcases hx x hxm with hxa | hf
      · exact hl.apart a ha b hb hba.symm x (List.mem_cons_of_mem _ hxa)
      · exact hf.off b hb
  refine ⟨fun b hb => ?_,fun b hb c hc hbc x hxb hxc => ?_,fun b hb h0 => ?_⟩
  · by_cases hba : b = a
    · subst hba
      rwa [update_self]
    · rw [update_of_ne hba]
      exact hl.nodup b hb
  · by_cases hba : b = a
    · subst hba
      rw [update_self] at hxb
      rw [update_of_ne hbc.symm] at hxc
      exact hother c hc hbc.symm x hxb hxc
    · rw [update_of_ne hba] at hxb
      by_cases hca : c = a
      · subst hca
        rw [update_self] at hxc
        exact hother b hb hba x hxc hxb
      · rw [update_of_ne hca] at hxc
        exact hl.apart b hb c hc hbc x hxb hxc
  · by_cases hba : b = a
    · subst hba
      rw [update_self,List.mem_cons] at h0
      rcases h0 with h0 | h0
      · exact hl.ne_zero hb h0.symm
      · rcases hx 0 h0 with h1 | hf
        · exact hl.pos b hb (List.mem_cons_of_mem _ h1)
        · exact hf.pos rfl
    · rw [update_of_ne hba] at h0
      exact hl.pos b hb h0

theorem Layout.free (hl : Layout A L) (ha : a ∈ A) (hn : n ∈ L a) (hx : n ∉ xs) : Free A (update L a xs) n := by
  refine ⟨fun h0 => hl.pos a ha (List.mem_cons_of_mem _ (h0 ▸ hn)),fun b hb => ?_⟩
  by_cases hba : b = a
  · subst hba
    rw [update_self,List.mem_cons,not_or]
    have hd := hl.nodup b hb
    rw [List.nodup_cons] at hd
    exact ⟨fun he => hd.1 (he ▸ hn),hx⟩
  · rw [update_of_ne hba]
    exact hl.apart a ha b hb (Ne.symm hba) n (List.mem_cons_of_mem _ hn)

theorem Layout.addHead (hl : Layout A L) (hf : Free A L n) : Layout (insert n A) (update L n []) := by
  have hne : ∀ b ∈ A, b ≠ n := fun b hb he => hf.off b hb (he ▸ List.mem_cons_self)
  refine ⟨?_,?_,?_⟩
  · rintro a (rfl | ha)
    · simp
    · rw [update_of_ne (hne a ha)]
      exact hl.nodup a ha
  · rintro a (rfl | ha) b (rfl | hb) hab x hxa hxb
    · exact hab rfl
    · rw [update_self,List.mem_singleton] at hxa
      rw [update_of_ne (hne b hb)] at hxb
      exact hf.off b hb (hxa ▸ hxb)
    · rw [update_self,List.mem_singleton] at hxb
      rw [update_of_ne (hne a ha)] at hxa
      exact hf.off a ha (hxb ▸ hxa)
    · rw [update_of_ne (hne a ha)] at hxa
      rw [update_of_ne (hne b hb)] at hxb
      exact hl.apart a ha b hb hab x hxa hxb
  · rintro a (rfl | ha)
    · simpa using hf.pos.symm
    · rw [update_of_ne (hne a ha)]
      exact hl.pos a ha

theorem Layout.mono {B : Set ℕ} (hl : Layout A L) (hB : B ⊆ A) : Layout B L :=
  ⟨fun a ha => hl.nodup a (hB ha),fun a ha b hb => hl.apart a (hB ha) b (hB hb),fun a ha => hl.pos a (hB ha)⟩

theorem Layout.congr {L' : ℕ → List ℕ} (hl : Layout A L) (he : ∀ a ∈ A, L' a = L a) : Layout A L' := by
  refine ⟨fun a ha => ?_,fun a ha b hb => ?_,fun a ha => ?_⟩
  · rw [he a ha]
    exact hl.nodup a ha
  · rw [he a ha,he b hb]
    exact hl.apart a ha b hb
  · rw [he a ha]
    exact hl.pos a ha

/-! ## Rings -/

theorem Rings.mono {B : Set ℕ} (hr : Rings h A L) (hB : B ⊆ A) : Rings h B L :=
  ⟨hr.layout.mono hB,fun a ha => hr.ring a (hB ha)⟩

theorem Rings.congr {L' : ℕ → List ℕ} (hr : Rings h A L) (he : ∀ a ∈ A, L' a = L a) : Rings h A L' :=
  ⟨hr.layout.congr he,fun a ha => by rw [he a ha]; exact hr.ring a ha⟩

theorem Rings.mem (hr : Rings h A L) (ha : a ∈ A) {x : ℕ} (hx : x ∈ a :: L a) : x ≠ 0 := fun h0 => hr.layout.pos a ha (h0 ▸ hx)

theorem Rings.isempty (hr : Rings h A L) (ha : a ∈ A) : lIsempty h a = some (decide (L a = [])) := by
  rw [lIsempty,if_neg (hr.layout.ne_zero ha)]
  simp only [(hr.ring a ha).next_eq_iff (hr.layout.nodup a ha)]

theorem Rings.change (hr : Rings h A L) (ha : a ∈ A) (hd : (a :: xs).Nodup) (hx : ∀ x ∈ xs, x ∈ L a ∨ Free A L x)
    (hring : Ring g a xs) (hw : ∀ x, x ∉ a :: L a → x ∉ xs → g.next x = h.next x ∧ g.prev x = h.prev x) :
    Rings g A (update L a xs) := by
  refine ⟨hr.layout.change ha hd hx,fun b hb => ?_⟩
  by_cases hba : b = a
  · subst hba
    rwa [update_self]
  · rw [update_of_ne hba]
    refine (hr.ring b hb).congr fun x hxb => hw x (hr.layout.apart b hb a ha hba x hxb) fun hxs => ?_
    rcases hx x hxs with hxa | hf
    · exact hr.layout.apart a ha b hb (Ne.symm hba) x (List.mem_cons_of_mem _ hxa) hxb
    · exact hf.off b hb hxb

theorem Rings.lInit (hr : Rings h A L) (hf : Free A L n) :
    ∃ g, Clist.lInit h n = some g ∧ Rings g (insert n A) (update L n []) := by
  refine ⟨_,if_neg hf.pos,hr.layout.addHead hf,?_⟩
  rintro a (rfl | ha)
  · rw [update_self,ring_nil]
    simp [setNext_next,setPrev_prev]
  · have hne : a ≠ n := fun he => hf.off a ha (he ▸ List.mem_cons_self)
    rw [update_of_ne hne]
    refine (hr.ring a ha).congr fun x hx => ?_
    have hxn : x ≠ n := fun he => hf.off a ha (he ▸ hx)
    simp [setNext_next,setPrev_prev,hxn]

theorem Rings.joint (hr : Rings h A L) (ha : a ∈ A) (hL : L a = s ++ t) (hp : (a :: s).getLast (by simp) = p) :
    ∃ z, (t ++ [a]).head (by simp) = z ∧ p ∈ a :: L a ∧ z ∈ a :: L a ∧ h.next p = z ∧ h.prev z = p := by
  have hring := hr.ring a ha
  rw [hL] at hring ⊢
  obtain ⟨h1,h2⟩ := hring.step hp rfl
  have hpm : p ∈ a :: s := hp ▸ List.getLast_mem _
  have hzm := List.head_mem (l := t ++ [a]) (by simp)
  simp only [List.mem_cons,List.mem_append,List.not_mem_nil,or_false] at hpm hzm ⊢
  exact ⟨_,rfl,by tauto,by tauto,h1,h2⟩

theorem Rings.lIns (hr : Rings h A L) (ha : a ∈ A) (hL : L a = s ++ t) (hp : (a :: s).getLast (by simp) = p) (hf : Free A L n) :
    ∃ g, Clist.lIns h p n = some g ∧ Rings g A (update L a (s ++ n :: t)) := by
  obtain ⟨z,hz,hpm,hzm,h1,h2⟩ := hr.joint ha hL hp
  have hna := hf.off a ha
  have hnp : n ≠ p := fun he => hna (he ▸ hpm)
  have hnz : n ≠ z := fun he => hna (he ▸ hzm)
  have hd := hr.layout.nodup a ha
  have hring := hr.ring a ha
  rw [hL] at hd hring hna
  obtain ⟨g,he,hn',hb'⟩ : ∃ g, Clist.lIns h p n = some g ∧ (∀ x, g.next x = if x = p then n else if x = n then z else h.next x) ∧
      ∀ x, g.prev x = if x = z then n else if x = n then p else h.prev x := by
    refine ⟨_,by rw [Clist.lIns,if_neg (by simp [hr.mem ha hpm, hf.pos]),if_neg (by simp [h1, h2, hr.mem ha hzm])],?_⟩
    simp [h1, setNext_next, setPrev_prev]
  refine ⟨g,he,hr.change ha ?_ (fun x hx => ?_) ?_ (fun x hxa hxs => ?_)⟩
  · exact (List.nodup_cons.2 ⟨hna,hd⟩).perm (List.perm_middle : ((a :: s) ++ n :: t).Perm (n :: ((a :: s) ++ t))).symm
  · rw [hL]
    simp only [List.mem_append,List.mem_cons] at hx ⊢
    rcases hx with hx | rfl | hx
    · exact .inl (.inl hx)
    · exact .inr hf
    · exact .inl (.inr hx)
  · have hne : ∀ x ∈ a :: (s ++ t), x ≠ n := fun x hx he => hna (he ▸ hx)
    have hs := Ring.splice (g := g) (u := [n]) hd hp hz hring (by simp) (by simp [Seg]) (fun x hx hxp => by simp [hn', hxp, hne x hx])
      (fun x hx hxz => by simp [hb', hxz, hne x hx]) ⟨by simp [hn'],by simp [hb', hnz]⟩ ⟨by simp [hn', hnp],by simp [hb']⟩
    simpa using hs
  · have hxp : x ≠ p := fun he => hxa (he ▸ hpm)
    have hxz : x ≠ z := fun he => hxa (he ▸ hzm)
    have hxn : x ≠ n := fun he => hxs (by simp [he])
    simp [hn', hb', hxp, hxz, hxn]

theorem Rings.lRem (hr : Rings h A L) (ha : a ∈ A) (hL : L a = s ++ n :: t) :
    ∃ g, Clist.lRem h n = some g ∧ Rings g A (update L a (s ++ t)) ∧ Free A (update L a (s ++ t)) n := by
  obtain ⟨z,hz,-,hzm,h1,h2⟩ := hr.joint (s := s ++ [n]) (t := t) (p := n) ha (by simp [hL]) (by simp)
  obtain ⟨n',hn',hpm,hnm,h3,h4⟩ := hr.joint (s := s) (t := n :: t) ha hL rfl
  obtain rfl : n = n' := hn'
  obtain ⟨p,hp⟩ : ∃ p, (a :: s).getLast (by simp) = p := ⟨_,rfl⟩
  rw [hp] at hpm h3 h4
  have hd := hr.layout.nodup a ha
  have hring := hr.ring a ha
  rw [hL] at hd hring
  have hcut : (n :: a :: (s ++ t)).Nodup := hd.perm (List.perm_middle : ((a :: s) ++ n :: t).Perm (n :: ((a :: s) ++ t)))
  rw [List.nodup_cons] at hcut
  obtain ⟨hna,hd'⟩ := hcut
  have hnp : p ≠ n := by
    rintro rfl
    have := List.getLast_mem (l := a :: s) (by simp)
    rw [hp] at this
    simp only [List.mem_cons,List.mem_append] at this hna
    tauto
  have hnz : z ≠ n := by
    rintro rfl
    have := List.head_mem (l := t ++ [a]) (by simp)
    rw [hz] at this
    simp only [List.mem_cons,List.mem_append,List.not_mem_nil,or_false] at this hna
    tauto
  obtain ⟨g,he,hn',hb'⟩ : ∃ g, Clist.lRem h n = some g ∧ (∀ x, g.next x = if x = n then n else if x = p then z else h.next x) ∧
      ∀ x, g.prev x = if x = n then n else if x = z then p else h.prev x := by
    refine ⟨(((h.setNext p z).setPrev z p).setNext n n).setPrev n n,?_,?_⟩
    · simp [Clist.lRem, h1, h2, h3, h4, hr.mem ha hpm, hr.mem ha hzm, hr.mem ha hnm]
    · simp [setNext_next, setPrev_prev]
  refine ⟨g,he,hr.change ha hd' (fun x hx => .inl ?_) ?_ (fun x hxa _ => ?_),hr.layout.free ha (by simp [hL]) fun h => ?_⟩
  · rw [hL]
    simp only [List.mem_append,List.mem_cons] at hx ⊢
    tauto
  · have hne : ∀ x ∈ a :: (s ++ t), x ≠ n := fun x hx he => hna (he ▸ hx)
    refine Ring.close (h := h) (u := [n]) hd' hp hz (by simpa using hring) (fun x hx hxp => by simp [hn', hxp, hne x hx])
      (fun x hx hxz => by simp [hb', hxz, hne x hx]) ⟨by simp [hn', hnp],by simp [hb', hnz]⟩
  · have hxp : x ≠ p := fun he => hxa (he ▸ hpm)
    have hxz : x ≠ z := fun he => hxa (he ▸ hzm)
    have hxn : x ≠ n := fun he => hxa (he ▸ hnm)
    simp [hn', hb', hxp, hxz, hxn]
  · exact hna (List.mem_cons_of_mem _ h)

theorem Rings.lEnq (hr : Rings h A L) (ha : a ∈ A) (hf : Free A L n) :
    ∃ g, Clist.lEnq h a n = some g ∧ Rings g A (update L a (L a ++ [n])) := by
  obtain ⟨g,e,r⟩ := hr.lIns (s := L a) (t := []) (p := h.prev a) ha (by simp) (hr.ring a ha).prev_head.symm hf
  exact ⟨g,by rw [Clist.lEnq,if_neg (hr.layout.ne_zero ha),e],r⟩

theorem Rings.lPush (hr : Rings h A L) (ha : a ∈ A) (hf : Free A L n) :
    ∃ g, Clist.lPush h a n = some g ∧ Rings g A (update L a (n :: L a)) :=
  hr.lIns (s := []) (t := L a) ha rfl rfl hf

theorem Rings.lDeq (hr : Rings h A L) (ha : a ∈ A) : ∃ g, Clist.lDeq h a = some (g,(L a).headD 0) ∧ Rings g A (update L a (L a).tail) := by
  have hn := (hr.ring a ha).next_head
  have hne := hr.layout.ne_zero ha
  cases hL : L a with
  | nil =>
    simp only [hL, List.nil_append, List.head_cons] at hn
    refine ⟨h,by simp [Clist.lDeq, hne, hn],hr.congr fun c _ => ?_⟩
    by_cases hc : c = a
    · rw [hc,hL,update_self,List.tail_nil]
    · rw [update_of_ne hc]
  | cons x t =>
    simp only [hL, List.cons_append, List.head_cons] at hn
    obtain ⟨g,e,r,-⟩ := hr.lRem (s := []) (t := t) ha hL
    have hd := hr.layout.nodup a ha
    have hxa : x ≠ a := by
      rw [hL,List.nodup_cons,List.mem_cons,not_or] at hd
      exact Ne.symm hd.1.1
    exact ⟨g,by simp [Clist.lDeq, hne, hn, hxa, e],r⟩

theorem Rings.emptied (hr : Rings h A L) (ha : a ∈ A) : Rings ((h.setPrev a a).setNext a a) A (update L a []) := by
  refine hr.change ha (by simp) (by simp) ?_ fun x hx _ => ?_
  · rw [ring_nil]
    simp [setNext_next, setPrev_prev]
  · have hxa : x ≠ a := fun he => hx (he ▸ List.mem_cons_self)
    simp [setNext_next, setPrev_prev, hxa]

theorem Rings.transfer (hr : Rings h A L) (ha : a ∈ A) (hb : b ∈ A) (hab : a ≠ b) (hL : L a = s ++ t) (hy : L b = ys) (hy0 : ys ≠ [])
    {y e z : ℕ} (hp : (a :: s).getLast (by simp) = p) (hz : (t ++ [a]).head (by simp) = z) (hyh : ys.head hy0 = y) (hye : ys.getLast hy0 = e)
    (hn : ∀ x, g.next x = if x = b then b else if x = e then z else if x = p then y else h.next x)
    (hv : ∀ x, g.prev x = if x = b then b else if x = z then e else if x = y then p else h.prev x) :
    Rings g A (update (update L b []) a (s ++ ys ++ t)) := by
  have hyb : ∀ x ∈ ys, x ∈ b :: L b := fun x hx => List.mem_cons_of_mem _ (hy ▸ hx)
  have hym : y ∈ ys := hyh ▸ List.head_mem _
  have hem : e ∈ ys := hye ▸ List.getLast_mem _
  obtain ⟨z',hz',hpm,hzm,-⟩ := hr.joint ha hL hp
  obtain rfl : z = z' := hz.symm.trans hz'
  have hoff : ∀ x ∈ a :: L a, x ≠ b ∧ x ∉ ys := fun x hx => by
    have := hr.layout.apart a ha b hb hab x hx
    rw [hy,List.mem_cons,not_or] at this
    exact this
  have hd := hr.layout.nodup a ha
  have hdb := hr.layout.nodup b hb
  have hinner := (hr.ring b hb).inner
  have hring := (hr.emptied hb).ring a ha
  have hLb : update L b [] a = L a := update_of_ne hab _ _
  rw [hLb] at hring
  have hfree : ∀ x ∈ ys, Free A (update L b []) x := fun x hx => hr.layout.free hb (hy ▸ hx) (by simp)
  rw [hL] at hd hring
  rw [hy,List.nodup_cons] at hdb
  rw [hy] at hinner
  have hoff' : ∀ x ∈ a :: (s ++ t), x ≠ b ∧ x ∉ ys := fun x hx => hoff x (hL ▸ hx)
  have hpb := hoff p hpm
  have hzb := hoff z hzm
  have hys : ∀ x ∈ ys, x ≠ b ∧ x ≠ p ∧ x ≠ z := fun x hx =>
    ⟨fun he => hdb.1 (he ▸ hx),fun he => hpb.2 (he ▸ hx),fun he => hzb.2 (he ▸ hx)⟩
  refine (hr.emptied hb).change ha ?_ (fun x hx => ?_) ?_ fun x hxa hxs => ?_
  · have hperm : (s ++ t ++ ys).Perm (s ++ ys ++ t) := by
      rw [List.append_assoc,List.append_assoc]
      exact List.perm_append_comm.append_left s
    exact (List.nodup_append.2 ⟨hd,hdb.2,fun x hx y hy he => (hoff' x hx).2 (he ▸ hy)⟩).perm (hperm.cons a)
  · rw [hLb,hL]
    simp only [List.mem_append] at hx ⊢
    rcases hx with (hx | hx) | hx
    · exact .inl (.inl hx)
    · exact .inr (hfree x hx)
    · exact .inl (.inr hx)
  · refine Ring.splice hd hp hz hring hy0 (hinner.congr (fun x hx => ?_) (fun x hx => ?_)) (fun x hx hxp => ?_) (fun x hx hxz => ?_) ?_ ?_
    · have hxm := hys x (List.dropLast_subset _ hx)
      have hxe : x ≠ e := hye ▸ ne_getLast_of_mem_dropLast hdb.2 hy0 hx
      simp [hn, hxm, hxe]
    · have hxm := hys x (List.mem_of_mem_tail hx)
      have hxy : x ≠ y := hyh ▸ ne_head_of_mem_tail hdb.2 hy0 hx
      simp [hv, hxm, hxy]
    · have hxm := hoff' x hx
      have hxe : x ≠ e := fun he => hxm.2 (he ▸ hem)
      simp [hn, hxm.1, hxe, hxp, setNext_next]
    · have hxm := hoff' x hx
      have hxy : x ≠ y := fun he => hxm.2 (he ▸ hym)
      simp [hv, hxm.1, hxy, hxz, setPrev_prev]
    · have hpe : p ≠ e := fun he => hpb.2 (he ▸ hem)
      rw [hyh]
      exact ⟨by simp [hn, hpb.1, hpe],by simp [hv, (hys y hym)]⟩
    · rw [hye]
      exact ⟨by simp [hn, (hys e hem)],by simp [hv, hzb.1]⟩
  · rw [hLb] at hxa
    have hxp : x ≠ p := fun he => hxa (he ▸ hpm)
    have hxz : x ≠ z := fun he => hxa (he ▸ hzm)
    simp only [List.mem_append,not_or] at hxs
    have hxe : x ≠ e := fun he => hxs.1.2 (he ▸ hem)
    have hxy : x ≠ y := fun he => hxs.1.2 (he ▸ hym)
    simp [hn, hv, hxp, hxz, hxe, hxy, setNext_next, setPrev_prev]

theorem Rings.ends (hr : Rings h A L) (hb : b ∈ A) (hy : L b ≠ []) :
    ∃ y e, (L b).head hy = y ∧ (L b).getLast hy = e ∧ h.next b = y ∧ h.prev b = e ∧ y ≠ 0 ∧ e ≠ 0 ∧ y ≠ b ∧ e ≠ b := by
  have hd := hr.layout.nodup b hb
  rw [List.nodup_cons] at hd
  have h1 := (hr.ring b hb).next_head
  have h2 := (hr.ring b hb).prev_head
  rw [List.head_append_of_ne_nil hy] at h1
  rw [List.getLast_cons hy] at h2
  have hym := List.head_mem hy
  have hem := List.getLast_mem hy
  refine ⟨_,_,rfl,rfl,h1,h2,hr.mem hb (List.mem_cons_of_mem _ hym),hr.mem hb (List.mem_cons_of_mem _ hem),fun he => ?_,fun he => ?_⟩
  · rw [he] at hym
    exact hd.1 hym
  · rw [he] at hem
    exact hd.1 hem

theorem Rings.lSplice (hr : Rings h A L) (ha : a ∈ A) (hb : b ∈ A) (hab : a ≠ b) (hL : L a = s ++ t)
    (hp : (a :: s).getLast (by simp) = p) :
    ∃ g, Clist.lSplice h p b = some g ∧ Rings g A (update (update L b []) a (s ++ L b ++ t)) := by
  obtain ⟨z,hz,hpm,hzm,h1,h2⟩ := hr.joint ha hL hp
  have hb0 := hr.layout.ne_zero hb
  by_cases hy : L b = []
  · refine ⟨h,?_,hr.congr fun x _ => ?_⟩
    · simp [Clist.lSplice, hb0, hr.mem ha hpm, ((hr.ring b hb).next_eq_iff (hr.layout.nodup b hb)).2 hy]
    · rw [hy,List.append_nil,← hL]
      by_cases hxa : x = a
      · rw [hxa,update_self]
      · rw [update_of_ne hxa]
        by_cases hxb : x = b
        · rw [hxb,update_self,hy]
        · rw [update_of_ne hxb]
  · obtain ⟨y,e,hyh,hye,e1,e2,hy0,he0,hyb,-⟩ := hr.ends hb hy
    refine ⟨(((((h.setPrev y p).setNext p y).setNext e z).setPrev z e).setPrev b b).setNext b b,?_,?_⟩
    · simp [Clist.lSplice, hb0, hr.mem ha hpm, hr.mem ha hzm, hy0, he0, e1, e2, h1, hyb]
    · refine hr.transfer ha hb hab hL rfl hy hp hz hyh hye (fun x => ?_) fun x => ?_
      · simp [setNext_next]
      · simp [setPrev_prev]

theorem Rings.lAppend (hr : Rings h A L) (ha : a ∈ A) (hb : b ∈ A) (hab : a ≠ b) :
    ∃ g, Clist.lAppend h a b = some g ∧ Rings g A (update (update L b []) a (L a ++ L b)) := by
  have hp := (hr.ring a ha).prev_head
  obtain ⟨g,he,hr'⟩ := hr.lSplice (s := L a) (t := []) ha hb hab (by simp) hp.symm
  rw [List.append_nil] at hr'
  exact ⟨g,by rw [Clist.lAppend,if_neg (hr.layout.ne_zero ha),he],hr'⟩

theorem Rings.lMove_empty (hr : Rings h A L) (ha : a ∈ A) (hb : b ∈ A) (hab : a ≠ b) (hL : L a = []) (hy : L b ≠ []) :
    ∃ g, Clist.lMove h a b = some g ∧ Rings g A (update (update L b []) a (L b)) := by
  obtain ⟨y,e,hyh,hye,e1,e2,hy0,he0,hyb,-⟩ := hr.ends hb hy
  have hya : y ≠ a := fun he => hr.layout.apart b hb a ha hab.symm y (List.mem_cons_of_mem _ (hyh ▸ List.head_mem hy))
    (he ▸ List.mem_cons_self)
  refine ⟨(((((h.setNext a y).setPrev a e).setPrev y a).setNext e a).setPrev b b).setNext b b,?_,?_⟩
  · simp [Clist.lMove, hr.layout.ne_zero ha, hr.layout.ne_zero hb, setNext_next, setPrev_prev, e1, e2, hy0, he0, hab.symm, hyb.symm]
  · have ht := hr.transfer (s := []) (t := []) (p := a) (z := a)
      (g := (((((h.setNext a y).setPrev a e).setPrev y a).setNext e a).setPrev b b).setNext b b) ha hb hab hL rfl hy rfl rfl hyh hye
      (fun x => by simp [setNext_next]) fun x => ?_
    · simpa using ht
    · by_cases hxa : x = a
      · simp [setPrev_prev, hxa, hya.symm]
      · simp [setPrev_prev, hxa]

theorem lMove_reset (hab : a ≠ b) : Clist.lMove ((h.setPrev a a).setNext a a) a b = Clist.lMove h a b := by
  have hn : ∀ v, ((h.setPrev a a).setNext a a).setNext a v = (h.setPrev a a).setNext a v := fun v => by simp [Links.setNext]
  have hp : ∀ u v, ((h.setPrev a a).setNext a u).setPrev a v = (h.setNext a u).setPrev a v := fun u v => by simp [Links.setNext, Links.setPrev]
  simp only [Clist.lMove, hn, hp, setNext_prev, setPrev_next, setNext_next, setPrev_prev, hab.symm, if_false]

theorem Rings.lMove (hr : Rings h A L) (ha : a ∈ A) (hb : b ∈ A) (hab : a ≠ b) (hy : L b ≠ []) :
    ∃ g, Clist.lMove h a b = some g ∧ Rings g A (update (update L b []) a (L b)) := by
  have hLb : update L a [] b = L b := update_of_ne hab.symm _ _
  obtain ⟨g,e,r⟩ := (hr.emptied ha).lMove_empty ha hb hab (update_self _ _ _) (by rwa [hLb])
  rw [lMove_reset hab] at e
  rw [hLb] at r
  refine ⟨g,e,r.congr fun c _ => ?_⟩
  simp only [update_apply]
  grind

end Catlib.Clist
