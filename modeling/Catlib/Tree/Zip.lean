import Catlib.Tree.Linked

/-! # Heap trees through a zipper

`Zip h root c t` says that the heap holds the tree `plug c t` under the sentinel
`root`, every child pointing back at its slot. Moving the focus costs nothing; the
relinking rules replace the focus and frame the path.
-/
namespace Catlib.Linked

variable {δ κ : Type*} {h h' : Heap δ κ} {root : Addr} {c : Spine δ} {t t' : LTree δ} {s s' : Addr × Dir}

/-- The heap holds the tree, hanging from the slot `s`. -/
def Holds (h : Heap δ κ) : LTree δ → Addr × Dir → Prop
  | .nil, _ => True
  | .node l a d r, s => (h a).pP = s.1 ∧ (h a).pdir = s.2 ∧ (h a).dat = d ∧
      (h a).pL = l.ptr ∧ (h a).pR = r.ptr ∧ Holds h l (a,.L) ∧ Holds h r (a,.R)

/-- The heap holds the path up to the sentinel, the innermost slot holding `p`. -/
def Above (h : Heap δ κ) (root : Addr) : Spine δ → Addr → Prop
  | [], p => (h root).pP = p
  | .inL a d r :: c, p => (h a).pP = (slot root c).1 ∧ (h a).pdir = (slot root c).2 ∧ (h a).dat = d ∧
      (h a).pL = p ∧ (h a).pR = r.ptr ∧ Holds h r (a,.R) ∧ Above h root c a
  | .inR l a d :: c, p => (h a).pP = (slot root c).1 ∧ (h a).pdir = (slot root c).2 ∧ (h a).dat = d ∧
      (h a).pL = l.ptr ∧ (h a).pR = p ∧ Holds h l (a,.L) ∧ Above h root c a

/-- The heap holds `plug c t` under `root`, with the focus at `t`. -/
structure Zip (h : Heap δ κ) (root : Addr) (c : Spine δ) (t : LTree δ) : Prop where
  above : Above h root c t.ptr
  sub : Holds h t (slot root c)
  distinct : (0 :: root :: (plug c t).addrs).Nodup

/-! ## Framing -/

theorem Holds.congr (hs : Holds h t s) (he : ∀ x ∈ t.addrs, h' x = h x) : Holds h' t s := by
  induction t generalizing s with
  | nil => trivial
  | node l a d r ihl ihr =>
    obtain ⟨h1,h2,h3,h4,h5,hl,hr⟩ := hs
    have ha : h' a = h a := he a (by simp)
    refine ⟨by rw [ha,h1],by rw [ha,h2],by rw [ha,h3],by rw [ha,h4],by rw [ha,h5],ihl hl ?_,ihr hr ?_⟩
    · intro x hx
      exact he x (by simp [hx])
    · intro x hx
      exact he x (by simp [hx])

theorem Holds.rehang (hs : Holds h t s) (hn : t.addrs.Nodup)
    (hr : t.ptr ≠ 0 → h' t.ptr = (h t.ptr).hang s') (hz : 0 ∉ t.addrs)
    (he : ∀ x ∈ t.addrs, x ≠ t.ptr → h' x = h x) : Holds h' t s' := by
  cases t with
  | nil => trivial
  | node l a d r =>
    obtain ⟨h1,h2,h3,h4,h5,hl,hr'⟩ := hs
    have ha0 : a ≠ 0 := by rintro rfl; simp at hz
    have ha : h' a = (h a).hang s' := hr ha0
    simp only [LTree.addrs_node, List.nodup_append, List.nodup_cons] at hn
    refine ⟨by simp [ha, Node.hang],by simp [ha, Node.hang],by simp [ha, Node.hang, h3],
      by simp [ha, Node.hang, h4],by simp [ha, Node.hang, h5],hl.congr ?_,hr'.congr ?_⟩
    · intro x hx
      exact he x (by simp [hx]) (fun hxa => hn.2.2 x hx a (by simp) hxa)
    · intro x hx
      refine he x (by simp [hx]) ?_
      rintro rfl
      exact hn.2.1.1 hx

theorem Above.congr {p : Addr} (ha : Above h root c p)
    (he : ∀ x, x = root ∨ x ∈ lefts c ∨ x ∈ rights c → h' x = h x) : Above h' root c p := by
  induction c generalizing p with
  | nil => simpa [Above, he root (Or.inl rfl)] using ha
  | cons f c ih =>
    cases f with
    | inL a d r =>
      obtain ⟨h1,h2,h3,h4,h5,hr,hc⟩ := ha
      have hea : h' a = h a := he a (by simp [rights])
      refine ⟨by rw [hea,h1],by rw [hea,h2],by rw [hea,h3],by rw [hea,h4],by rw [hea,h5],
        hr.congr (fun x hx => he x (by simp [rights, hx])),ih hc ?_⟩
      intro x hx
      apply he
      simp only [lefts, rights, List.mem_append, List.mem_cons]
      tauto
    | inR l a d =>
      obtain ⟨h1,h2,h3,h4,h5,hl,hc⟩ := ha
      have hea : h' a = h a := he a (by simp [lefts])
      refine ⟨by rw [hea,h1],by rw [hea,h2],by rw [hea,h3],by rw [hea,h4],by rw [hea,h5],
        hl.congr (fun x hx => he x (by simp [lefts, hx])),ih hc ?_⟩
      intro x hx
      apply he
      simp only [lefts, rights, List.mem_append]
      tauto

theorem Above.reslot {p p' : Addr} (ha : Above h root c p)
    (hn : (root :: (lefts c ++ rights c)).Nodup)
    (hs : h' (slot root c).1 = (h (slot root c).1).setP (slot root c).2 p')
    (he : ∀ x, x = root ∨ x ∈ lefts c ∨ x ∈ rights c → x ≠ (slot root c).1 → h' x = h x) :
    Above h' root c p' := by
  cases c with
  | nil => simp_all [Above]
  | cons f c =>
    cases f with
    | inL a d r =>
      obtain ⟨h1,h2,h3,h4,h5,hr,hc⟩ := ha
      simp only [slot_inL, Node.setP_L] at hs he
      simp only [lefts, rights, List.nodup_cons, List.nodup_append, List.mem_append, List.mem_cons,
        List.cons_append] at hn
      refine ⟨by simp [hs, h1],by simp [hs, h2],by simp [hs, h3],by simp [hs],by simp [hs, h5],
        hr.congr (fun x hx => he x (by simp [rights, hx]) ?_),hc.congr (fun x hx => he x ?_ ?_)⟩
      · rintro rfl
        exact hn.2.2.1.1 (Or.inl hx)
      · simp only [lefts, rights, List.mem_append, List.mem_cons]
        tauto
      · grind
    | inR l a d =>
      obtain ⟨h1,h2,h3,h4,h5,hl,hc⟩ := ha
      simp only [slot_inR, Node.setP_R] at hs he
      simp only [lefts, rights, List.nodup_cons, List.nodup_append, List.mem_append, List.mem_cons] at hn
      refine ⟨by simp [hs, h1],by simp [hs, h2],by simp [hs, h3],by simp [hs, h4],by simp [hs],
        hl.congr (fun x hx => he x (by simp [lefts, hx]) ?_),hc.congr (fun x hx => he x ?_ ?_)⟩
      · grind
      · simp only [lefts, rights, List.mem_append]
        tauto
      · grind

/-! ## Moving the focus -/

theorem zip_inL {a : Addr} {d : δ} {r : LTree δ} :
    Zip h root (.inL a d r :: c) t ↔ Zip h root c (.node t a d r) := by
  constructor
  · rintro ⟨⟨h1,h2,h3,h4,h5,hr,hc⟩,hs,hd⟩
    exact ⟨hc,⟨h1,h2,h3,h4,h5,hs,hr⟩,hd⟩
  · rintro ⟨hc,⟨h1,h2,h3,h4,h5,hs,hr⟩,hd⟩
    exact ⟨⟨h1,h2,h3,h4,h5,hr,hc⟩,hs,hd⟩

theorem zip_inR {l : LTree δ} {a : Addr} {d : δ} :
    Zip h root (.inR l a d :: c) t ↔ Zip h root c (.node l a d t) := by
  constructor
  · rintro ⟨⟨h1,h2,h3,h4,h5,hl,hc⟩,hs,hd⟩
    exact ⟨hc,⟨h1,h2,h3,h4,h5,hl,hs⟩,hd⟩
  · rintro ⟨hc,⟨h1,h2,h3,h4,h5,hl,hs⟩,hd⟩
    exact ⟨⟨h1,h2,h3,h4,h5,hl,hc⟩,hs,hd⟩

theorem zip_cons {f : Frame δ} : Zip h root (f :: c) t ↔ Zip h root c (f.fill t) := by
  cases f with
  | inL a d r => exact zip_inL
  | inR l a d => exact zip_inR

theorem zip_plug {c' : Spine δ} : Zip h root (c' ++ c) t ↔ Zip h root c (plug c' t) := by
  induction c' generalizing t with
  | nil => rfl
  | cons f c' ih => rw [List.cons_append,zip_cons,ih,plug_cons]

theorem zip_top : Zip h root c t ↔ Zip h root [] (plug c t) := by
  have hp : Zip h root (c ++ []) t ↔ Zip h root [] (plug c t) := zip_plug
  rwa [List.append_nil] at hp

/-! ## What a zipper lets a program read -/

theorem Zip.ne_zero {x : Addr} (hz : Zip h root c t) (hx : x ∈ (plug c t).addrs) : x ≠ 0 := by
  rintro rfl
  have := hz.distinct
  simp_all

theorem Zip.ne_root {x : Addr} (hz : Zip h root c t) (hx : x ∈ (plug c t).addrs) : x ≠ root := by
  rintro rfl
  have := hz.distinct
  simp_all

theorem Zip.root_ne_zero (hz : Zip h root c t) : root ≠ 0 := by
  rintro rfl
  have := hz.distinct
  simp_all

theorem Zip.slot_ne_zero (hz : Zip h root c t) : (slot root c).1 ≠ 0 := by
  cases c with
  | nil => exact hz.root_ne_zero
  | cons f c =>
    apply hz.ne_zero
    cases f <;> simp [addrs_plug]

theorem Zip.focus_mem {x : Addr} (hx : x ∈ t.addrs) : x ∈ (plug c t).addrs := by
  simp [addrs_plug, hx]

theorem Zip.slot_notin (hz : Zip h root c t) : (slot root c).1 ∉ t.addrs := by
  intro hm
  cases c with
  | nil => exact hz.ne_root (Zip.focus_mem hm) rfl
  | cons f c =>
    have hd := hz.distinct
    cases f <;> simp [addrs_plug, List.nodup_append] at hd hm <;> grind

theorem Zip.path_distinct (hz : Zip h root c t) : (root :: (lefts c ++ rights c)).Nodup := by
  have hd := hz.distinct
  simp only [addrs_plug, List.nodup_cons, List.mem_cons, List.mem_append, List.nodup_append] at hd ⊢
  grind

theorem Zip.focus_distinct (hz : Zip h root c t) : t.addrs.Nodup := by
  have hd := hz.distinct
  simp only [addrs_plug, List.nodup_cons, List.nodup_append] at hd
  exact hd.2.2.1.2.1

theorem Zip.root_slot (hz : Zip h root [] t) : (h root).pP = t.ptr := hz.above

theorem Zip.path_nil_iff (hz : Zip h root c t) : (slot root c).2 = .P ↔ c = [] := by
  cases c with
  | nil => simp
  | cons f c => cases f <;> simp

/-! ## Replacing the focus -/

theorem Zip.replace (hz : Zip h root c t) (hsub : Holds h' t' (slot root c))
    (hslot : h' (slot root c).1 = (h (slot root c).1).setP (slot root c).2 t'.ptr)
    (hout : ∀ x, x = root ∨ x ∈ lefts c ∨ x ∈ rights c → x ≠ (slot root c).1 → h' x = h x)
    (hd : (0 :: root :: (plug c t').addrs).Nodup) : Zip h' root c t' :=
  ⟨hz.above.reslot hz.path_distinct hslot hout,hsub,hd⟩

theorem slot_on_path (root : Addr) (c : Spine δ) :
    (slot root c).1 = root ∨ (slot root c).1 ∈ lefts c ∨ (slot root c).1 ∈ rights c := by
  cases c with
  | nil => simp
  | cons f c => cases f <;> simp [lefts, rights]

theorem Above.store {p : Addr} (ha : Above h root c p) (hsub : Holds h t' s)
    (hd : (0 :: root :: (plug c t').addrs).Nodup) :
    ∃ h', fix h (slot root c).1 t'.ptr (slot root c).2 = some h' ∧ Zip h' root c t' ∧
      ∀ S, (slot root c).1 ∈ S → (t'.ptr ≠ 0 → t'.ptr ∈ S) → Keeps h h' S := by
  have hslot := slot_on_path root c
  have hd' := hd
  simp only [addrs_plug, List.nodup_cons, List.mem_cons, List.mem_append, List.nodup_append] at hd'
  have hnot : (slot root c).1 ∉ t'.addrs := by grind
  have hs0 : (slot root c).1 ≠ 0 := by grind
  have hne : (slot root c).1 ≠ t'.ptr := by
    intro he
    exact hnot (he ▸ LTree.ptr_mem (he ▸ hs0))
  obtain ⟨h',hf,hp,hc,ho⟩ := fix_spec h _ _ _ hs0 (slot_dir_ne root c) hne
  have hmem : ∀ x, x ∈ t'.addrs → x ≠ (slot root c).1 := fun x hx he => hnot (he ▸ hx)
  have hptr : ∀ x, x = root ∨ x ∈ lefts c ∨ x ∈ rights c → x ≠ t'.ptr := by
    intro x hx he
    have hx0 : x ≠ 0 := by grind
    have := LTree.ptr_mem (he ▸ hx0)
    grind
  refine ⟨h',hf,⟨ha.reslot ?_ hp (fun x hx hxs => ho x hxs (hptr x hx)),?_,hd⟩,fun S => fix_keeps hf⟩
  · simp only [List.nodup_cons, List.mem_append, List.nodup_append]
    grind
  · exact hsub.rehang (by grind) hc (by grind) (fun x hx hxp => ho x (hmem x hx) hxp)

theorem Zip.slot_mem (root : Addr) (c : Spine δ) (t : LTree δ) : (slot root c).1 ∈ root :: (plug c t).addrs := by
  cases c with
  | nil => simp
  | cons f c => cases f <;> simp [addrs_plug]

/-! ## Single nodes -/

theorem setDat_keeps {a : Addr} {d : δ} {S : List Addr} (ha : a ∈ S) : Keeps h (setDat h a d) S := by
  have hk : Keeps h (setDat h a d) [a] := Keeps.put rfl rfl
  exact hk.mono (by simpa using ha)

theorem Zip.setDat {l r : LTree δ} {a : Addr} {d : δ} (d' : δ) (hz : Zip h root c (.node l a d r)) :
    Zip (setDat h a d') root c (.node l a d' r) := by
  obtain ⟨h1,h2,h3,h4,h5,hl,hr⟩ := hz.sub
  have hd := hz.distinct
  have ho : ∀ x, x ≠ a → Linked.setDat h a d' x = h x := fun x hx => Heap.put_of_ne hx
  simp only [addrs_plug, LTree.addrs_node, List.nodup_cons, List.mem_cons, List.mem_append,
    List.nodup_append] at hd
  have ha : Linked.setDat h a d' a = { h a with dat := d' } := Heap.put_self ..
  refine ⟨hz.above.congr (fun x hx => ho x (by grind)),⟨by rw [ha,← h1],by rw [ha,← h2],by rw [ha],
    by rw [ha,← h4],by rw [ha,← h5],hl.congr (fun x hx => ho x (by grind)),
    hr.congr (fun x hx => ho x (by grind))⟩,?_⟩
  simpa [addrs_plug] using hz.distinct

theorem Zip.overwrite {l r : LTree δ} {a : Addr} {d : δ} {h₀ : Heap δ κ} {xs : List Addr} (d' : δ)
    (hz : Zip h root c (.node l a d r)) (hxs : (plug c (.node l a d r)).addrs = xs)
    (hk : Keeps h₀ h (root :: xs)) :
    Zip (Linked.setDat h a d') root c (.node l a d' r) ∧ (plug c (.node l a d' r)).addrs = xs ∧
      Keeps h₀ (Linked.setDat h a d') (root :: xs) := by
  refine ⟨hz.setDat d',by rw [← hxs]; simp [addrs_plug],hk.trans (setDat_keeps ?_)⟩
  rw [← hxs]
  exact List.mem_cons_of_mem _ (Zip.focus_mem (by simp))

theorem Zip.attach {n : Addr} (hz : Zip h root c .nil) (hn : n ∉ 0 :: root :: (plug c .nil).addrs)
    (hl : (h n).pL = 0) (hr : (h n).pR = 0) :
    ∃ h', fix h (slot root c).1 n (slot root c).2 = some h' ∧
      Zip h' root c (.node .nil n (h n).dat .nil) ∧
      Keeps h h' (root :: n :: (plug c (.nil : LTree δ)).addrs) := by
  have hd := hz.distinct
  have hs : Holds h (.node .nil n (h n).dat .nil) ((h n).pP,(h n).pdir) := by simp [Holds, hl, hr]
  have hd' : (0 :: root :: (plug c (.node .nil n (h n).dat .nil)).addrs).Nodup := by
    simp only [addrs_plug, List.nodup_cons, List.mem_cons, List.mem_append, List.nodup_append,
      LTree.addrs_node, LTree.addrs_nil, List.not_mem_nil] at hd hn ⊢
    grind
  obtain ⟨h',hf,hz',hk⟩ := hz.above.store hs hd'
  refine ⟨h',hf,hz',hk _ ?_ (by simp)⟩
  have := Zip.slot_mem root c (.nil : LTree δ)
  simp only [List.mem_cons] at this ⊢
  exact this.imp_right Or.inr

theorem Zip.hoist (hz : Zip h root c t) (hs : Holds h t' s) (ht : t'.addrs.Sublist t.addrs) :
    ∃ h', fix h (slot root c).1 t'.ptr (slot root c).2 = some h' ∧ Zip h' root c t' ∧
      Keeps h h' (root :: (plug c t).addrs) ∧ ∀ x ∈ t.addrs, x ∉ t'.addrs → h' x = h x := by
  have hd' : (0 :: root :: (plug c t').addrs).Nodup := by
    refine hz.distinct.sublist ?_
    rw [addrs_plug,addrs_plug]
    exact ((((List.Sublist.refl _).append ht).append (List.Sublist.refl _)).cons_cons _).cons_cons _
  obtain ⟨h',hf,hz',hk⟩ := hz.above.store hs hd'
  refine ⟨h',hf,hz',hk _ (Zip.slot_mem root c t) (fun h0 => ?_),fun x hx hx' => ?_⟩
  · exact List.mem_cons_of_mem _ (Zip.focus_mem (ht.subset (LTree.ptr_mem h0)))
  · refine (hk [(slot root c).1,t'.ptr] (by simp) (by simp)).out x ?_
    have hx0 : x ≠ 0 := hz.ne_zero (Zip.focus_mem hx)
    simp only [List.mem_cons, List.not_mem_nil, or_false, not_or]
    refine ⟨fun he => hz.slot_notin (he ▸ hx),fun he => hx' (he ▸ LTree.ptr_mem (he ▸ hx0))⟩

theorem Holds.adopt {l r : LTree δ} {n : Addr} (hl : Holds h l s) (hr : Holds h r s')
    (hd : (0 :: n :: (l.addrs ++ r.addrs)).Nodup) :
    ∃ h1 h2, fix h n l.ptr .L = some h1 ∧ fix h1 n r.ptr .R = some h2 ∧
      Holds h2 (.node l n (h n).dat r) ((h n).pP,(h n).pdir) ∧
      (∀ x, x ≠ n → x ≠ l.ptr → h1 x = h x) ∧ (∀ x, x ≠ n → x ≠ l.ptr → x ≠ r.ptr → h2 x = h x) ∧
      ∀ S, n ∈ S → (∀ x, x ∈ l.addrs ∨ x ∈ r.addrs → x ∈ S) → Keeps h h2 S := by
  simp only [List.nodup_cons, List.mem_cons, List.mem_append, List.nodup_append, not_or] at hd
  obtain ⟨⟨hn0,hl0,hr0⟩,⟨hnl,hnr⟩,hld,hrd,hlr⟩ := hd
  have hlp : l.ptr ≠ 0 → l.ptr ∈ l.addrs := LTree.ptr_mem
  have hrp : r.ptr ≠ 0 → r.ptr ∈ r.addrs := LTree.ptr_mem
  have hnl' : n ≠ l.ptr := by grind
  have hnr' : n ≠ r.ptr := by grind
  have hlr' : l.ptr ≠ 0 → l.ptr ≠ r.ptr := fun h0 he => hlr _ (hlp h0) _ (hrp (he ▸ h0)) he
  obtain ⟨h1,hf1,hp1,hc1,ho1⟩ := fix_spec h _ _ .L (Ne.symm hn0) (by simp) hnl'
  obtain ⟨h2,hf2,hp2,hc2,ho2⟩ := fix_spec h1 _ _ .R (Ne.symm hn0) (by simp) hnr'
  have hout : ∀ x, x ≠ n → x ≠ l.ptr → x ≠ r.ptr → h2 x = h x := by
    intro x hx hxl hxr
    rw [ho2 x hx hxr,ho1 x hx hxl]
  have hnode : h2 n = { h n with pL := l.ptr, pR := r.ptr } := by
    rw [hp2,hp1]
    rfl
  refine ⟨h1,h2,hf1,hf2,⟨by simp [hnode],by simp [hnode],by simp [hnode],by simp [hnode],by simp [hnode],
    hl.rehang hld ?_ hl0 ?_,hr.rehang hrd ?_ hr0 ?_⟩,ho1,hout,?_⟩
  · intro h0
    rw [ho2 _ (Ne.symm hnl') (hlr' h0),hc1 h0]
  · intro x hx hxp
    exact hout x (by rintro rfl; exact hnl hx) hxp
      (fun he => hlr x hx _ (hrp (by rintro h0; exact hl0 (h0 ▸ he ▸ hx))) he)
  · intro h0
    rw [hc2 h0,ho1 _ (Ne.symm hnr')]
    exact fun he => hlr' (by rw [← he]; exact h0) he.symm
  · intro x hx hxp
    exact hout x (by rintro rfl; exact hnr hx)
      (fun he => hlr _ (hlp (by rintro h0; exact hr0 (h0 ▸ he ▸ hx))) x hx he.symm) hxp
  · intro S hn hS
    exact (fix_keeps hf1 hn (fun h0 => hS _ (Or.inl (hlp h0)))).trans
      (fix_keeps hf2 hn (fun h0 => hS _ (Or.inr (hrp h0))))

theorem Holds.graft {l r : LTree δ} {x : Addr} {e : δ} (hs : Holds h (.node l x e .nil) s)
    (hr : Holds h r s') (hd : (0 :: (l.addrs ++ x :: r.addrs)).Nodup) :
    ∃ h', fix h x r.ptr .R = some h' ∧ Holds h' (.node l x e r) s ∧
      (∀ y, y ≠ x → y ≠ r.ptr → h' y = h y) ∧
      ∀ S, x ∈ S → (∀ y ∈ r.addrs, y ∈ S) → Keeps h h' S := by
  obtain ⟨h1,h2,h3,h4,-,hl,-⟩ := hs
  simp only [List.nodup_cons, List.mem_cons, List.mem_append, List.nodup_append, not_or] at hd
  obtain ⟨⟨hl0,hx0,hr0⟩,hld,⟨hxr,hrd⟩,hlx⟩ := hd
  have hrp : r.ptr ≠ 0 → r.ptr ∈ r.addrs := LTree.ptr_mem
  have hne : x ≠ r.ptr := by grind
  obtain ⟨h',hf,hp,hc,ho⟩ := fix_spec h _ _ .R (Ne.symm hx0) (by simp) hne
  refine ⟨h',hf,⟨by simp [hp, h1],by simp [hp, h2],by simp [hp, h3],by simp [hp, h4],by simp [hp],
    hl.congr (fun y hy => ho y ?_ ?_),hr.rehang hrd hc hr0 (fun y hy hyp => ho y ?_ hyp)⟩,ho,fun S hx hS =>
    fix_keeps hf hx (fun h0 => hS _ (hrp h0))⟩
  · exact hlx y hy x (Or.inl rfl)
  · exact fun he => hlx y hy _ (Or.inr (hrp (by rintro h0; exact hl0 (h0 ▸ he ▸ hy)))) he
  · rintro rfl
    exact hxr hy

theorem Zip.transplant {l r : LTree δ} {a n : Addr} {d : δ} (hz : Zip h root c (.node l a d r))
    (hn : n ∉ 0 :: root :: (plug c (.node l a d r)).addrs) :
    ∃ h1 h2 h3, fix h n l.ptr .L = some h1 ∧ fix h1 n r.ptr .R = some h2 ∧
      fix h2 (slot root c).1 n (slot root c).2 = some h3 ∧ Zip h3 root c (.node l n (h n).dat r) ∧
      h1 a = h a ∧ h2 a = h a ∧ h3 a = h a ∧ Keeps h h3 (root :: n :: (plug c (.node l a d r)).addrs) := by
  obtain ⟨-,-,-,-,-,hl,hr⟩ := hz.sub
  have hd := hz.distinct
  simp only [addrs_plug, LTree.addrs_node, List.nodup_cons, List.mem_cons, List.mem_append,
    List.nodup_append, not_or] at hd hn
  have hlp : l.ptr ≠ 0 → l.ptr ∈ l.addrs := LTree.ptr_mem
  have hrp : r.ptr ≠ 0 → r.ptr ∈ r.addrs := LTree.ptr_mem
  obtain ⟨h1,h2,hf1,hf2,hs,ho1,ho2,hk⟩ := Holds.adopt (n := n) hl hr (by
    simp only [List.nodup_cons, List.mem_cons, List.mem_append, List.nodup_append]
    grind)
  have hpath : ∀ x, x = root ∨ x ∈ lefts c ∨ x ∈ rights c → h2 x = h x := by
    intro x hx
    have hx0 : x ≠ 0 := by grind
    exact ho2 x (by grind) (by grind) (by grind)
  have hd' : (0 :: root :: (plug c (.node l n (h n).dat r)).addrs).Nodup := by
    simp only [addrs_plug, LTree.addrs_node, List.nodup_cons, List.mem_cons, List.mem_append,
      List.nodup_append]
    grind
  obtain ⟨h3,hf3,hz3,hk3⟩ := (hz.above.congr hpath).store hs hd'
  have ha0 : a ≠ 0 := by grind
  have hmem : ∀ x, x ∈ l.addrs ∨ x ∈ r.addrs → x ∈ root :: n :: (plug c (.node l a d r)).addrs := by
    intro x hx
    simp only [List.mem_cons, addrs_plug, LTree.addrs_node, List.mem_append]
    rcases hx with hx | hx <;> simp only [hx,true_or,or_true]
  have h2a : h2 a = h a := ho2 a (by grind) (by grind) (by grind)
  have hsl := hz.slot_notin
  simp only [LTree.addrs_node, List.mem_append, List.mem_cons, not_or] at hsl
  have h3a : h3 a = h2 a := (hk3 [(slot root c).1,n] (by simp) (by simp)).out a (by
    simp only [List.mem_cons, List.not_mem_nil, or_false, not_or]
    exact ⟨Ne.symm hsl.2.1,by grind⟩)
  refine ⟨h1,h2,h3,hf1,hf2,hf3,hz3,ho1 a (by grind) (by grind),h2a,h3a.trans h2a,
    (hk _ (by simp) hmem).trans (hk3 _ ?_ (by simp))⟩
  have := Zip.slot_mem root c (.node l a d r)
  simp only [List.mem_cons] at this ⊢
  exact this.imp_right Or.inr

theorem Zip.congr (hz : Zip h root c t) (he : ∀ x ∈ root :: (plug c t).addrs, h' x = h x) :
    Zip h' root c t := by
  refine ⟨hz.above.congr (fun x hx => he x ?_),hz.sub.congr (fun x hx => he x ?_),hz.distinct⟩
  · simp only [addrs_plug, List.mem_cons, List.mem_append]
    tauto
  · exact List.mem_cons_of_mem _ (Zip.focus_mem hx)

theorem Zip.setTree (a v : Addr) (hz : Zip h root c t) : Zip (setTree h a v) root c t := by
  have he : ∀ x, (Linked.setTree h a v x).pL = (h x).pL ∧ (Linked.setTree h a v x).pP = (h x).pP ∧
      (Linked.setTree h a v x).pR = (h x).pR ∧ (Linked.setTree h a v x).pdir = (h x).pdir ∧
      (Linked.setTree h a v x).dat = (h x).dat := by
    intro x
    by_cases hx : x = a
    · subst hx; simp [Linked.setTree]
    · simp [Linked.setTree, Heap.put_of_ne hx]
  have hsub : ∀ {t : LTree δ} {s : Addr × Dir}, Holds h t s → Holds (Linked.setTree h a v) t s := by
    intro t
    induction t with
    | nil => exact fun _ => trivial
    | node l b d r ihl ihr =>
      rintro s ⟨h1,h2,h3,h4,h5,hl,hr⟩
      obtain ⟨e1,e2,e3,e4,e5⟩ := he b
      exact ⟨by rw [e2,h1],by rw [e4,h2],by rw [e5,h3],by rw [e1,h4],by rw [e3,h5],ihl hl,ihr hr⟩
  have habove : ∀ {c : Spine δ} {p : Addr}, Above h root c p → Above (Linked.setTree h a v) root c p := by
    intro c
    induction c with
    | nil => intro p hp; simpa [Above, (he root).2.1] using hp
    | cons f c ih =>
      cases f with
      | inL b d r =>
        rintro p ⟨h1,h2,h3,h4,h5,hr,hc⟩
        obtain ⟨e1,e2,e3,e4,e5⟩ := he b
        exact ⟨by rw [e2,h1],by rw [e4,h2],by rw [e5,h3],by rw [e1,h4],by rw [e3,h5],hsub hr,ih hc⟩
      | inR l b d =>
        rintro p ⟨h1,h2,h3,h4,h5,hl,hc⟩
        obtain ⟨e1,e2,e3,e4,e5⟩ := he b
        exact ⟨by rw [e2,h1],by rw [e4,h2],by rw [e5,h3],by rw [e1,h4],by rw [e3,h5],hsub hl,ih hc⟩
  exact ⟨habove hz.above,hsub hz.sub,hz.distinct⟩

theorem plug_ptr_mem (hc : c ≠ []) (t : LTree δ) : (plug c t).ptr ∈ lefts c ∨ (plug c t).ptr ∈ rights c := by
  induction c generalizing t with
  | nil => exact absurd rfl hc
  | cons f c ih =>
    by_cases hc' : c = []
    · subst hc'
      cases f <;> simp [lefts, rights]
    · have := ih hc' (f.fill t)
      cases f <;> simp only [plug_cons, lefts, rights, List.mem_append, List.mem_cons,
        List.cons_append] at this ⊢ <;> tauto

theorem Zip.root_link (hz : Zip h root c t) : (h root).pP = (plug c t).ptr := (zip_top.mp hz).above

theorem Zip.root_link_eq_iff (hz : Zip h root c t) (ht : t ≠ .nil) : (h root).pP = t.ptr ↔ c = [] := by
  constructor
  · intro he
    by_contra hc
    have hm := plug_ptr_mem hc t
    rw [← hz.root_link,he] at hm
    have htm : t.ptr ∈ t.addrs := by
      cases t with
      | nil => exact absurd rfl ht
      | node l a d r => simp
    have hd := hz.distinct
    simp only [addrs_plug, List.nodup_cons, List.nodup_append, List.mem_append] at hd
    grind
  · rintro rfl
    exact hz.above

end Catlib.Linked

/-! # Mirror images

Exchanging left and right everywhere turns a heap tree into a heap tree and a relinking
step into the opposite step. The datum may be mapped on the way, as a balance is negated.
-/
namespace Catlib.Linked

variable {δ κ : Type*} {h h' : Heap δ κ} {root : Addr} {c : Spine δ} {t : LTree δ} {f : δ → δ}

def Dir.flip : Dir → Dir
  | .L => .R
  | .P => .P
  | .R => .L
  | .N => .N

def Node.flip (f : δ → δ) (n : Node δ κ) : Node δ κ :=
  { n with pL := n.pR, pR := n.pL, pdir := n.pdir.flip, dat := f n.dat }

def Heap.flip (f : δ → δ) (h : Heap δ κ) : Heap δ κ := fun a => (h a).flip f

def LTree.flip (f : δ → δ) : LTree δ → LTree δ
  | .nil => .nil
  | .node l a d r => .node (r.flip f) a (f d) (l.flip f)

def Frame.flip (f : δ → δ) : Frame δ → Frame δ
  | .inL a d r => .inR (r.flip f) a (f d)
  | .inR l a d => .inL a (f d) (l.flip f)

@[simp] theorem Dir.flip_flip (d : Dir) : d.flip.flip = d := by cases d <;> rfl

theorem Heap.flip_flip (hf : f.Involutive) (h : Heap δ κ) : (h.flip f).flip f = h := by
  funext a
  simp [Heap.flip, Node.flip, hf (h a).dat]

theorem LTree.flip_flip (hf : f.Involutive) (t : LTree δ) : (t.flip f).flip f = t := by
  induction t with
  | nil => rfl
  | node l a d r ihl ihr => simp [LTree.flip, ihl, ihr, hf d]

theorem Frame.flip_flip (hf : f.Involutive) (g : Frame δ) : (g.flip f).flip f = g := by
  cases g <;> simp [Frame.flip, LTree.flip_flip hf, hf _]

theorem flip_flip_spine (hf : f.Involutive) (c : Spine δ) : (c.map (Frame.flip f)).map (Frame.flip f) = c := by
  simp [Function.comp_def, Frame.flip_flip hf]

@[simp] theorem LTree.ptr_flip (t : LTree δ) : (t.flip f).ptr = t.ptr := by cases t <;> rfl

@[simp] theorem LTree.addrs_flip (t : LTree δ) : (t.flip f).addrs = t.addrs.reverse := by
  induction t with
  | nil => rfl
  | node l a d r ihl ihr => simp [LTree.flip, ihl, ihr]

theorem plug_flip (c : Spine δ) (t : LTree δ) : plug (c.map (Frame.flip f)) (t.flip f) = (plug c t).flip f := by
  induction c generalizing t with
  | nil => rfl
  | cons g c ih =>
    cases g with
    | inL a d r => exact ih (.node t a d r)
    | inR l a d => exact ih (.node l a d t)

theorem slot_flip (root : Addr) (c : Spine δ) :
    slot root (c.map (Frame.flip f)) = ((slot root c).1,(slot root c).2.flip) := by
  cases c with
  | nil => rfl
  | cons g c => cases g <;> rfl

/-! ## Relinking -/

theorem Node.flip_setP (n : Node δ κ) (d : Dir) (a : Addr) : (n.setP d a).flip f = (n.flip f).setP d.flip a := by
  cases d <;> rfl

theorem Heap.flip_put (h : Heap δ κ) (a : Addr) (n : Node δ κ) : (h.put a n).flip f = (h.flip f).put a (n.flip f) := by
  funext x
  by_cases hx : x = a
  · subst hx; simp [Heap.flip]
  · simp [Heap.flip, Heap.put_of_ne hx]

theorem fix_flip (h : Heap δ κ) (par cld : Addr) (d : Dir) :
    fix (h.flip f) par cld d.flip = (fix h par cld d).map (Heap.flip f) := by
  have hd : d.flip = .N ↔ d = .N := by cases d <;> simp [Dir.flip]
  have hput : (h.flip f).put par (((h.flip f) par).setP d.flip cld) = (h.put par ((h par).setP d cld)).flip f := by
    rw [Heap.flip_put,Node.flip_setP]
    rfl
  simp only [fix, hd, hput]
  split
  · rfl
  · split
    · rfl
    · rw [Option.map_some,Heap.flip_put (h.put par _)]
      rfl

theorem fix_bind_flip {g g' : Heap δ κ → Option (Heap δ κ)} {d d' : Dir} (h : Heap δ κ) (par cld : Addr)
    (hd : d' = d.flip) (hg : ∀ h, g' (h.flip f) = (g h).map (Heap.flip f)) :
    (fix (h.flip f) par cld d').bind g' = ((fix h par cld d).bind g).map (Heap.flip f) := by
  rw [hd,fix_flip]
  cases fix h par cld d with
  | none => rfl
  | some h' => exact hg h'

theorem rotR_flip (h : Heap δ κ) (n : Addr) : rotR (h.flip f) n = (rotL h n).map (Heap.flip f) := by
  have hn : (h.flip f n).pL = (h n).pR := rfl
  simp only [rotR, rotL, hn]
  split
  · rfl
  · refine fix_bind_flip h n _ rfl (fun h1 => ?_)
    exact fix_bind_flip h1 _ _ rfl (fun h2 => fix_flip h2 _ _ .L)

theorem zigR_flip (h : Heap δ κ) (n1 n2 n3 : Addr) :
    zigR (h.flip f) n1 n2 n3 = (zigL h n1 n2 n3).map (Heap.flip f) := by
  simp only [zigR, zigL]
  split
  · rfl
  · refine fix_bind_flip h _ _ rfl (fun h1 => fix_bind_flip h1 _ _ rfl (fun h2 => ?_))
    refine fix_bind_flip h2 _ _ rfl (fun h3 => fix_bind_flip h3 _ _ rfl (fun h4 => ?_))
    exact fix_flip h4 _ _ .R

theorem zagR_flip (h : Heap δ κ) (n1 n2 n3 : Addr) :
    zagR (h.flip f) n1 n2 n3 = (zagL h n1 n2 n3).map (Heap.flip f) := by
  simp only [zagR, zagL]
  split
  · rfl
  · refine fix_bind_flip h _ _ rfl (fun h1 => fix_bind_flip h1 _ _ rfl (fun h2 => ?_))
    refine fix_bind_flip h2 _ _ rfl (fun h3 => fix_bind_flip h3 _ _ rfl (fun h4 => ?_))
    exact fix_flip h4 _ _ .L

/-! ## Zippers -/

theorem Holds.flip {s : Addr × Dir} (hs : Holds h t s) : Holds (h.flip f) (t.flip f) (s.1,s.2.flip) := by
  induction t generalizing s with
  | nil => trivial
  | node l a d r ihl ihr =>
    obtain ⟨h1,h2,h3,h4,h5,hl,hr⟩ := hs
    exact ⟨h1,by rw [← h2]; rfl,by rw [← h3]; rfl,by rw [LTree.ptr_flip,← h5]; rfl,
      by rw [LTree.ptr_flip,← h4]; rfl,ihr hr,ihl hl⟩

theorem Above.flip {p : Addr} (ha : Above h root c p) : Above (h.flip f) root (c.map (Frame.flip f)) p := by
  induction c generalizing p with
  | nil => exact ha
  | cons g c ih =>
    cases g with
    | inL a d r =>
      obtain ⟨h1,h2,h3,h4,h5,hr,hc⟩ := ha
      refine ⟨?_,?_,by rw [← h3]; rfl,by rw [LTree.ptr_flip,← h5]; rfl,h4,hr.flip,ih hc⟩
      · rw [slot_flip]; exact h1
      · rw [slot_flip,← h2]; rfl
    | inR l a d =>
      obtain ⟨h1,h2,h3,h4,h5,hl,hc⟩ := ha
      refine ⟨?_,?_,by rw [← h3]; rfl,h5,by rw [LTree.ptr_flip,← h4]; rfl,hl.flip,ih hc⟩
      · rw [slot_flip]; exact h1
      · rw [slot_flip,← h2]; rfl

theorem Zip.flip (hz : Zip h root c t) : Zip (h.flip f) root (c.map (Frame.flip f)) (t.flip f) := by
  refine ⟨?_,?_,?_⟩
  · rw [LTree.ptr_flip]
    exact hz.above.flip
  · rw [slot_flip]
    exact hz.sub.flip
  · rw [plug_flip,LTree.addrs_flip]
    simpa using hz.distinct

theorem Keeps.flip {S S' : List Addr} (hk : Keeps h h' S) (hS : ∀ x ∈ S, x ∈ S') :
    Keeps (h.flip f) (h'.flip f) S' :=
  ⟨fun x hx => by rw [Heap.flip,Heap.flip,hk.out x (fun hm => hx (hS x hm))],hk.key,hk.tree⟩

end Catlib.Linked
