import Catlib.Tree.Zip

/-! # Rotations through a zipper

Single and double rotations at the focus. The links that change are those of two or
three nodes, of one or two inner subtrees, and of the slot; the order of the tree does not.
-/
namespace Catlib.Linked

variable {δ κ : Type*} {h h' : Heap δ κ} {root : Addr} {c : Spine δ} {t : LTree δ}

theorem Zip.rotL {A B C : LTree δ} {n x : Addr} {d e : δ}
    (hz : Zip h root c (.node A n d (.node B x e C))) :
    ∃ h', rotL h n = some h' ∧ Zip h' root c (.node (.node A n d B) x e C) ∧
      Keeps h h' (root :: (plug c (.node A n d (.node B x e C))).addrs) := by
  obtain ⟨hn1,hn2,hn3,hn4,hn5,hA,hx1,hx2,hx3,hx4,hx5,hB,hC⟩ := hz.sub
  have hd := hz.focus_distinct
  have hsl := hz.slot_notin
  have h0 : ∀ y ∈ (LTree.node A n d (.node B x e C)).addrs, y ≠ 0 := fun y hy => hz.ne_zero (Zip.focus_mem hy)
  simp only [LTree.addrs_node, LTree.ptr_node, List.nodup_append, List.nodup_cons, List.mem_append,
    List.mem_cons, not_or] at hd hsl hn5 h0
  have hBp : B.ptr ≠ 0 → B.ptr ∈ B.addrs := LTree.ptr_mem
  have hn0 : n ≠ 0 := by grind
  have hx0 : x ≠ 0 := by grind
  obtain ⟨h1,hf1,hp1,hc1,ho1⟩ := fix_spec h n B.ptr .R hn0 (by simp) (by grind)
  have hP : (h1 n).pP = (slot root c).1 := by simp [hp1, hn1]
  have hD : (h1 n).pdir = (slot root c).2 := by simp [hp1, hn2]
  obtain ⟨h2,hf2,hp2,hc2,ho2⟩ := fix_spec h1 (slot root c).1 x (slot root c).2
    hz.slot_ne_zero (slot_dir_ne root c) (by grind)
  obtain ⟨h3,hf3,hp3,hc3,ho3⟩ := fix_spec h2 x n .L hx0 (by simp) (by grind)
  have hnode : h3 n = { h n with pR := B.ptr, pP := x, pdir := .L } := by
    rw [hc3 hn0,ho2 n (by grind) (by grind),hp1]
    rfl
  have hxnode : h3 x = { h x with pL := n, pP := (slot root c).1, pdir := (slot root c).2 } := by
    rw [hp3,hc2 hx0,ho1 x (by grind) (by grind)]
    rfl
  have hslot : h3 (slot root c).1 = (h (slot root c).1).setP (slot root c).2 x := by
    rw [ho3 _ (by grind) (by grind),hp2,ho1 _ (by grind) (by grind [hz.slot_ne_zero])]
  have hroot : B.ptr ≠ 0 → h3 B.ptr = (h B.ptr).hang (n,.R) := by
    intro h0
    rw [ho3 _ (by grind) (by grind),ho2 _ (by grind) (by grind),hc1 h0]
  have hout : ∀ y, y ≠ n → y ≠ x → y ≠ B.ptr → y ≠ (slot root c).1 → h3 y = h y := by
    intro y hyn hyx hyB hys
    rw [ho3 y hyx hyn,ho2 y hys hyx,ho1 y hyn hyB]
  have hmem : ∀ y ∈ (LTree.node A n d (.node B x e C)).addrs,
      y ∈ root :: (plug c (.node A n d (.node B x e C))).addrs :=
    fun y hy => List.mem_cons_of_mem _ (Zip.focus_mem hy)
  have hsm := Zip.slot_mem root c (.node A n d (.node B x e C))
  refine ⟨h3,?_,hz.replace ?_ hslot ?_ ?_,((fix_keeps hf1 ?_ ?_).trans (fix_keeps hf2 hsm ?_)).trans
    (fix_keeps hf3 ?_ ?_)⟩
  · simp [Linked.rotL, hn0, hn5, hx0, hx4, hf1, hP, hD, hf2, hf3]
  · refine ⟨by simp [hxnode],by simp [hxnode],by simp [hxnode, hx3],by simp [hxnode],by simp [hxnode, hx5],
      ⟨by simp [hnode],by simp [hnode],by simp [hnode, hn3],by simp [hnode, hn4],by simp [hnode],?_,?_⟩,?_⟩
    · exact hA.congr (fun y hy => hout y (by grind) (by grind) (by grind) (by grind))
    · exact hB.rehang (by grind) hroot (by grind)
        (fun y hy hyp => hout y (by grind) (by grind) hyp (by grind))
    · exact hC.congr (fun y hy => hout y (by grind) (by grind) (by grind) (by grind))
  · intro y hy hys
    have hy' := hz.distinct
    simp only [addrs_plug, List.nodup_cons, List.mem_cons, List.mem_append, List.nodup_append, LTree.addrs_node] at hy'
    exact hout y (by grind) (by grind) (by grind) hys
  · simpa [addrs_plug] using hz.distinct
  · exact hmem n (by simp)
  · exact fun hb => hmem _ (by simp [hBp hb])
  · exact fun _ => hmem x (by simp)
  · exact hmem x (by simp)
  · exact fun _ => hmem n (by simp)

theorem Zip.zigL {A B C D : LTree δ} {n x y : Addr} {d e f : δ}
    (hz : Zip h root c (.node A n d (.node (.node B y f C) x e D))) :
    ∃ h', zigL h n x y = some h' ∧ Zip h' root c (.node (.node A n d B) y f (.node C x e D)) ∧
      Keeps h h' (root :: (plug c (.node A n d (.node (.node B y f C) x e D))).addrs) := by
  obtain ⟨hn1,hn2,hn3,hn4,hn5,hA,hx1,hx2,hx3,hx4,hx5,⟨hy1,hy2,hy3,hy4,hy5,hB,hC⟩,hD⟩ := hz.sub
  have hmem : ∀ z ∈ (LTree.node A n d (.node (.node B y f C) x e D)).addrs,
      z ∈ root :: (plug c (.node A n d (.node (.node B y f C) x e D))).addrs :=
    fun z hz' => List.mem_cons_of_mem _ (Zip.focus_mem hz')
  have hsm := Zip.slot_mem root c (.node A n d (.node (.node B y f C) x e D))
  have hs0 := hz.slot_ne_zero
  have hd := hz.distinct
  have hsl := hz.slot_notin
  have hon := slot_on_path root c
  simp only [addrs_plug, LTree.addrs_node, LTree.ptr_node, List.nodup_append, List.nodup_cons, List.mem_append,
    List.mem_cons, not_or] at hd hsl hn5 hx4
  have hn0 : n ≠ 0 := by grind
  have hx0 : x ≠ 0 := by grind
  have hy0 : y ≠ 0 := by grind
  obtain ⟨hnx,hny,hxy⟩ : n ≠ x ∧ n ≠ y ∧ x ≠ y := by grind
  obtain ⟨hsn,hsx,hsy⟩ : (slot root c).1 ≠ n ∧ (slot root c).1 ≠ x ∧ (slot root c).1 ≠ y := by grind
  obtain ⟨⟨hnB,hxB,hyB⟩,hnC,hxC,hyC⟩ : (n ∉ B.addrs ∧ x ∉ B.addrs ∧ y ∉ B.addrs) ∧ n ∉ C.addrs ∧ x ∉ C.addrs ∧ y ∉ C.addrs := by
    grind
  have hAo : ∀ z ∈ A.addrs, z ≠ 0 ∧ z ≠ n ∧ z ≠ x ∧ z ≠ y ∧ z ≠ (slot root c).1 ∧ z ∉ B.addrs ∧ z ∉ C.addrs := by grind
  have hBo : ∀ z ∈ B.addrs, z ≠ 0 ∧ z ≠ n ∧ z ≠ x ∧ z ≠ y ∧ z ≠ (slot root c).1 ∧ z ∉ C.addrs := by grind
  have hCo : ∀ z ∈ C.addrs, z ≠ 0 ∧ z ≠ n ∧ z ≠ x ∧ z ≠ y ∧ z ≠ (slot root c).1 ∧ z ∉ B.addrs := by grind
  have hDo : ∀ z ∈ D.addrs, z ≠ 0 ∧ z ≠ n ∧ z ≠ x ∧ z ≠ y ∧ z ≠ (slot root c).1 ∧ z ∉ B.addrs ∧ z ∉ C.addrs := by grind
  have hPo : ∀ z, z = root ∨ z ∈ lefts c ∨ z ∈ rights c → z ≠ 0 ∧ z ≠ n ∧ z ≠ x ∧ z ≠ y ∧ z ∉ B.addrs ∧ z ∉ C.addrs := by
    grind
  have hBp : ∀ z, z ≠ 0 → z ∉ B.addrs → z ≠ B.ptr := fun z => LTree.ptr_ne
  have hCp : ∀ z, z ≠ 0 → z ∉ C.addrs → z ≠ C.ptr := fun z => LTree.ptr_ne
  have hBm : B.ptr ≠ 0 → B.ptr ∈ B.addrs := LTree.ptr_mem
  have hCm : C.ptr ≠ 0 → C.ptr ∈ C.addrs := LTree.ptr_mem
  obtain ⟨-,-,-,-,hsB,hsC⟩ := hPo _ hon
  obtain ⟨h1,hf1,hp1,hc1,ho1⟩ := fix_spec h x C.ptr .L hx0 (by simp) (hCp x hx0 hxC)
  have hL : (h1 y).pL = B.ptr := by rw [ho1 y hxy.symm (hCp y hy0 hyC),hy4]
  obtain ⟨h2,hf2,hp2,hc2,ho2⟩ := fix_spec h1 n B.ptr .R hn0 (by simp) (hBp n hn0 hnB)
  have hN : h1 n = h n := ho1 n hnx (hCp n hn0 hnC)
  have hP : (h2 n).pP = (slot root c).1 := by simp [hp2, hN, hn1]
  have hDr : (h2 n).pdir = (slot root c).2 := by simp [hp2, hN, hn2]
  obtain ⟨h3,hf3,hp3,hc3,ho3⟩ := fix_spec h2 (slot root c).1 y (slot root c).2 hs0 (slot_dir_ne root c) hsy
  obtain ⟨h4,hf4,hp4,hc4,ho4⟩ := fix_spec h3 y n .L hy0 (by simp) hny.symm
  obtain ⟨h5,hf5,hp5,hc5,ho5⟩ := fix_spec h4 y x .R hy0 (by simp) hxy.symm
  have hnode : h5 n = { h n with pR := B.ptr, pP := y, pdir := .L } := by
    rw [ho5 n hny hnx,hc4 hn0,ho3 n hsn.symm hny,hp2,hN]
    rfl
  have hxnode : h5 x = { h x with pL := C.ptr, pP := y, pdir := .R } := by
    rw [hc5 hx0,ho4 x hxy hnx.symm,ho3 x hsx.symm hxy,ho2 x hnx.symm (hBp x hx0 hxB),hp1]
    rfl
  have hynode : h5 y = { h y with pL := n, pR := x, pP := (slot root c).1, pdir := (slot root c).2 } := by
    rw [hp5,hp4,hc3 hy0,ho2 y hny.symm (hBp y hy0 hyB),ho1 y hxy.symm (hCp y hy0 hyC)]
    rfl
  have hslot : h5 (slot root c).1 = (h (slot root c).1).setP (slot root c).2 y := by
    rw [ho5 _ hsy hsx,ho4 _ hsy hsn,hp3,ho2 _ hsn (hBp _ hs0 hsB),ho1 _ hsx (hCp _ hs0 hsC)]
  have hout : ∀ z, z ≠ n ∧ z ≠ x ∧ z ≠ y → z ≠ (slot root c).1 → z ≠ B.ptr → z ≠ C.ptr → h5 z = h z := by
    rintro z ⟨zn,zx,zy⟩ zs zB zC
    rw [ho5 z zy zx,ho4 z zy zn,ho3 z zs zy,ho2 z zn zB,ho1 z zx zC]
  have hBroot : B.ptr ≠ 0 → h5 B.ptr = (h B.ptr).hang (n,.R) := by
    intro hb
    obtain ⟨-,zn,zx,zy,zs,zC⟩ := hBo _ (hBm hb)
    rw [ho5 _ zy zx,ho4 _ zy zn,ho3 _ zs zy,hc2 hb,ho1 _ zx (hCp _ hb zC)]
  have hCroot : C.ptr ≠ 0 → h5 C.ptr = (h C.ptr).hang (x,.L) := by
    intro hc
    obtain ⟨-,zn,zx,zy,zs,zB⟩ := hCo _ (hCm hc)
    rw [ho5 _ zy zx,ho4 _ zy zn,ho3 _ zs zy,ho2 _ zn (hBp _ hc zB),hc1 hc]
  refine ⟨h5,?_,hz.replace ?_ hslot ?_ ?_,((((fix_keeps hf1 ?_ ?_).trans (fix_keeps hf2 ?_ ?_)).trans
    (fix_keeps hf3 hsm ?_)).trans (fix_keeps hf4 ?_ ?_)).trans (fix_keeps hf5 ?_ ?_)⟩
  · simp [Linked.zigL, hn0, hx0, hy0, hy5, hf1, hL, hf2, hP, hDr, hf3, hf4, hf5]
  · refine ⟨by simp [hynode],by simp [hynode],by simp [hynode, hy3],by simp [hynode],by simp [hynode],
      ⟨by simp [hnode],by simp [hnode],by simp [hnode, hn3],by simp [hnode, hn4],by simp [hnode],?_,?_⟩,
      ⟨by simp [hxnode],by simp [hxnode],by simp [hxnode, hx3],by simp [hxnode],by simp [hxnode, hx5],?_,?_⟩⟩
    · refine hA.congr (fun z hz' => ?_)
      obtain ⟨z0,zn,zx,zy,zs,zB,zC⟩ := hAo z hz'
      exact hout z ⟨zn,zx,zy⟩ zs (hBp z z0 zB) (hCp z z0 zC)
    · refine hB.rehang (by grind) hBroot (fun h0 => (hBo 0 h0).1 rfl) (fun z hz' hzp => ?_)
      obtain ⟨z0,zn,zx,zy,zs,zC⟩ := hBo z hz'
      exact hout z ⟨zn,zx,zy⟩ zs hzp (hCp z z0 zC)
    · refine hC.rehang (by grind) hCroot (fun h0 => (hCo 0 h0).1 rfl) (fun z hz' hzp => ?_)
      obtain ⟨z0,zn,zx,zy,zs,zB⟩ := hCo z hz'
      exact hout z ⟨zn,zx,zy⟩ zs (hBp z z0 zB) hzp
    · refine hD.congr (fun z hz' => ?_)
      obtain ⟨z0,zn,zx,zy,zs,zB,zC⟩ := hDo z hz'
      exact hout z ⟨zn,zx,zy⟩ zs (hBp z z0 zB) (hCp z z0 zC)
  · intro z hz' hzs
    obtain ⟨z0,zn,zx,zy,zB,zC⟩ := hPo z hz'
    exact hout z ⟨zn,zx,zy⟩ hzs (hBp z z0 zB) (hCp z z0 zC)
  · simpa [addrs_plug] using hz.distinct
  · exact hmem x (by simp)
  · exact fun hc => hmem _ (by simp [hCm hc])
  · exact hmem n (by simp)
  · exact fun hb => hmem _ (by simp [hBm hb])
  · exact fun _ => hmem y (by simp)
  · exact hmem y (by simp)
  · exact fun _ => hmem n (by simp)
  · exact hmem y (by simp)
  · exact fun _ => hmem x (by simp)
theorem Zip.zagL {A B C D : LTree δ} {n x y : Addr} {d e f : δ}
    (hz : Zip h root c (.node A n d (.node B x e (.node C y f D)))) :
    ∃ h', zagL h n x y = some h' ∧ Zip h' root c (.node (.node (.node A n d B) x e C) y f D) ∧
      Keeps h h' (root :: (plug c (.node A n d (.node B x e (.node C y f D)))).addrs) := by
  obtain ⟨hn1,hn2,hn3,hn4,hn5,hA,hx1,hx2,hx3,hx4,hx5,hB,hy1,hy2,hy3,hy4,hy5,hC,hD⟩ := hz.sub
  have hmem : ∀ z ∈ (LTree.node A n d (.node B x e (.node C y f D))).addrs,
      z ∈ root :: (plug c (.node A n d (.node B x e (.node C y f D)))).addrs :=
    fun z hz' => List.mem_cons_of_mem _ (Zip.focus_mem hz')
  have hsm := Zip.slot_mem root c (.node A n d (.node B x e (.node C y f D)))
  have hs0 := hz.slot_ne_zero
  have hd := hz.distinct
  have hsl := hz.slot_notin
  have hon := slot_on_path root c
  simp only [addrs_plug, LTree.addrs_node, LTree.ptr_node, List.nodup_append, List.nodup_cons, List.mem_append,
    List.mem_cons, not_or] at hd hsl hn5 hx5
  have hn0 : n ≠ 0 := by grind
  have hx0 : x ≠ 0 := by grind
  have hy0 : y ≠ 0 := by grind
  obtain ⟨hnx,hny,hxy⟩ : n ≠ x ∧ n ≠ y ∧ x ≠ y := by grind
  obtain ⟨hsn,hsx,hsy⟩ : (slot root c).1 ≠ n ∧ (slot root c).1 ≠ x ∧ (slot root c).1 ≠ y := by grind
  obtain ⟨⟨hnB,hxB,hyB⟩,hnC,hxC,hyC⟩ : (n ∉ B.addrs ∧ x ∉ B.addrs ∧ y ∉ B.addrs) ∧ n ∉ C.addrs ∧ x ∉ C.addrs ∧ y ∉ C.addrs := by
    grind
  have hAo : ∀ z ∈ A.addrs, z ≠ 0 ∧ z ≠ n ∧ z ≠ x ∧ z ≠ y ∧ z ≠ (slot root c).1 ∧ z ∉ B.addrs ∧ z ∉ C.addrs := by grind
  have hBo : ∀ z ∈ B.addrs, z ≠ 0 ∧ z ≠ n ∧ z ≠ x ∧ z ≠ y ∧ z ≠ (slot root c).1 ∧ z ∉ C.addrs := by grind
  have hCo : ∀ z ∈ C.addrs, z ≠ 0 ∧ z ≠ n ∧ z ≠ x ∧ z ≠ y ∧ z ≠ (slot root c).1 ∧ z ∉ B.addrs := by grind
  have hDo : ∀ z ∈ D.addrs, z ≠ 0 ∧ z ≠ n ∧ z ≠ x ∧ z ≠ y ∧ z ≠ (slot root c).1 ∧ z ∉ B.addrs ∧ z ∉ C.addrs := by grind
  have hPo : ∀ z, z = root ∨ z ∈ lefts c ∨ z ∈ rights c → z ≠ 0 ∧ z ≠ n ∧ z ≠ x ∧ z ≠ y ∧ z ∉ B.addrs ∧ z ∉ C.addrs := by
    grind
  have hBp : ∀ z, z ≠ 0 → z ∉ B.addrs → z ≠ B.ptr := fun z => LTree.ptr_ne
  have hCp : ∀ z, z ≠ 0 → z ∉ C.addrs → z ≠ C.ptr := fun z => LTree.ptr_ne
  have hBm : B.ptr ≠ 0 → B.ptr ∈ B.addrs := LTree.ptr_mem
  have hCm : C.ptr ≠ 0 → C.ptr ∈ C.addrs := LTree.ptr_mem
  obtain ⟨-,-,-,-,hsB,hsC⟩ := hPo _ hon
  obtain ⟨h1,hf1,hp1,hc1,ho1⟩ := fix_spec h n B.ptr .R hn0 (by simp) (hBp n hn0 hnB)
  have hL : (h1 y).pL = C.ptr := by rw [ho1 y hny.symm (hBp y hy0 hyB),hy4]
  obtain ⟨h2,hf2,hp2,hc2,ho2⟩ := fix_spec h1 x C.ptr .R hx0 (by simp) (hCp x hx0 hxC)
  have hN : h2 n = h1 n := ho2 n hnx (hCp n hn0 hnC)
  have hP : (h2 n).pP = (slot root c).1 := by simp [hp1, hN, hn1]
  have hDr : (h2 n).pdir = (slot root c).2 := by simp [hp1, hN, hn2]
  obtain ⟨h3,hf3,hp3,hc3,ho3⟩ := fix_spec h2 (slot root c).1 y (slot root c).2 hs0 (slot_dir_ne root c) hsy
  obtain ⟨h4,hf4,hp4,hc4,ho4⟩ := fix_spec h3 y x .L hy0 (by simp) hxy.symm
  obtain ⟨h5,hf5,hp5,hc5,ho5⟩ := fix_spec h4 x n .L hx0 (by simp) hnx.symm
  have hnode : h5 n = { h n with pR := B.ptr, pP := x, pdir := .L } := by
    rw [hc5 hn0,ho4 n hny hnx,ho3 n hsn.symm hny,hN,hp1]
    rfl
  have hxnode : h5 x = { h x with pL := n, pR := C.ptr, pP := y, pdir := .L } := by
    rw [hp5,hc4 hx0,ho3 x hsx.symm hxy,hp2,ho1 x hnx.symm (hBp x hx0 hxB)]
    rfl
  have hynode : h5 y = { h y with pL := x, pP := (slot root c).1, pdir := (slot root c).2 } := by
    rw [ho5 y hxy.symm hny.symm,hp4,hc3 hy0,ho2 y hxy.symm (hCp y hy0 hyC),ho1 y hny.symm (hBp y hy0 hyB)]
    rfl
  have hslot : h5 (slot root c).1 = (h (slot root c).1).setP (slot root c).2 y := by
    rw [ho5 _ hsx hsn,ho4 _ hsy hsx,hp3,ho2 _ hsx (hCp _ hs0 hsC),ho1 _ hsn (hBp _ hs0 hsB)]
  have hout : ∀ z, z ≠ n ∧ z ≠ x ∧ z ≠ y → z ≠ (slot root c).1 → z ≠ B.ptr → z ≠ C.ptr → h5 z = h z := by
    rintro z ⟨zn,zx,zy⟩ zs zB zC
    rw [ho5 z zx zn,ho4 z zy zx,ho3 z zs zy,ho2 z zx zC,ho1 z zn zB]
  have hBroot : B.ptr ≠ 0 → h5 B.ptr = (h B.ptr).hang (n,.R) := by
    intro hb
    obtain ⟨-,zn,zx,zy,zs,zC⟩ := hBo _ (hBm hb)
    rw [ho5 _ zx zn,ho4 _ zy zx,ho3 _ zs zy,ho2 _ zx (hCp _ hb zC),hc1 hb]
  have hCroot : C.ptr ≠ 0 → h5 C.ptr = (h C.ptr).hang (x,.R) := by
    intro hc
    obtain ⟨-,zn,zx,zy,zs,zB⟩ := hCo _ (hCm hc)
    rw [ho5 _ zx zn,ho4 _ zy zx,ho3 _ zs zy,hc2 hc,ho1 _ zn (hBp _ hc zB)]
  refine ⟨h5,?_,hz.replace ?_ hslot ?_ ?_,((((fix_keeps hf1 ?_ ?_).trans (fix_keeps hf2 ?_ ?_)).trans
    (fix_keeps hf3 hsm ?_)).trans (fix_keeps hf4 ?_ ?_)).trans (fix_keeps hf5 ?_ ?_)⟩
  · simp [Linked.zagL, hn0, hx0, hy0, hx4, hf1, hL, hf2, hP, hDr, hf3, hf4, hf5]
  · refine ⟨by simp [hynode],by simp [hynode],by simp [hynode, hy3],by simp [hynode],by simp [hynode, hy5],
      ⟨by simp [hxnode],by simp [hxnode],by simp [hxnode, hx3],by simp [hxnode],by simp [hxnode],
        ⟨by simp [hnode],by simp [hnode],by simp [hnode, hn3],by simp [hnode, hn4],by simp [hnode],?_,?_⟩,?_⟩,?_⟩
    · refine hA.congr (fun z hz' => ?_)
      obtain ⟨z0,zn,zx,zy,zs,zB,zC⟩ := hAo z hz'
      exact hout z ⟨zn,zx,zy⟩ zs (hBp z z0 zB) (hCp z z0 zC)
    · refine hB.rehang (by grind) hBroot (fun h0 => (hBo 0 h0).1 rfl) (fun z hz' hzp => ?_)
      obtain ⟨z0,zn,zx,zy,zs,zC⟩ := hBo z hz'
      exact hout z ⟨zn,zx,zy⟩ zs hzp (hCp z z0 zC)
    · refine hC.rehang (by grind) hCroot (fun h0 => (hCo 0 h0).1 rfl) (fun z hz' hzp => ?_)
      obtain ⟨z0,zn,zx,zy,zs,zB⟩ := hCo z hz'
      exact hout z ⟨zn,zx,zy⟩ zs (hBp z z0 zB) hzp
    · refine hD.congr (fun z hz' => ?_)
      obtain ⟨z0,zn,zx,zy,zs,zB,zC⟩ := hDo z hz'
      exact hout z ⟨zn,zx,zy⟩ zs (hBp z z0 zB) (hCp z z0 zC)
  · intro z hz' hzs
    obtain ⟨z0,zn,zx,zy,zB,zC⟩ := hPo z hz'
    exact hout z ⟨zn,zx,zy⟩ hzs (hBp z z0 zB) (hCp z z0 zC)
  · simpa [addrs_plug] using hz.distinct
  · exact hmem n (by simp)
  · exact fun hb => hmem _ (by simp [hBm hb])
  · exact hmem x (by simp)
  · exact fun hc => hmem _ (by simp [hCm hc])
  · exact fun _ => hmem y (by simp)
  · exact hmem y (by simp)
  · exact fun _ => hmem x (by simp)
  · exact hmem x (by simp)
  · exact fun _ => hmem n (by simp)

theorem fix_comm (h : Heap δ κ) {p c p' c' : Addr} {d d' : Dir} (hd : d ≠ .P) (hd' : d' ≠ .P)
    (hpd : p ≠ p' ∨ d ≠ d') (hc : c = 0 ∨ c ≠ c') :
    (fix h p c d).bind (fun h => fix h p' c' d') = (fix h p' c' d').bind (fun h => fix h p c d) := by
  have heq : ∀ (h : Heap δ κ) p c d, fix h p c d = if p = 0 ∨ d = .N then none else
      some (fun x => let n := if x = p then (h x).setP d c else h x
        if c ≠ 0 ∧ x = c then n.hang (p,d) else n) := by
    intro h p c d
    unfold fix
    split
    · rfl
    · by_cases hc : c = 0
      · simp only [hc, if_true, ne_eq, not_true_eq_false, false_and, if_false, Option.some.injEq]
        funext x
        by_cases hx : x = p
        · subst hx; simp
        · simp [Heap.put_of_ne hx, hx]
      · simp only [hc, if_false, ne_eq, not_false_eq_true, true_and, Option.some.injEq]
        funext x
        by_cases hx : x = c
        · subst hx
          by_cases hxp : x = p
          · subst hxp; simp
          · simp [Heap.put_of_ne hxp, hxp]
        · by_cases hxp : x = p
          · subst hxp; simp [Heap.put_of_ne hx, hx]
          · simp [Heap.put_of_ne hx, Heap.put_of_ne hxp, hx, hxp]
  by_cases h1 : p = 0 ∨ d = .N
  · by_cases h2 : p' = 0 ∨ d' = .N
    · simp [heq, h1, h2]
    · simp [heq, h1, h2]
  · by_cases h2 : p' = 0 ∨ d' = .N
    · simp [heq, h1, h2]
    · simp only [heq, h1, h2, if_false, Option.bind_some, Option.some.injEq]
      funext x
      have hcases : ∀ e : Dir, e ≠ .P → e ≠ .N → e = .L ∨ e = .R := by rintro (_ | _ | _ | _) <;> simp
      rw [not_or] at h1 h2
      rcases hcases d hd h1.2 with rfl | rfl <;> rcases hcases d' hd' h2.2 with rfl | rfl <;>
        simp only [Node.hang, Node.setP_L, Node.setP_R] <;> grind

/-! ## The opposite rotations -/

theorem Zip.unflip (hz : Zip h root (c.map (Frame.flip id)) (t.flip id)) : Zip (h.flip id) root c t := by
  have := hz.flip (f := id)
  rwa [flip_flip_spine (fun _ => rfl),LTree.flip_flip (fun _ => rfl)] at this

theorem keeps_unflip (hk : Keeps (h.flip id) h' (root :: (plug (c.map (Frame.flip id)) (t.flip id)).addrs)) :
    Keeps h (h'.flip id) (root :: (plug c t).addrs) := by
  have hk' : Keeps ((h.flip id).flip id) (h'.flip id) (root :: (plug c t).addrs) := hk.flip (by simp [plug_flip])
  rwa [Heap.flip_flip (fun _ => rfl)] at hk'

theorem Zip.rotR {A B C : LTree δ} {n x : Addr} {d e : δ}
    (hz : Zip h root c (.node (.node A x e B) n d C)) :
    ∃ h', rotR h n = some h' ∧ Zip h' root c (.node A x e (.node B n d C)) ∧
      Keeps h h' (root :: (plug c (.node (.node A x e B) n d C)).addrs) := by
  obtain ⟨h',hr,hz',hk⟩ := (hz.flip (f := id)).rotL
  refine ⟨h'.flip id,?_,Zip.unflip hz',keeps_unflip hk⟩
  rw [← Heap.flip_flip (f := id) (fun _ => rfl) h,rotR_flip,hr]
  rfl

theorem Zip.zigR {A B C D : LTree δ} {n x y : Addr} {d e f : δ}
    (hz : Zip h root c (.node (.node D x e (.node C y f B)) n d A)) :
    ∃ h', zigR h n x y = some h' ∧ Zip h' root c (.node (.node D x e C) y f (.node B n d A)) ∧
      Keeps h h' (root :: (plug c (.node (.node D x e (.node C y f B)) n d A)).addrs) := by
  obtain ⟨h',hr,hz',hk⟩ := (hz.flip (f := id)).zigL
  refine ⟨h'.flip id,?_,Zip.unflip hz',keeps_unflip hk⟩
  rw [← Heap.flip_flip (f := id) (fun _ => rfl) h,zigR_flip,hr]
  rfl

theorem Zip.zagR {A B C D : LTree δ} {n x y : Addr} {d e f : δ}
    (hz : Zip h root c (.node (.node (.node D y f C) x e B) n d A)) :
    ∃ h', zagR h n x y = some h' ∧ Zip h' root c (.node D y f (.node C x e (.node B n d A))) ∧
      Keeps h h' (root :: (plug c (.node (.node (.node D y f C) x e B) n d A)).addrs) := by
  obtain ⟨h',hr,hz',hk⟩ := (hz.flip (f := id)).zagL
  refine ⟨h'.flip id,?_,Zip.unflip hz',keeps_unflip hk⟩
  rw [← Heap.flip_flip (f := id) (fun _ => rfl) h,zagR_flip,hr]
  rfl

end Catlib.Linked
