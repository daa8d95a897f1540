import Catlib.Tree.Avl
import Catlib.Tree.RedBlack
import Catlib.Tree.Splay

/-! # Applying a function to every node of a tree

`avl_apply`, `rb_apply` and `st_apply` are one loop. It keeps no stack: at every node
it knows from the direction it came from what is still to be done there. The function
works on a state of its own, since it may change anything but the tree.
-/
namespace Catlib.Linked

variable {δ κ γ σ : Type} {h : Heap δ κ} {root : Addr} {c : Spine δ} {t : LTree δ}

/-- One round of the `switch`; the direction a tree never stores falls through it. -/
def applyStep (h : Heap δ κ) (func : Addr → σ → σ) : σ × Addr × Dir → σ × Addr × Dir
  | (s,trav,dir) =>
    let up := (func trav s,(h trav).pP,(h trav).pdir)
    match dir with
    | .P =>
      if (h trav).pL ≠ 0 then (s,(h trav).pL,.P)
      else if (h trav).pR ≠ 0 then (s,(h trav).pR,.P)
      else up
    | .L => if (h trav).pR ≠ 0 then (s,(h trav).pR,.P) else up
    | .R => up
    | .N => (s,trav,dir)

/-- The test of the `do` loop, at the node that the round came to. -/
def applyTest (root : Addr) : σ × Addr × Dir → Turn (σ × Addr × Dir) σ
  | (s,trav,dir) => if trav = root then .leave s else .again (s,trav,dir)

def applyBody (h : Heap δ κ) (root : Addr) (func : Addr → σ → σ) (st : σ × Addr × Dir) : Option (Turn (σ × Addr × Dir) σ) := do
  let _ ← nonnull st.2.1
  return applyTest root (applyStep h func st)

/-- The common body of the three functions, from the state `s`. -/
def applyTree (h : Heap δ κ) (t : Addr) (func : Addr → γ → σ → σ) (ctx : γ) (fuel : ℕ) (s : σ) : Option σ :=
  if t = 0 then none
  else if (h t).pP = 0 then some s
  else loop (applyBody h t fun a => func a ctx) fuel (s,(h t).pP,.P)

def avlApply (h : Avl.AvlHeap κ) (t : Addr) (func : Addr → γ → σ → σ) (ctx : γ) (fuel : ℕ) (s : σ) : Option σ :=
  applyTree h t func ctx fuel s

def rbApply (h : RedBlack.RbHeap κ) (t : Addr) (func : Addr → γ → σ → σ) (ctx : γ) (fuel : ℕ) (s : σ) : Option σ :=
  applyTree h t func ctx fuel s

def stApply (h : Splay.StHeap κ) (t : Addr) (func : Addr → γ → σ → σ) (ctx : γ) (fuel : ℕ) (s : σ) : Option σ :=
  applyTree h t func ctx fuel s

/-! ## The order of the visits -/

/-- The addresses of a tree, each behind its left and then its right subtree. -/
def LTree.postorder : LTree δ → List Addr
  | .nil => []
  | .node l a _ r => l.postorder ++ (r.postorder ++ [a])

@[simp] theorem LTree.postorder_nil : (LTree.nil : LTree δ).postorder = [] := rfl
@[simp] theorem LTree.postorder_node (l : LTree δ) (a : Addr) (d : δ) (r : LTree δ) :
    (LTree.node l a d r).postorder = l.postorder ++ (r.postorder ++ [a]) := rfl

theorem LTree.postorder_perm (t : LTree δ) : t.postorder.Perm t.addrs := by
  induction t with
  | nil => exact .refl _
  | node l a d r ihl ihr =>
    exact ihl.append ((ihr.append_right [a]).trans (List.perm_append_singleton a r.addrs))

/-- Every node of the tree once, each right behind its subtrees, and the left one first. -/
structure Postorder (t : LTree δ) (vs : List Addr) : Prop where
  once : vs.Nodup
  all : ∀ a, a ∈ vs ↔ a ∈ t.addrs
  order : ∀ c l a d r, plug c (.node l a d r) = t →
    ∃ xs us ws ys, vs = xs ++ (us ++ (ws ++ a :: ys)) ∧ us.Perm l.addrs ∧ ws.Perm r.addrs

theorem postorder_plug (c : Spine δ) (t : LTree δ) : ∃ xs ys, (plug c t).postorder = xs ++ (t.postorder ++ ys) := by
  induction c generalizing t with
  | nil => exact ⟨[],[],by simp⟩
  | cons f c ih =>
    obtain ⟨xs,ys,hplug⟩ := ih (f.fill t)
    rw [plug_cons,hplug]
    cases f with
    | inL a d r => exact ⟨xs,r.postorder ++ ([a] ++ ys),by simp⟩
    | inR l a d => exact ⟨xs ++ l.postorder,a :: ys,by simp⟩

theorem LTree.postorder_spec (hd : t.addrs.Nodup) : Postorder t t.postorder := by
  refine ⟨t.postorder_perm.nodup_iff.mpr hd,fun a => t.postorder_perm.mem_iff,?_⟩
  rintro c l a d r rfl
  obtain ⟨xs,ys,hplug⟩ := postorder_plug c (.node l a d r)
  exact ⟨xs,l.postorder,r.postorder,ys,by simpa using hplug,l.postorder_perm,r.postorder_perm⟩

/-! ## The loop -/

/-- What the loop still does once a round has come to a node. -/
def applyRest (h : Heap δ κ) (root : Addr) (func : Addr → σ → σ) (k : ℕ) (st : σ × Addr × Dir) : Option σ :=
  if st.2.1 = root then some st.1 else loop (applyBody h root func) k st

theorem applyRest_of_ne {func : Addr → σ → σ} {k : ℕ} {s : σ} {a : Addr} {dir : Dir} (ha : a ≠ root) :
    applyRest h root func k (s,a,dir) = loop (applyBody h root func) k (s,a,dir) := if_neg ha

theorem loop_applyBody {func : Addr → σ → σ} {k : ℕ} {st : σ × Addr × Dir} (h0 : st.2.1 ≠ 0) :
    loop (applyBody h root func) (k + 1) st = applyRest h root func k (applyStep h func st) := by
  have hbody : applyBody h root func st = some (applyTest root (applyStep h func st)) := by
    rw [applyBody,nonnull_of_ne h0]
    exact Option.bind_some _ _
  generalize applyStep h func st = st' at hbody ⊢
  obtain ⟨s,trav,dir⟩ := st'
  by_cases hr : trav = root
  · rw [loop_leave (hbody.trans (congrArg some (if_pos hr))),applyRest,if_pos hr]
  · rw [loop_again (hbody.trans (congrArg some (if_neg hr))),applyRest,if_neg hr]

theorem apply_subtree (func : Addr → σ → σ) (hz : Zip h root c t) (ht : t ≠ .nil) (k : ℕ) (s : σ) :
    ∃ m, loop (applyBody h root func) m (s,t.ptr,.P) =
      applyRest h root func k (t.postorder.foldl (fun s a => func a s) s,slot root c) := by
  induction t generalizing c k s with
  | nil => exact absurd rfl ht
  | node l a d r ihl ihr =>
    obtain ⟨hP,hdir,-,hL,hR,-,-⟩ := hz.sub
    have ha0 : a ≠ 0 := hz.ne_zero (Zip.focus_mem (by simp))
    have har : a ≠ root := hz.ne_root (Zip.focus_mem (by simp))
    have hzl := zip_inL.mpr hz
    have hzr := zip_inR.mpr hz
    have hl0 : l.ptr = 0 ↔ l = .nil := LTree.ptr_eq_zero fun hm => hz.ne_zero (Zip.focus_mem (by simp [hm])) rfl
    have hr0 : r.ptr = 0 ↔ r = .nil := LTree.ptr_eq_zero fun hm => hz.ne_zero (Zip.focus_mem (by simp [hm])) rfl
    -- back from the right subtree only the node itself is left
    have hup : ∀ s, loop (applyBody h root func) (k + 1) (s,a,.R) = applyRest h root func k (func a s,slot root c) := by
      intro s
      rw [loop_applyBody ha0]
      simp only [applyStep, hP, hdir]
    have hright : ∀ s, ∃ m, applyRest h root func m (applyStep h func (s,a,.L)) =
        applyRest h root func k (func a (r.postorder.foldl (fun s a => func a s) s),slot root c) := by
      intro s
      by_cases hrn : r = .nil
      · refine ⟨k,?_⟩
        simp only [applyStep, hR, hrn, LTree.ptr_nil, ne_eq, not_true, if_false, hP, hdir, LTree.postorder_nil, List.foldl_nil]
      · obtain ⟨m,hm⟩ := ihr hzr hrn (k + 1) s
        refine ⟨m,?_⟩
        simp only [applyStep, hR, ne_eq, hr0, hrn, not_false_eq_true, if_true]
        rw [applyRest_of_ne (hzr.ne_root (Zip.focus_mem (LTree.ptr_mem (mt hr0.mp hrn)))),hm,slot_inR,applyRest_of_ne har,hup]
    have hfold : (LTree.node l a d r).postorder.foldl (fun s a => func a s) s =
        func a (r.postorder.foldl (fun s a => func a s) (l.postorder.foldl (fun s a => func a s) s)) := by
      simp only [LTree.postorder_node, List.foldl_append, List.foldl_cons, List.foldl_nil]
    rw [hfold,LTree.ptr_node]
    by_cases hln : l = .nil
    · -- without a left child the round is the one that follows the left subtree
      obtain ⟨m,hm⟩ := hright s
      have hstep : applyStep h func (s,a,.P) = applyStep h func (s,a,.L) := by
        simp only [applyStep, hL, hln, LTree.ptr_nil, ne_eq, not_true, if_false]
      exact ⟨m + 1,by rw [loop_applyBody ha0,hstep,hm,hln,LTree.postorder_nil,List.foldl_nil]⟩
    · obtain ⟨j,hj⟩ := hright (l.postorder.foldl (fun s a => func a s) s)
      obtain ⟨m,hm⟩ := ihl hzl hln (j + 1) s
      refine ⟨m + 1,?_⟩
      rw [loop_applyBody ha0]
      simp only [applyStep, hL, ne_eq, hl0, hln, not_false_eq_true, if_true]
      rw [applyRest_of_ne (hzl.ne_root (Zip.focus_mem (LTree.ptr_mem (mt hl0.mp hln)))),hm,slot_inL,applyRest_of_ne har,
        loop_applyBody ha0,hj]

theorem applyTree_spec (hz : Zip h root [] t) (func : Addr → γ → σ → σ) (ctx : γ) (s : σ) :
    ∃ fuel, applyTree h root func ctx fuel s = some (t.postorder.foldl (fun s a => func a ctx s) s) := by
  rcases eq_or_ne t .nil with rfl | ht
  · refine ⟨0,?_⟩
    rw [applyTree,if_neg hz.root_ne_zero,hz.root_slot]
    exact if_pos rfl
  · have hp : t.ptr ≠ 0 := mt (LTree.ptr_eq_zero fun hm => hz.ne_zero (Zip.focus_mem hm) rfl).mp ht
    obtain ⟨m,hm⟩ := apply_subtree (fun a => func a ctx) hz ht 0 s
    refine ⟨m,?_⟩
    rw [applyTree,if_neg hz.root_ne_zero,hz.root_slot,if_neg hp,hm]
    exact if_pos rfl

theorem applyTree_grows (h : Heap δ κ) (root : Addr) (func : Addr → γ → σ → σ) (ctx : γ) (s : σ) {k m : ℕ} (hkm : k ≤ m) :
    Grows (applyTree h root func ctx k s) (applyTree h root func ctx m s) :=
  Grows.ite (.refl _) (Grows.ite (.refl _) (loop_grows hkm _))

/-- Each of the three functions comes back and has visited every node of the tree once, behind
all its descendants. -/
theorem apply_postorder (func : Addr → γ → σ → σ) (ctx : γ) (s : σ) (root : Addr) :
    (∀ (h : Avl.AvlHeap κ) t, Zip h root [] t → Postorder t t.postorder ∧
      ∃ fuel, avlApply h root func ctx fuel s = some (t.postorder.foldl (fun s a => func a ctx s) s)) ∧
    (∀ (h : RedBlack.RbHeap κ) t, Zip h root [] t → Postorder t t.postorder ∧
      ∃ fuel, rbApply h root func ctx fuel s = some (t.postorder.foldl (fun s a => func a ctx s) s)) ∧
    ∀ (h : Splay.StHeap κ) t, Zip h root [] t → Postorder t t.postorder ∧
      ∃ fuel, stApply h root func ctx fuel s = some (t.postorder.foldl (fun s a => func a ctx s) s) :=
  ⟨fun _ _ hz => ⟨LTree.postorder_spec hz.focus_distinct,applyTree_spec hz func ctx s⟩,
    fun _ _ hz => ⟨LTree.postorder_spec hz.focus_distinct,applyTree_spec hz func ctx s⟩,
    fun _ _ hz => ⟨LTree.postorder_spec hz.focus_distinct,applyTree_spec hz func ctx s⟩⟩

/-- A root at 2 with a left child at 1, whose right child is at 3; the sentinel is at 9. -/
def chainTree {δ : Type} (d : δ) : LTree δ := .node (.node .nil 1 d (.node .nil 3 d .nil)) 2 d .nil

def chainHeap {δ : Type} (d : δ) : Heap δ ℕ
  | 1 => ⟨0,2,3,.L,d,9,1⟩
  | 2 => ⟨1,9,0,.P,d,9,2⟩
  | 3 => ⟨0,1,0,.R,d,9,3⟩
  | _ => ⟨0,2,0,.P,d,0,0⟩

theorem chainHeap_holds {δ : Type} (d : δ) : Zip (chainHeap d) 9 [] (chainTree d) :=
  ⟨rfl,⟨rfl,rfl,rfl,rfl,rfl,⟨rfl,rfl,rfl,rfl,rfl,trivial,⟨rfl,rfl,rfl,rfl,rfl,trivial,trivial⟩⟩,trivial⟩,
    (by decide : [0,9,1,3,2].Nodup)⟩

theorem apply_postorder_chain :
    (∃ fuel, avlApply (chainHeap 0) 9 (fun a _ vs => vs ++ [a]) () fuel [] = some [3,1,2]) ∧
    (∃ fuel, rbApply (chainHeap .red) 9 (fun a _ vs => vs ++ [a]) () fuel [] = some [3,1,2]) ∧
    ∃ fuel, stApply (chainHeap ()) 9 (fun a _ vs => vs ++ [a]) () fuel [] = some [3,1,2] := by
  have hall := apply_postorder (κ := ℕ) (fun a _ vs => vs ++ [a]) () [] 9
  exact ⟨(hall.1 (chainHeap 0) (chainTree 0) (chainHeap_holds 0)).2,
    (hall.2.1 (chainHeap RedBlack.Color.red) (chainTree RedBlack.Color.red) (chainHeap_holds RedBlack.Color.red)).2,
    (hall.2.2 (chainHeap ()) (chainTree ()) (chainHeap_holds ())).2⟩

end Catlib.Linked
