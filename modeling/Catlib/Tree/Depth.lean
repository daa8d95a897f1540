import Catlib.Tree.AvlRuns
import Catlib.Tree.RedBlackRuns
import Mathlib.Data.Nat.Fib.Basic
import Mathlib.Data.Nat.Log
import Mathlib.Data.Set.Card

/-! # How deep the balanced trees are

A search goes down one path, so that it takes no more turns than the tree is deep. A red-black tree of `n`
nodes is at most twice the binary logarithm of `n + 1` deep, and an AVL tree is no deeper than the Fibonacci
numbers allow.
-/
namespace Catlib.Linked

variable {δ κ : Type*} {h : Heap δ κ} {root t : Addr} {S : Set Addr} {P : LTree δ → Prop} {cmp : κ → κ → ℤ}

def LTree.depth : LTree δ → ℕ
  | .nil => 0
  | .node l _ _ r => max l.depth r.depth + 1

/-- Every turn of the search goes one level down. -/
theorem findloc_turns (cmp : κ → κ → ℤ) {T : LTree δ} (hz : Zip h root [] T) (k : κ) {fuel : ℕ} (hf : T.depth < fuel) :
    ∃ s, findloc cmp h root k fuel = some s := by
  suffices hmain : ∀ n (c : Spine δ) t, t.depth < n → plug c t = T → ∃ s, loop (findBody cmp h k) n (slot root c) = some s by
    exact hmain fuel [] T hf rfl
  intro n c t hn hp
  induction n generalizing c t with
  | zero => exact absurd hn (Nat.not_lt_zero _)
  | succ n ih =>
    have hzt : Zip h root c t := zip_top.mpr (by rw [hp]; exact hz)
    have hval := hzt.above.slot_val
    cases t with
    | nil => exact ⟨slot root c,loop_leave (by simp [findBody, hval])⟩
    | node l a d r =>
      have ha : a ≠ 0 := hzt.ne_zero (Zip.focus_mem (by simp))
      rw [LTree.ptr_node] at hval
      rw [LTree.depth] at hn
      rcases lt_trichotomy (cmp k (h a).key) 0 with hlt | heq | hgt
      · rw [loop_again (t := (a,.L)) (by simp [findBody, hval, ha, hlt])]
        exact ih (.inL a d r :: c) l (by omega) hp
      · exact ⟨(a,.N),loop_leave (by simp [findBody, hval, ha, heq])⟩
      · rw [loop_again (t := (a,.R)) (by simp [findBody, hval, ha, hgt, not_lt.mpr hgt.le])]
        exact ih (.inR l a d :: c) r (by omega) hp

theorem findloc_within {T : LTree δ} (hz : Zip h root [] T) {k : κ} {fuel m : ℕ} {s : Addr × Dir} (hm : T.depth < m)
    (hl : findloc cmp h root k fuel = some s) : findloc cmp h root k m = some s := by
  obtain ⟨s',hs'⟩ := findloc_turns cmp hz k hm
  rw [Grows.agree (fun _ _ => findloc_grows cmp h root k) hl hs',hs']

theorem Zip.card {T : LTree δ} (hz : Zip h root [] T) (hS : ∀ x, x ∈ T.addrs ↔ x ∈ S) : S.ncard = T.addrs.length := by
  have hnd : T.addrs.Nodup := by
    have hnd := hz.distinct
    simp only [plug_nil, List.nodup_cons] at hnd
    exact hnd.2.2
  have hset : S = ↑T.addrs.toFinset := by
    ext x
    rw [← hS x,List.coe_toFinset]
    rfl
  rw [hset,Set.ncard_coe_finset,List.toFinset_card_of_nodup hnd]

end Catlib.Linked

namespace Catlib.RedBlack
open Linked

variable {κ : Type} {cmp : κ → κ → ℤ} {h : RbHeap κ} {t : Addr} {S : Set Addr} {T : LTree Color} {n : ℕ}

/-- Red nodes at most double the black ones on a path, and the black levels are full. -/
theorem Bh.depth_le (hb : Bh T n) : T.depth ≤ 2 * n + (if color T = .red then 1 else 0) ∧ 2 ^ n ≤ T.addrs.length + 1 := by
  induction T generalizing n with
  | nil =>
    obtain rfl : n = 0 := hb
    exact ⟨Nat.zero_le _,le_rfl⟩
  | node l a d r ihl ihr =>
    rw [LTree.depth,LTree.addrs_node,List.length_append,List.length_cons]
    cases d with
    | red =>
      obtain ⟨hcl,hcr,hl,hr⟩ := hb
      have hl := ihl hl
      have hr := ihr hr
      rw [hcl] at hl
      rw [hcr] at hr
      simp only [reduceCtorEq, if_false, Nat.add_zero] at hl hr
      simp only [color_node, if_true]
      omega
    | black =>
      obtain ⟨m,rfl,hl,hr⟩ := hb
      have hl := ihl hl
      have hr := ihr hr
      have hcl : (if color l = Color.red then 1 else 0) ≤ 1 := by split <;> decide
      have hcr : (if color r = Color.red then 1 else 0) ≤ 1 := by split <;> decide
      rw [Nat.pow_succ]
      omega

theorem IsRb.depth_le (hb : IsRb T) : T.depth ≤ 2 * Nat.log 2 (T.addrs.length + 1) := by
  obtain ⟨hc,n,hn⟩ := hb
  obtain ⟨hd,hp⟩ := hn.depth_le
  rw [hc,if_neg (by decide),Nat.add_zero] at hd
  exact hd.trans (Nat.mul_le_mul_left 2 (Nat.le_log_of_pow_le Nat.one_lt_two hp))

/-- Whatever was inserted and removed before, a lookup compares keys with at most twice the binary logarithm
of `n + 1` nodes, `n` being the number of nodes in the tree, and answers with the one that has the key. -/
theorem rbRun_lkup (hc : IsCmp cmp) (hr : RbRun cmp t h S) (k : κ) :
    ∃ a, rbLkup cmp h t k (2 * Nat.log 2 (S.ncard + 1) + 1) = some a ∧
      (a = 0 ∧ (∀ x ∈ S, cmp k (h x).key ≠ 0) ∨ a ∈ S ∧ cmp k (h a).key = 0) := by
  have ht := rbRun_isRbTree hc hr
  obtain ⟨fuel,a,hl,ha⟩ := rbLkup_spec hc ht k
  obtain ⟨T,hz,-,hb,hS,-⟩ := ht
  have hdepth := hb.depth_le
  rw [← hz.card hS] at hdepth
  obtain ⟨s,hs,hret⟩ := Option.bind_eq_some_iff.mp hl
  exact ⟨a,Option.bind_eq_some_iff.mpr ⟨s,findloc_within hz (Nat.lt_succ_of_le hdepth) hs,hret⟩,ha⟩

theorem rbRun_lkup_sample :
    ∃ a, rbLkup (fun a b => a - b) (sampleIns.get sampleIns_isSome).1 1 9 (2 * Nat.log 2 ((insert 3 (∅ \ {(sampleIns.get
        sampleIns_isSome).2}) : Set Addr).ncard + 1) + 1) = some a ∧
      (a = 0 ∧ (∀ x ∈ (insert 3 (∅ \ {(sampleIns.get sampleIns_isSome).2}) : Set Addr), 9 - ((sampleIns.get sampleIns_isSome).1 x).key ≠ 0) ∨
        a ∈ (insert 3 (∅ \ {(sampleIns.get sampleIns_isSome).2}) : Set Addr) ∧ 9 - ((sampleIns.get sampleIns_isSome).1 a).key = 0) :=
  rbRun_lkup isCmp_sub (.ins sampleHeap_run ⟨by decide,by decide,by simp,rfl,rfl⟩ (Or.inl rfl) sampleIns_eq) 9

end Catlib.RedBlack

namespace Catlib.Avl
open Linked

variable {κ : Type} {cmp : κ → κ → ℤ} {h : AvlHeap κ} {t : Addr} {S : Set Addr} {T : LTree ℤ}

theorem height_depth (T : LTree ℤ) : height T = T.depth := by
  induction T with
  | nil => rfl
  | node l a d r ihl ihr => rw [height,LTree.depth,ihl,ihr,Nat.cast_succ,Nat.cast_max]

/-- An AVL tree has at least the nodes of the leanest one as deep. -/
theorem IsAvl.fib_le (hT : IsAvl T) : Nat.fib (T.depth + 2) ≤ T.addrs.length + 1 := by
  induction T with
  | nil => exact le_rfl
  | node l a d r ihl ihr =>
    obtain ⟨hl,hr,hd,hlow,hhigh⟩ := hT
    rw [height_depth,height_depth] at hd
    rw [LTree.depth,LTree.addrs_node,List.length_append,List.length_cons]
    have hl := ihl hl
    have hr := ihr hr
    have hsplit : Nat.fib (max l.depth r.depth + 1 + 2) = Nat.fib (max l.depth r.depth + 1) + Nat.fib (max l.depth r.depth + 2) :=
      Nat.fib_add_two
    -- the lower of the two subtrees lacks one level at most
    rcases le_total l.depth r.depth with hle | hle
    · have hlow : Nat.fib (r.depth + 1) ≤ Nat.fib (l.depth + 2) := Nat.fib_mono (by omega)
      rw [max_eq_right hle] at hsplit ⊢
      omega
    · have hlow : Nat.fib (l.depth + 1) ≤ Nat.fib (r.depth + 2) := Nat.fib_mono (by omega)
      rw [max_eq_left hle] at hsplit ⊢
      omega

/-- Whatever was inserted and removed before, a lookup compares keys with at most `d` nodes, where an AVL tree of more
than `d` levels would have more nodes than there are, and answers with the one that has the key. -/
theorem avlRun_lkup (hc : IsCmp cmp) (hr : AvlRun cmp t h S) (k : κ) {d : ℕ} (hd : S.ncard + 1 < Nat.fib (d + 3)) :
    ∃ a, avlLkup cmp h t k (d + 1) = some a ∧
      (a = 0 ∧ (∀ x ∈ S, cmp k (h x).key ≠ 0) ∨ a ∈ S ∧ cmp k (h a).key = 0) := by
  have ht := avlRun_isAvlTree hc hr
  obtain ⟨fuel,a,hl,ha⟩ := avlLkup_spec hc ht k
  obtain ⟨T,hz,-,hT,hS,-⟩ := ht
  have hfib := hT.fib_le
  rw [← hz.card hS] at hfib
  have hdepth : T.depth < d + 1 := by
    by_contra hge
    have hmono : Nat.fib (d + 3) ≤ Nat.fib (T.depth + 2) := Nat.fib_mono (by omega)
    omega
  obtain ⟨s,hs,hret⟩ := Option.bind_eq_some_iff.mp hl
  exact ⟨a,Option.bind_eq_some_iff.mpr ⟨s,findloc_within hz hdepth hs,hret⟩,ha⟩

theorem avlRun_lkup_sample :
    ∃ a, avlLkup (fun a b => a - b) (sampleIns.get sampleIns_isSome).1 1 9 2 = some a ∧
      (a = 0 ∧ (∀ x ∈ (insert 3 ∅ : Set Addr), 9 - ((sampleIns.get sampleIns_isSome).1 x).key ≠ 0) ∨
        a ∈ (insert 3 ∅ : Set Addr) ∧ 9 - ((sampleIns.get sampleIns_isSome).1 a).key = 0) :=
  avlRun_lkup (d := 1) isCmp_sub (.ins sampleHeap_run ⟨by decide,by decide,by simp,rfl,rfl⟩ rfl (by simp) (Or.inl rfl) sampleIns_eq) 9
    (by rw [insert_empty_eq,Set.ncard_singleton]; decide)

end Catlib.Avl
