import Catlib.Clist.Family
import Mathlib.Data.Finset.Card
import Mathlib.Algebra.Group.Nat.Defs

/-! # The list container of stduse.c

A `clist` is a list of list.h whose nodes know their list and carry a datum. The head is a node
too, without a list of its own. An allocation gets the answer of the list's `node_alloc` as an
argument; zero is the null pointer.
-/
namespace Catlib.Container
open Clist Function

/-- The lists and their nodes by address: `entry`, `list` and `data` of the nodes, `fill` and
`abort_on_fail` of the lists, and the nodes that are allocated. -/
structure ClMem where
  entry : Links
  list : ℕ → ℕ
  data : ℕ → ℕ
  fill : ℕ → ℕ
  abortOnFail : ℕ → Bool
  live : Finset ℕ

variable {m m' : ClMem} {l n val : ℕ} {xs s t : List (ℕ × ℕ)} {σ : Type}

/-- A `size_t` counts up and down modulo the word. -/
def szInc (n : ℕ) : ℕ := (n + 1) % 2 ^ 64
def szDec (n : ℕ) : ℕ := (n + (2 ^ 64 - 1)) % 2 ^ 64

theorem szInc_of_lt (h : n + 1 < 2 ^ 64) : szInc n = n + 1 := Nat.mod_eq_of_lt h

theorem szDec_succ (h : n < 2 ^ 64) : szDec (n + 1) = n := by
  rw [szDec,Nat.add_assoc,show 1 + (2 ^ 64 - 1) = 2 ^ 64 from rfl,Nat.add_mod_right,Nat.mod_eq_of_lt h]

def clNext (m : ClMem) (n : ℕ) : ℕ := m.entry.next n
def clHead (l : ℕ) : ℕ := l
def clEnd (l : ℕ) : ℕ := l
def clFirst (m : ClMem) (l : ℕ) : ℕ := m.entry.next l
def clLast (m : ClMem) (l : ℕ) : ℕ := m.entry.prev l

/-- `cl_new`, told what `malloc` answers. -/
def clNew (m : ClMem) (abortOnFail : Bool) (l : ℕ) : Option (ClMem × ℕ) :=
  if l = 0 then
    if abortOnFail then none else some (m,0)
  else do
    let entry ← lInit m.entry l
    let m := { m with entry := entry, list := update m.list l 0 }
    return ({ m with fill := update m.fill l 0, abortOnFail := update m.abortOnFail l abortOnFail },l)

def clIsempty (m : ClMem) (l : ℕ) : Bool := m.fill l = 0
def clFill (m : ClMem) (l : ℕ) : ℕ := m.fill l

/-- `cl_ins`, where `node_alloc` answers `n`. -/
def clIns (m : ClMem) (l prev val n : ℕ) : Option (ClMem × ℤ) :=
  if n = 0 then
    if m.abortOnFail l then none else some (m,-1)
  else do
    let prev := if prev = 0 then clHead l else prev
    let entry ← lIns m.entry prev n
    let m := { m with entry := entry, list := update m.list n l, data := update m.data n val }
    return ({ m with fill := update m.fill l (szInc (m.fill l)), live := insert n m.live },0)

/-- `cl_del`: the memory afterwards, and the datum of the node. -/
def clDel (m : ClMem) (_l node : ℕ) : Option (ClMem × ℕ) :=
  if node = 0 then none
  else do
    let p := m.data node
    let m ←
      if m.list node ≠ 0 then do
        let entry ← lRem m.entry node
        let l := m.list node
        let fill := update m.fill l (szDec (m.fill l))
        pure { m with entry := entry, fill := fill, list := update m.list node 0 }
      else pure m
    return ({ m with live := m.live.erase node },p)

def clEnq (m : ClMem) (l val n : ℕ) : Option (ClMem × ℤ) := clIns m l (clLast m l) val n
def clPush (m : ClMem) (l val n : ℕ) : Option (ClMem × ℤ) := clIns m l 0 val n

def clDeq (m : ClMem) (l : ℕ) : Option (ClMem × ℕ) :=
  if m.fill l = 0 then some (m,0) else clDel m l (clFirst m l)

def clPop (m : ClMem) (l : ℕ) : Option (ClMem × ℕ) :=
  if m.fill l = 0 then some (m,0) else clDel m l (clFirst m l)

def clTop (m : ClMem) (l : ℕ) : ℕ := if m.fill l = 0 then 0 else m.data (clFirst m l)

/-- One turn of the loop of `cl_apply`; the function works on the lists and a state of its own. -/
def clApplyBody (l : ℕ) (f : ℕ → ℕ → ClMem × σ → Option (ClMem × σ)) (arg : ℕ) :
    (ClMem × σ) × ℕ → Option (Turn ((ClMem × σ) × ℕ) (ClMem × σ))
  | (s,cur) =>
    if cur = clEnd l then some (.leave s)
    else do
      let next := clNext s.1 cur
      let s ← f cur arg s
      return .again (s,next)

def clApply (m : ClMem) (l : ℕ) (f : ℕ → ℕ → ClMem × σ → Option (ClMem × σ)) (arg fuel : ℕ) (s : σ) : Option (ClMem × σ) :=
  if l = 0 then none else loop (clApplyBody l f arg) fuel ((m,s),clHead l)

/-! ## The deque -/

/-- The list at `l` has these nodes with these data, in this order. -/
structure ClHolds (m : ClMem) (l : ℕ) (xs : List (ℕ × ℕ)) : Prop where
  rings : Rings m.entry {l} fun _ => xs.map Prod.fst
  small : l < 2 ^ 64
  base : m.list l = 0
  node : ∀ x ∈ xs, m.list x.1 = l ∧ m.data x.1 = x.2 ∧ x.1 ∈ m.live ∧ x.1 < 2 ^ 64
  fill : m.fill l = xs.length

/-- What a working allocator may answer. -/
structure ClMem.Fresh (m : ClMem) (l n : ℕ) : Prop where
  pos : n ≠ 0
  small : n < 2 ^ 64
  ne : n ≠ l
  out : n ∉ m.live

namespace ClHolds

theorem pos (h : ClHolds m l xs) : l ≠ 0 := h.rings.layout.ne_zero (Set.mem_singleton l)

theorem nodup (h : ClHolds m l xs) : (l :: xs.map Prod.fst).Nodup := h.rings.layout.nodup l (Set.mem_singleton l)

theorem free (h : ClHolds m l xs) (hn : m.Fresh l n) : Free {l} (fun _ => xs.map Prod.fst) n := by
  refine ⟨hn.pos,fun a ha => ?_⟩
  rw [Set.mem_singleton_iff.mp ha,List.mem_cons,not_or]
  refine ⟨hn.ne,fun hm => ?_⟩
  obtain ⟨x,hx,rfl⟩ := List.mem_map.mp hm
  exact hn.out (h.node x hx).2.2.1

theorem length_lt (h : ClHolds m l xs) : xs.length + 1 < 2 ^ 64 := by
  have hd : (0 :: l :: xs.map Prod.fst).Nodup := List.nodup_cons.mpr ⟨h.rings.layout.pos l (Set.mem_singleton l),h.nodup⟩
  have hsub : 0 :: l :: xs.map Prod.fst ⊆ List.range (2 ^ 64) := by
    intro x hx
    rw [List.mem_range]
    rcases List.mem_cons.mp hx with rfl | hx
    · exact Nat.two_pow_pos 64
    · rcases List.mem_cons.mp hx with rfl | hx
      · exact h.small
      · obtain ⟨y,hy,rfl⟩ := List.mem_map.mp hx
        exact (h.node y hy).2.2.2
  have hle := (List.subperm_of_subset hd hsub).length_le
  rw [List.length_range,List.length_cons,List.length_cons,List.length_map] at hle
  exact hle

theorem ins (h : ClHolds m l (s ++ t)) (hn : m.Fresh l n) (val : ℕ) {p : ℕ} (hp : (l :: s.map Prod.fst).getLast (by simp) = p) :
    ∃ m', clIns m l p val n = some (m',0) ∧ ClHolds m' l (s ++ (n,val) :: t) := by
  have hlen := h.length_lt
  have hL : (s ++ t).map Prod.fst = s.map Prod.fst ++ t.map Prod.fst := List.map_append ..
  obtain ⟨g,hg,hr⟩ := h.rings.lIns (Set.mem_singleton l) hL hp (h.free hn)
  have hp0 : p ≠ 0 := by
    refine h.rings.mem (Set.mem_singleton l) ?_
    rw [hL]
    exact (List.mem_append_left _ (hp ▸ List.getLast_mem _) : p ∈ (l :: s.map Prod.fst) ++ t.map Prod.fst)
  let m₁ := { m with entry := g, list := update m.list n l, data := update m.data n val }
  refine ⟨{ m₁ with fill := update m.fill l (szInc (m.fill l)), live := insert n m.live },
    by simp [clIns, hn.pos, hp0, hg, m₁],?_,h.small,?_,fun x hx => ?_,?_⟩
  · refine hr.congr fun a ha => ?_
    rw [Set.mem_singleton_iff.mp ha,update_self,List.map_append,List.map_cons]
  · exact (update_of_ne hn.ne.symm _ _).trans h.base
  · simp only [List.mem_append, List.mem_cons] at hx
    by_cases hxn : x = (n,val)
    · subst hxn
      exact ⟨update_self ..,update_self ..,Finset.mem_insert_self _ _,hn.small⟩
    · obtain ⟨h1,h2,h3,h4⟩ := h.node x (by simp; tauto)
      have hne : x.1 ≠ n := fun he => hn.out (he ▸ h3)
      exact ⟨(update_of_ne hne _ _).trans h1,(update_of_ne hne _ _).trans h2,Finset.mem_insert_of_mem h3,h4⟩
  · refine (update_self ..).trans ?_
    rw [h.fill,szInc_of_lt hlen]
    simp only [List.length_append, List.length_cons]
    omega

theorem once {x y : ℕ × ℕ} (h : ClHolds m l (s ++ x :: t)) (hy : y ∈ s ++ t) : y.1 ≠ x.1 := by
  have hd := (List.nodup_cons.mp h.nodup).2
  rw [List.map_append,List.map_cons] at hd
  have hx := (List.nodup_cons.mp (hd.perm List.perm_middle)).1
  rw [← List.map_append] at hx
  exact fun he => hx (List.mem_map.mpr ⟨y,hy,he⟩)

theorem del {val : ℕ} (h : ClHolds m l (s ++ (n,val) :: t)) :
    ∃ m', clDel m l n = some (m',val) ∧ ClHolds m' l (s ++ t) := by
  have hlen := h.length_lt
  obtain ⟨hown,hdat,-,-⟩ := h.node (n,val) (by simp)
  simp only at hown hdat
  obtain ⟨g,hg,hr,hfree⟩ := h.rings.lRem (Set.mem_singleton l) (List.map_append.trans (congrArg _ List.map_cons))
  have hn0 := hfree.pos
  have hnl : n ≠ l := fun he => hfree.off l (Set.mem_singleton l) (he ▸ List.mem_cons_self)
  let m₁ := { m with entry := g, fill := update m.fill l (szDec (m.fill l)), list := update m.list n 0 }
  refine ⟨{ m₁ with live := m.live.erase n },?_,?_,h.small,?_,fun x hx => ?_,?_⟩
  · simp [clDel, hn0, hown, h.pos, hg, hdat, m₁]
  · refine hr.congr fun a ha => ?_
    rw [Set.mem_singleton_iff.mp ha,update_self,List.map_append]
  · exact (update_of_ne hnl.symm _ _).trans h.base
  · obtain ⟨h1,h2,h3,h4⟩ := h.node x (by simp only [List.mem_append, List.mem_cons] at hx ⊢; tauto)
    have hne : x.1 ≠ n := h.once hx
    exact ⟨(update_of_ne hne _ _).trans h1,h2,Finset.mem_erase.mpr ⟨hne,h3⟩,h4⟩
  · have hf : m.fill l = (s ++ t).length + 1 := by
      rw [h.fill]
      simp only [List.length_append, List.length_cons]
      omega
    refine (update_self ..).trans ?_
    rw [hf,szDec_succ]
    simp only [List.length_append, List.length_cons] at hlen ⊢
    omega

theorem last (h : ClHolds m l xs) : (l :: xs.map Prod.fst).getLast (by simp) = clLast m l :=
  (h.rings.ring l (Set.mem_singleton l)).prev_head.symm

theorem first {x : ℕ × ℕ} (h : ClHolds m l (x :: t)) : clFirst m l = x.1 :=
  (h.rings.ring l (Set.mem_singleton l)).next_head

end ClHolds

/-! ## Calls -/

inductive ClOp where
  | ins (prev val : ℕ)
  | enq (val : ℕ)
  | push (val : ℕ)
  | deq
  | pop
  | del (node : ℕ)

/-- The integer that an insertion returns, or a datum. -/
inductive ClAns where
  | code (r : ℤ)
  | data (p : ℕ)
  deriving DecidableEq

/-- A call, told what `node_alloc` would answer. -/
def ClMem.call (m : ClMem) (l n : ℕ) : ClOp → Option (ClMem × ClAns)
  | .ins prev val => (clIns m l prev val n).map fun r => (r.1,.code r.2)
  | .enq val => (clEnq m l val n).map fun r => (r.1,.code r.2)
  | .push val => (clPush m l val n).map fun r => (r.1,.code r.2)
  | .deq => (clDeq m l).map fun r => (r.1,.data r.2)
  | .pop => (clPop m l).map fun r => (r.1,.data r.2)
  | .del node => (clDel m l node).map fun r => (r.1,.data r.2)

/-- The places a caller may name: null and the list itself stand for the front. -/
def ClOp.Names (l : ℕ) (xs : List (ℕ × ℕ)) : ClOp → Prop
  | .ins prev _ => prev = 0 ∨ prev = l ∨ prev ∈ xs.map Prod.fst
  | .del node => node ∈ xs.map Prod.fst
  | _ => True

/-- Put `x` behind the node `p`. -/
def insAfter (p : ℕ) (x : ℕ × ℕ) : List (ℕ × ℕ) → List (ℕ × ℕ)
  | [] => []
  | y :: ys => if y.1 = p then y :: x :: ys else y :: insAfter p x ys

/-- The deque after an operation that may take the node `n`. -/
def ClOp.effect (l n : ℕ) (xs : List (ℕ × ℕ)) : ClOp → List (ℕ × ℕ)
  | .ins prev val => if prev = 0 ∨ prev = l then (n,val) :: xs else insAfter prev (n,val) xs
  | .enq val => xs ++ [(n,val)]
  | .push val => (n,val) :: xs
  | .deq => xs.tail
  | .pop => xs.tail
  | .del node => xs.filter fun x => x.1 ≠ node

/-- What the operation answers; null where there is no first node. -/
def ClOp.answer (xs : List (ℕ × ℕ)) : ClOp → ClAns
  | .deq => .data ((xs.head?.map Prod.snd).getD 0)
  | .pop => .data ((xs.head?.map Prod.snd).getD 0)
  | .del node => .data (((xs.find? fun x => x.1 = node).map Prod.snd).getD 0)
  | _ => .code 0

theorem insAfter_append {p : ℕ} {x y : ℕ × ℕ} (hy : y.1 = p) (hs : p ∉ s.map Prod.fst) :
    insAfter p x (s ++ y :: t) = s ++ y :: x :: t := by
  induction s with
  | nil => exact if_pos hy
  | cons z s ih =>
    rw [List.map_cons,List.mem_cons,not_or] at hs
    rw [List.cons_append,insAfter,if_neg (Ne.symm hs.1),ih hs.2,List.cons_append]

theorem ClHolds.filter_del (h : ClHolds m l (s ++ (n,val) :: t)) :
    (s ++ (n,val) :: t).filter (fun x => x.1 ≠ n) = s ++ t := by
  have hne : ∀ x ∈ s ++ t, x.1 ≠ n := fun x hx => h.once hx
  rw [List.filter_append,List.filter_cons_of_neg (by simp),← List.filter_append]
  exact List.filter_eq_self.mpr fun x hx => by simpa using hne x hx

theorem ClHolds.find_del (h : ClHolds m l (s ++ (n,val) :: t)) :
    (s ++ (n,val) :: t).find? (fun x => x.1 = n) = some (n,val) := by
  have hne : ∀ x ∈ s, x.1 ≠ n := fun x hx => h.once (List.mem_append_left t hx)
  rw [List.find?_append,List.find?_eq_none.mpr (by simpa using hne)]
  simp

theorem ClHolds.call (h : ClHolds m l xs) {op : ClOp} (hop : op.Names l xs) (hn : m.Fresh l n) :
    ∃ m', m.call l n op = some (m',op.answer xs) ∧ ClHolds m' l (op.effect l n xs) := by
  have hhead : ∀ val, clIns m l 0 val n = clIns m l l val n := by
    intro val
    simp only [clIns, clHead, if_true, h.pos, if_false]
  have hfront : ∀ val, ∃ m', clIns m l l val n = some (m',0) ∧ ClHolds m' l ((n,val) :: xs) :=
    fun val => ClHolds.ins (s := []) h hn val rfl
  have hfirst : ∃ m', clDeq m l = some (m',(xs.head?.map Prod.snd).getD 0) ∧ ClHolds m' l xs.tail := by
    cases xs with
    | nil => exact ⟨m,if_pos h.fill,h⟩
    | cons x xs =>
      obtain ⟨m',hd,hh⟩ := ClHolds.del (s := []) h
      have hfill : m.fill l ≠ 0 := by rw [h.fill]; simp
      exact ⟨m',by rw [clDeq,if_neg hfill,h.first]; exact hd,hh⟩
  cases op with
  | ins prev val =>
    by_cases hp : prev = 0 ∨ prev = l
    · obtain ⟨m',hm,hh⟩ := hfront val
      have hcall : clIns m l prev val n = some (m',0) := by
        rcases hp with rfl | rfl
        · rw [hhead,hm]
        · exact hm
      exact ⟨m',by rw [ClMem.call,hcall]; exact rfl,by rwa [ClOp.effect,if_pos hp]⟩
    · obtain ⟨y,hy,rfl⟩ := List.mem_map.mp ((hop.resolve_left fun h => hp (.inl h)).resolve_left fun h => hp (.inr h))
      obtain ⟨s,t,rfl⟩ := List.append_of_mem hy
      have hst : s ++ y :: t = (s ++ [y]) ++ t := by simp
      rw [hst] at h
      obtain ⟨m',hm,hh⟩ := h.ins hn val (p := y.1) (by simp)
      refine ⟨m',by rw [ClMem.call,hm]; exact rfl,?_⟩
      rw [ClOp.effect,if_neg hp,insAfter_append rfl fun hm => ?_]
      · rwa [List.append_assoc,List.singleton_append] at hh
      · obtain ⟨z,hz,he⟩ := List.mem_map.mp hm
        rw [← hst] at h
        exact h.once (List.mem_append_left t hz) he
  | enq val =>
    obtain ⟨m',hm,hh⟩ := ClHolds.ins (s := xs) (t := []) (by rwa [List.append_nil]) hn val h.last
    exact ⟨m',by rw [ClMem.call,clEnq,hm]; exact rfl,hh⟩
  | push val =>
    obtain ⟨m',hm,hh⟩ := hfront val
    exact ⟨m',by rw [ClMem.call,clPush,hhead,hm]; exact rfl,hh⟩
  | deq =>
    obtain ⟨m',hm,hh⟩ := hfirst
    exact ⟨m',by rw [ClMem.call,hm]; exact rfl,hh⟩
  | pop =>
    obtain ⟨m',hm,hh⟩ := hfirst
    exact ⟨m',by rw [ClMem.call,show clPop m l = clDeq m l from rfl,hm]; exact rfl,hh⟩
  | del node =>
    obtain ⟨⟨n',val⟩,hy,rfl⟩ := List.mem_map.mp hop
    obtain ⟨s,t,rfl⟩ := List.append_of_mem hy
    obtain ⟨m',hm,hh⟩ := h.del
    refine ⟨m',by rw [ClMem.call,hm,ClOp.answer,h.find_del]; exact rfl,?_⟩
    rwa [ClOp.effect,h.filter_del]

/-! ## Runs -/

/-- The memories that calls lead to, with the deque that the calls make. -/
inductive ClRun (l : ℕ) (m₀ : ClMem) : ClMem → List (ℕ × ℕ) → Prop
  | start : ClRun l m₀ m₀ []
  | call {m m' : ClMem} {xs : List (ℕ × ℕ)} {op : ClOp} {n : ℕ} {r : ClAns} (h : ClRun l m₀ m xs) (hop : op.Names l xs)
      (hn : m.Fresh l n) (hc : m.call l n op = some (m',r)) : ClRun l m₀ m' (op.effect l n xs)

theorem clNew_holds {b : Bool} (hl : l < 2 ^ 64) (hl0 : l ≠ 0) (h : clNew m b l = some (m',l)) : ClHolds m' l [] := by
  have hnone : Rings m.entry ∅ fun _ => [] := ⟨⟨by simp,by simp,by simp⟩,by simp⟩
  obtain ⟨g,hg,hr⟩ := hnone.lInit ⟨hl0,by simp⟩
  rw [clNew,if_neg hl0,hg] at h
  obtain ⟨rfl,-⟩ := Prod.mk.inj (Option.some.inj h)
  refine ⟨?_,hl,update_self ..,by simp,update_self ..⟩
  rw [LawfulSingleton.insert_empty_eq] at hr
  refine hr.congr fun a ha => ?_
  rw [Set.mem_singleton_iff.mp ha,update_self,List.map_nil]

theorem ClRun.holds {m₀ : ClMem} (h0 : ClHolds m₀ l []) (h : ClRun l m₀ m xs) : ClHolds m l xs := by
  induction h with
  | start => exact h0
  | call _ hop hn hc ih =>
    obtain ⟨m'',hm,hh⟩ := ih.call hop hn
    obtain ⟨rfl,-⟩ := Prod.mk.inj (Option.some.inj (hc.symm.trans hm))
    exact hh

/-! ## Applying a function -/

/-- A function that may delete the node it is given, and does nothing else to the lists. -/
def mayDelete (l : ℕ) (f : ℕ → ℕ → σ → σ) (del : ℕ → ℕ → σ → Bool) (n arg : ℕ) : ClMem × σ → Option (ClMem × σ)
  | (m,s) => if del n arg s then (clDel m l n).map fun r => (r.1,f n arg s) else some (m,f n arg s)

/-- Whatever such a function does, it is called on each of the nodes once, in this order. -/
def ClMem.Applies (m : ClMem) (l : ℕ) (ns : List ℕ) : Prop :=
  ∀ (σ : Type) (f : ℕ → ℕ → σ → σ) (del : ℕ → ℕ → σ → Bool) (arg : ℕ) (s : σ), ∃ fuel m',
    clApply m l (mayDelete l f del) arg fuel s = some (m',ns.foldl (fun s n => f n arg s) s)

theorem clApply_eq (hl : l ≠ 0) (f : ℕ → ℕ → ClMem × σ → Option (ClMem × σ)) (arg fuel : ℕ) (s : σ) :
    clApply m l f arg (fuel + 1) s = some (m,s) := by
  rw [clApply,if_neg hl]
  exact loop_leave (if_pos rfl)

theorem applies_iff (hl : l ≠ 0) {ns : List ℕ} : m.Applies l ns ↔ ns = [] := by
  constructor
  · intro h
    obtain ⟨fuel,m',hf⟩ := h (List ℕ) (fun n _ acc => n :: acc) (fun _ _ _ => false) 0 []
    cases fuel with
    | zero => rw [clApply,if_neg hl] at hf; cases hf
    | succ fuel =>
      rw [clApply_eq hl] at hf
      have hnil := (Prod.mk.inj (Option.some.inj hf)).2
      rw [List.foldl_flip_cons_eq_append'] at hnil
      simpa using hnil.symm
  · rintro rfl σ f del arg s
    exact ⟨1,m,clApply_eq hl _ arg 0 s⟩

/-- After any calls on a new list it holds the deque and counts it, the next call answers as the
deque does, and applying a function serves the nodes exactly when there are none. -/
theorem clRun_spec {m₀ : ClMem} {b : Bool} (hl : l < 2 ^ 64) (hl0 : l ≠ 0) (hnew : clNew m b l = some (m₀,l))
    (h : ClRun l m₀ m' xs) : ClHolds m' l xs ∧ clFill m' l = xs.length ∧
    (∀ op n, op.Names l xs → m'.Fresh l n →
      ∃ m'', m'.call l n op = some (m'',op.answer xs) ∧ ClHolds m'' l (op.effect l n xs)) ∧
    (m'.Applies l (xs.map Prod.fst) ↔ xs = []) := by
  have hh := h.holds (clNew_holds hl hl0 hnew)
  exact ⟨hh,hh.fill,fun op n hop hn => hh.call hop hn,(applies_iff hl0).trans List.map_eq_nil_iff⟩

/-! A new list at 8, to which a datum 7 is put in a node at 16. -/

def emptyMem : ClMem := ⟨⟨fun _ => 0,fun _ => 0⟩,fun _ => 0,fun _ => 0,fun _ => 0,fun _ => false,∅⟩

theorem emptyMem_new : ∃ m₀, clNew emptyMem false 8 = some (m₀,8) ∧ m₀.Fresh 8 16 :=
  ⟨_,rfl,by decide,by decide,by decide,Finset.notMem_empty 16⟩

theorem clRun_enq {m₀ : ClMem} (hnew : clNew emptyMem false 8 = some (m₀,8)) (hn : m₀.Fresh 8 16) :
    ∃ m', ClRun 8 m₀ m' [(16,7)] := by
  have hop : (ClOp.enq 7).Names 8 [] := trivial
  obtain ⟨m',hm,-⟩ := (clNew_holds (by decide) (by decide) hnew).call hop hn
  exact ⟨m',ClRun.start.call hop hn hm⟩

theorem clRun_spec_enq : ∃ m₀ m', ClRun 8 m₀ m' [(16,7)] ∧ ClHolds m' 8 [(16,7)] ∧ clFill m' 8 = 1 := by
  obtain ⟨m₀,hnew,hn⟩ := emptyMem_new
  obtain ⟨m',hrun⟩ := clRun_enq hnew hn
  have h := clRun_spec (by decide) (by decide) hnew hrun
  exact ⟨m₀,m',hrun,h.1,h.2.1⟩

theorem clApply_misses : ¬∀ (m₀ m' : ClMem) (xs : List (ℕ × ℕ)), clNew emptyMem false 8 = some (m₀,8) → ClRun 8 m₀ m' xs →
    m'.Applies 8 (xs.map Prod.fst) := by
  intro hall
  obtain ⟨m₀,hnew,hn⟩ := emptyMem_new
  obtain ⟨m',hrun⟩ := clRun_enq hnew hn
  exact absurd ((applies_iff (by decide)).mp (hall m₀ m' _ hnew hrun)) (by decide)

end Catlib.Container
