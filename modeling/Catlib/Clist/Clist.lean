import Mathlib.Data.List.Chain
import Mathlib.Data.List.Nodup
import Catlib.Logic.Loop

/-! # Rings of doubly linked nodes

A node is a record of two links. A segment is a list of nodes that are linked to each other in both
directions, a ring is a segment from a head back to it. What relinking has to establish for a ring to
take in a segment, or to lose one, is said once, in terms of the four links at the joints.
-/
namespace Catlib.Clist

/-- The links forward and back, by the address of the node. -/
@[ext] structure Links where
  next : ℕ → ℕ
  prev : ℕ → ℕ

def Links.setNext (h : Links) (a v : ℕ) : Links := { h with next := Function.update h.next a v }
def Links.setPrev (h : Links) (a v : ℕ) : Links := { h with prev := Function.update h.prev a v }

variable {h g : Links} {a p z : ℕ} {xs u s t l : List ℕ}

@[simp] theorem setNext_prev (a v : ℕ) : (h.setNext a v).prev = h.prev := rfl
@[simp] theorem setPrev_next (a v : ℕ) : (h.setPrev a v).next = h.next := rfl
theorem setNext_next (a v x : ℕ) : (h.setNext a v).next x = if x = a then v else h.next x := Function.update_apply _ _ _ _
theorem setPrev_prev (a v x : ℕ) : (h.setPrev a v).prev x = if x = a then v else h.prev x := Function.update_apply _ _ _ _

def Adj (h : Links) (x y : ℕ) : Prop := h.next x = y ∧ h.prev y = x

def Seg (h : Links) (l : List ℕ) : Prop := l.IsChain (Adj h)

/-- The ring of head `a` with the nodes `xs`: forward from the head they come in this order, back from it in
the opposite one, and both ways end at the head. -/
def Ring (h : Links) (a : ℕ) (xs : List ℕ) : Prop := Seg h (a :: xs ++ [a])

theorem ne_getLast_of_mem_dropLast (hd : l.Nodup) (hl : l ≠ []) {x : ℕ} (hx : x ∈ l.dropLast) : x ≠ l.getLast hl := by
  rw [← List.dropLast_append_getLast hl,List.nodup_append] at hd
  exact hd.2.2 x hx _ (List.mem_singleton_self _)

theorem ne_head_of_mem_tail (hd : l.Nodup) (hl : l ≠ []) {x : ℕ} (hx : x ∈ l.tail) : x ≠ l.head hl := by
  rw [← List.cons_head_tail hl,List.nodup_cons] at hd
  rintro rfl
  exact hd.1 hx

theorem Seg.congr (hs : Seg h l) (hn : ∀ x ∈ l.dropLast, g.next x = h.next x) (hp : ∀ x ∈ l.tail, g.prev x = h.prev x) :
    Seg g l := by
  unfold Seg at *
  induction l with
  | nil => exact .nil
  | cons x l ih =>
    cases l with
    | nil => exact .singleton x
    | cons y l =>
      simp only [List.isChain_cons_cons,List.dropLast_cons_cons,List.tail_cons,List.forall_mem_cons] at *
      exact ⟨⟨hn.1.trans hs.1.1,hp.1.trans hs.1.2⟩,ih hs.2 hn.2 fun c hc => hp.2 c hc⟩

theorem Ring.congr (hr : Ring h a xs) (hw : ∀ x ∈ a :: xs, g.next x = h.next x ∧ g.prev x = h.prev x) : Ring g a xs := by
  refine Seg.congr hr (fun x hx => ?_) (fun x hx => ?_)
  · rw [List.dropLast_concat] at hx
    exact (hw x hx).1
  · simp only [List.cons_append,List.tail_cons,List.mem_append,List.mem_singleton] at hx
    rcases hx with hx | rfl
    · exact (hw x (List.mem_cons_of_mem _ hx)).2
    · exact (hw x List.mem_cons_self).2

theorem ring_nil : Ring h a [] ↔ h.next a = a ∧ h.prev a = a := by
  simp [Ring,Seg,Adj]

theorem Seg.append {l₁ l₂ : List ℕ} (h₁ : l₁ ≠ []) (h₂ : l₂ ≠ []) :
    Seg h (l₁ ++ l₂) ↔ Seg h l₁ ∧ Seg h l₂ ∧ Adj h (l₁.getLast h₁) (l₂.head h₂) := by
  rw [Seg,List.isChain_append]
  simp [List.getLast?_eq_getLast_of_ne_nil h₁,List.head?_eq_some_head h₂,Seg]

theorem Ring.append : Ring h a (s ++ t) ↔ Seg h (a :: s) ∧ Seg h (t ++ [a]) ∧
    Adj h ((a :: s).getLast (by simp)) ((t ++ [a]).head (by simp)) := by
  have he : a :: (s ++ t) ++ [a] = (a :: s) ++ (t ++ [a]) := by simp
  rw [Ring,he,Seg.append]

theorem Ring.step (hr : Ring h a (s ++ t)) (hp : (a :: s).getLast (by simp) = p) (hz : (t ++ [a]).head (by simp) = z) :
    h.next p = z ∧ h.prev z = p := by
  obtain ⟨-,-,ha⟩ := Ring.append.1 hr
  rwa [hp,hz] at ha

theorem Ring.next_head (hr : Ring h a xs) : h.next a = (xs ++ [a]).head (by simp) :=
  (Ring.step (s := []) (t := xs) hr rfl rfl).1

theorem Ring.prev_head (hr : Ring h a xs) : h.prev a = (a :: xs).getLast (by simp) :=
  (Ring.step (s := xs) (t := []) (by rwa [List.append_nil]) rfl rfl).2

theorem Ring.inner (hr : Ring h a xs) : Seg h xs :=
  List.IsChain.left_of_append (show List.IsChain (Adj h) (xs ++ [a]) from List.IsChain.tail hr)

theorem Ring.next_eq_iff (hr : Ring h a xs) (hd : (a :: xs).Nodup) : h.next a = a ↔ xs = [] := by
  rw [hr.next_head]
  cases xs with
  | nil => simp
  | cons x xs =>
    simp only [List.nodup_cons,List.mem_cons,not_or] at hd
    simp [Ne.symm hd.1.1]

section
variable (hd : (a :: (s ++ t)).Nodup) (hp : (a :: s).getLast (by simp) = p) (hz : (t ++ [a]).head (by simp) = z)
include hd hp hz

theorem Seg.around (h1 : Seg h (a :: s)) (h2 : Seg h (t ++ [a])) (hn : ∀ x ∈ a :: (s ++ t), x ≠ p → g.next x = h.next x)
    (hb : ∀ x ∈ a :: (s ++ t), x ≠ z → g.prev x = h.prev x) : Seg g (a :: s) ∧ Seg g (t ++ [a]) := by
  have hpm : p ∈ a :: s := hp ▸ List.getLast_mem _
  have hzm : z ∈ t ++ [a] := hz ▸ List.head_mem _
  have hd1 : (a :: s).Nodup := hd.sublist (by simp)
  have hd2 : (t ++ [a]).Nodup := List.nodup_append_comm.1 (hd.sublist (by simp))
  simp only [List.mem_cons,List.mem_append,List.not_mem_nil,or_false,List.nodup_cons,List.nodup_append,not_or] at hd hpm hzm hn hb
  refine ⟨h1.congr (fun x hx => ?_) (fun x hx => ?_),h2.congr (fun x hx => ?_) (fun x hx => ?_)⟩
  · have hxm := List.dropLast_subset _ hx
    exact hn x (by simp at hxm; tauto) (hp ▸ ne_getLast_of_mem_dropLast hd1 (by simp) hx)
  · refine hb x (by simp at hx; tauto) ?_
    rintro rfl
    rcases hzm with hm | rfl
    · exact hd.2.2.2 x hx x hm rfl
    · exact hd.1.1 hx
  · rw [List.dropLast_concat] at hx
    refine hn x (by tauto) ?_
    rintro rfl
    rcases hpm with rfl | hm
    · exact hd.1.2 hx
    · exact hd.2.2.2 x hm x hx rfl
  · have hxm := List.mem_of_mem_tail hx
    exact hb x (by simp at hxm; tauto) (hz ▸ ne_head_of_mem_tail hd2 (by simp) hx)

theorem Ring.splice (hr : Ring h a (s ++ t)) (hy : u ≠ []) (hs : Seg g u)
    (hn : ∀ x ∈ a :: (s ++ t), x ≠ p → g.next x = h.next x) (hb : ∀ x ∈ a :: (s ++ t), x ≠ z → g.prev x = h.prev x)
    (h1 : Adj g p (u.head hy)) (h2 : Adj g (u.getLast hy) z) : Ring g a (s ++ u ++ t) := by
  obtain ⟨h1',h2',-⟩ := Ring.append.1 hr
  obtain ⟨hs1,hs2⟩ := Seg.around hd hp hz h1' h2' hn hb
  have he : a :: (s ++ u ++ t) ++ [a] = (a :: s) ++ (u ++ (t ++ [a])) := by simp
  rw [Ring,he,Seg.append (by simp) (by simp),Seg.append hy (by simp),hp,hz,List.head_append_of_ne_nil hy]
  exact ⟨hs1,⟨hs,hs2,h2⟩,h1⟩

theorem Ring.close (hr : Ring h a (s ++ u ++ t)) (hn : ∀ x ∈ a :: (s ++ t), x ≠ p → g.next x = h.next x)
    (hb : ∀ x ∈ a :: (s ++ t), x ≠ z → g.prev x = h.prev x) (h1 : Adj g p z) : Ring g a (s ++ t) := by
  obtain ⟨h1',h2',-⟩ := Ring.append.1 hr
  have hs' : Seg h (a :: s) := List.IsChain.left_of_append (show List.IsChain (Adj h) ((a :: s) ++ u) from h1')
  obtain ⟨hs1,hs2⟩ := Seg.around hd hp hz hs' h2' hn hb
  rw [Ring.append,hp,hz]
  exact ⟨hs1,hs2,h1⟩

end

end Catlib.Clist

/-! # The list of list.h

Zero is the null pointer. A failed assertion, or a null pointer that is followed, answers with nothing.
-/
namespace Catlib.Clist

def lInit (h : Links) (head : ℕ) : Option Links :=
  if head = 0 then none else some ((h.setPrev head head).setNext head head)

def lIns (h : Links) (prev elem : ℕ) : Option Links :=
  if prev = 0 ∨ elem = 0 then none
  else if h.next prev = 0 ∨ h.prev (h.next prev) ≠ prev then none
  else
    let next := h.next prev
    some ((((h.setNext elem next).setPrev elem prev).setNext prev elem).setPrev next elem)

def lRem (h : Links) (elem : ℕ) : Option Links :=
  if elem = 0 then none
  else
    let next := h.next elem
    let prev := h.prev elem
    if next = 0 ∨ h.prev next ≠ elem then none
    else if prev = 0 ∨ h.next prev ≠ elem then none
    else some ((((h.setNext prev next).setPrev next prev).setNext elem elem).setPrev elem elem)

def lIsempty (h : Links) (list : ℕ) : Option Bool :=
  if list = 0 then none else some (h.next list = list)

def lEnq (h : Links) (list elem : ℕ) : Option Links := if list = 0 then none else lIns h (h.prev list) elem

def lPush (h : Links) (list elem : ℕ) : Option Links := lIns h list elem

/-- `l_deq` and `l_pop`: the links afterwards, and the first node or null. -/
def lDeq (h : Links) (list : ℕ) : Option (Links × ℕ) :=
  if list = 0 then none
  else
    let last := h.next list
    if last ≠ list then (lRem h last).map fun h => (h,last) else some (h,0)

def lMove (h : Links) (dst src : ℕ) : Option Links :=
  if dst = 0 ∨ src = 0 then none
  else
    let h := h.setNext dst (h.next src)
    let h := h.setPrev dst (h.prev src)
    if h.next src = 0 then none
    else
      let h := h.setPrev (h.next src) dst
      if h.prev src = 0 then none
      else
        let h := h.setNext (h.prev src) dst
        some ((h.setPrev src src).setNext src src)

def lSplice (h : Links) (prev list2 : ℕ) : Option Links :=
  if list2 = 0 ∨ prev = 0 then none
  else if h.next list2 = list2 then some h
  else
    let after := h.next prev
    let l2s := h.next list2
    let l2e := h.prev list2
    if after = 0 ∨ l2s = 0 ∨ l2e = 0 then none
    else
      let h := h.setPrev l2s prev
      let h := h.setNext prev l2s
      let h := h.setNext l2e after
      let h := h.setPrev after l2e
      some ((h.setPrev list2 list2).setNext list2 list2)

def lAppend (h : Links) (list1 list2 : ℕ) : Option Links := if list1 = 0 then none else lSplice h (h.prev list1) list2

/-! ## Merge sort

A comparison gets the addresses of two nodes; what it reads there are no links.
-/

variable (cmp : ℕ → ℕ → ℤ)

/-- One turn of the first loop of `l_merge`: the smaller head, of two equal ones the second. -/
def mergeBody (l1 l2 mlist : ℕ) (h : Links) : Option (Turn Links Links) := do
  let e1 ← lIsempty h l1
  let e2 ← lIsempty h l2
  if e1 ∨ e2 then return .leave h
  let t := if cmp (h.next l1) (h.next l2) < 0 then h.next l1 else h.next l2
  let h ← lRem h t
  let h ← lIns h (h.prev mlist) t
  return .again h

/-- One turn of the second loop of `l_merge`. -/
def drainBody (rest mlist : ℕ) (h : Links) : Option (Turn Links Links) := do
  let e ← lIsempty h rest
  if e then return .leave h
  let t := h.next rest
  let h ← lRem h t
  let h ← lIns h (h.prev mlist) t
  return .again h

/-- `l_merge`; `mlist` is the head on its stack. -/
def lMerge (mlist : ℕ) (h : Links) (l1 l2 fuel : ℕ) : Option Links := do
  let h ← lInit h mlist
  let h ← loop (mergeBody cmp l1 l2 mlist) fuel h
  let e1 ← lIsempty h l1
  let rest := if e1 then l2 else l1
  let h ← loop (drainBody rest mlist) fuel h
  lMove h l1 mlist

def arrayLength : ℕ := 48

/-- The heads on the stack: the array of `l_sort`, and the list of the calls of `l_merge`. -/
structure Stack where
  arr : ℕ → ℕ
  mlist : ℕ

variable (st : Stack)

/-- The first loop of `l_sort` over the array: `n` entries from `i` on. -/
def initAll (h : Links) : ℕ → ℕ → Option Links
  | _, 0 => some h
  | i, n + 1 => do
    let h ← lInit h (st.arr i)
    initAll h (i + 1) n

/-- The node goes to the first entry of the array. -/
def place (h : Links) (node : ℕ) (wasempty : Bool) : Option Links :=
  if wasempty then lIns h (st.arr 0) node
  else if cmp node (h.next (st.arr 0)) < 0 then lIns h (st.arr 0) node
  else lIns h (h.next (st.arr 0)) node

/-- The loop that carries a run on: `n` entries from `i` on, the previous one not empty. -/
def carryRun (fuel : ℕ) (h : Links) : ℕ → ℕ → Option Links
  | _, 0 => some h
  | i, n + 1 => do
    let wasempty ← lIsempty h (st.arr i)
    if wasempty then lMove h (st.arr i) (st.arr (i - 1))
    else
      let h ← lMerge cmp st.mlist h (st.arr i) (st.arr (i - 1)) fuel
      carryRun fuel h (i + 1) n

/-- One turn of the main loop of `l_sort`. -/
def sortBody (l fuel : ℕ) (h : Links) : Option (Turn Links Links) := do
  let e ← lIsempty h l
  if e then return .leave h
  let node := h.next l
  let h ← lRem h node
  let wasempty ← lIsempty h (st.arr 0)
  let h ← place cmp st h node wasempty
  let h ← if wasempty then some h else carryRun cmp st fuel h 1 (arrayLength - 1)
  return .again h

/-- The last loop of `l_sort`: `n` entries from `i` on, the index `last` of the entry they are merged with. -/
def gatherRuns (fuel : ℕ) (h : Links) : ℕ → ℕ → ℕ → Option (Links × ℕ)
  | last, _, 0 => some (h,last)
  | last, i, n + 1 => do
    let e ← lIsempty h (st.arr i)
    if e then gatherRuns fuel h last (i + 1) n
    else
      let h ← lMerge cmp st.mlist h (st.arr i) (st.arr last) fuel
      gatherRuns fuel h i (i + 1) n

def lSort (h : Links) (l fuel : ℕ) : Option Links := do
  if l = 0 then none
  let h ← initAll st h 0 arrayLength
  let h ← loop (sortBody cmp st l fuel) fuel h
  let (h,last) ← gatherRuns cmp st fuel h 0 1 (arrayLength - 1)
  lMove h l (st.arr last)

end Catlib.Clist
