import Catlib.Tree.Rotate
import Catlib.Tree.Search

/-! # The AVL tree of avl.h

The datum of a node is its balance field `b`. The field is a signed char; it never
leaves the range from -2 to 2 while the tree is valid, so integers model it.
-/
namespace Catlib.Avl
open Linked

abbrev AvlHeap (κ : Type) := Heap ℤ κ

variable {κ : Type}

def avlNinit (h : AvlHeap κ) (n : Addr) (k : κ) : AvlHeap κ :=
  h.put n { h n with pL := 0, pP := 0, pR := 0, pdir := .P, dat := 0, key := k }

/-- `avl_init`; `k` is the key stored in the sentinel, which nothing compares. -/
def avlInit (h : AvlHeap κ) (t : Addr) (k : κ) : AvlHeap κ :=
  let h := avlNinit h t k
  h.put t { h t with pdir := .P }

def avlFix (h : AvlHeap κ) (p c : Addr) (dir : Dir) : Option (AvlHeap κ) := fix h p c dir

def avlFindloc (cmp : κ → κ → ℤ) (h : AvlHeap κ) (t : Addr) (key : κ) (fuel : ℕ) : Option (Addr × Dir) :=
  findloc cmp h t key fuel

/-- `avl_lkup` without a place for the direction: the node with the key, or null. -/
def avlLkup (cmp : κ → κ → ℤ) (h : AvlHeap κ) (t : Addr) (key : κ) (fuel : ℕ) : Option Addr := do
  let (p,dir) ← avlFindloc cmp h t key fuel
  if dir = .N then some p else some 0

/-! ## Rotations with balances -/

def avlRleft (h : AvlHeap κ) (n1 n2 : Addr) (ins : Bool) : Option (AvlHeap κ) :=
  if n1 = 0 ∨ n2 = 0 then none
  else do
    let h ← avlFix h n1 (h n2).pL .R
    let h ← avlFix h (h n1).pP n2 (h n1).pdir
    let h ← avlFix h n2 n1 .L
    if ins ∨ 0 < (h n2).dat then return setDat (setDat h n1 0) n2 0
    else return setDat (setDat h n1 1) n2 (-1)

def avlRright (h : AvlHeap κ) (n1 n2 : Addr) (ins : Bool) : Option (AvlHeap κ) :=
  if n1 = 0 ∨ n2 = 0 then none
  else do
    let h ← avlFix h n1 (h n2).pR .L
    let h ← avlFix h (h n1).pP n2 (h n1).pdir
    let h ← avlFix h n2 n1 .R
    if ins ∨ (h n2).dat < 0 then return setDat (setDat h n1 0) n2 0
    else return setDat (setDat h n1 (-1)) n2 1

def avlZleft (h : AvlHeap κ) (n1 n2 n3 : Addr) : Option (AvlHeap κ) := do
  let h ← zigL h n1 n2 n3
  let h :=
    if (h n3).dat = -1 then setDat (setDat h n1 0) n2 1
    else if (h n3).dat = 0 then setDat (setDat h n1 0) n2 0
    else if (h n3).dat = 1 then setDat (setDat h n1 (-1)) n2 0
    else h
  return setDat h n3 0

def avlZright (h : AvlHeap κ) (n1 n2 n3 : Addr) : Option (AvlHeap κ) := do
  let h ← zigR h n1 n2 n3
  let h :=
    if (h n3).dat = -1 then setDat (setDat h n1 1) n2 0
    else if (h n3).dat = 0 then setDat (setDat h n1 0) n2 0
    else if (h n3).dat = 1 then setDat (setDat h n1 0) n2 (-1)
    else h
  return setDat h n3 0

/-! ## Insertion -/

/-- One turn of the loop of `avl_ins_at`: the subtree at `node` has grown by one. -/
def insBody : AvlHeap κ × Addr → Option (Turn (AvlHeap κ × Addr) (AvlHeap κ))
  | (h,node) =>
    let dir := (h node).pdir
    if dir = .P then some (.leave h)
    else do
      let node ← nonnull (h node).pP
      let h := setDat h node ((h node).dat + (if dir = .L then -1 else 1))
      if (h node).dat ≠ 0 then
        if (h node).dat < -1 then
          let tmp ← nonnull (h node).pL
          let h ← if (h tmp).dat < 0 then avlRright h node tmp true else avlZright h node tmp (h tmp).pR
          return .leave h
        else if (h node).dat > 1 then
          let tmp ← nonnull (h node).pR
          let h ← if (h tmp).dat > 0 then avlRleft h node tmp true else avlZleft h node tmp (h tmp).pL
          return .leave h
        else return .again (h,node)
      else return .leave h

def avlInsAt (h : AvlHeap κ) (node par : Addr) (dir : Dir) (fuel : ℕ) : Option (AvlHeap κ) := do
  let node ← nonnull node
  let h ← avlFix h par node dir
  loop insBody fuel (h,node)

/-- `avl_ins`: the heap afterwards, and the node with an equal key that was replaced or
null. A null `loc` asks for the descent. -/
def avlIns (cmp : κ → κ → ℤ) (h : AvlHeap κ) (t node loc : Addr) (atdir : Dir) (fuel : ℕ) :
    Option (AvlHeap κ × Addr) :=
  if node = 0 then some (h,0)
  else do
    let (p,dir) ← locate cmp h t (h node).key loc atdir fuel
    if dir = .N then
      let h ← avlFix h node (h p).pL .L
      let h ← avlFix h node (h p).pR .R
      let h ← avlFix h (h p).pP node (h p).pdir
      let h := setTree h node t
      let h := setTree h p 0
      return (avlNinit h p (h p).key,p)
    else
      let h ← avlInsAt h node p dir fuel
      return (setTree h node t,0)

/-! ## Removal -/

def avlFindrep (h : AvlHeap κ) (node : Addr) (fuel : ℕ) : Option Addr := findrep h node fuel

/-- The relinking of `avl_rem` before its loop: the link whose subtree has lost one level. -/
def avlUnlink (h : AvlHeap κ) (node : Addr) (fuel : ℕ) : Option (AvlHeap κ × Addr × Dir) := do
  let par := (h node).pP
  let rep ← avlFindrep h node fuel
  if rep ≠ 0 ∧ (h node).pL ≠ rep ∧ (h node).pR ≠ rep then
    let trav := (h rep).pP
    let dir := (h rep).pdir
    let h ← avlFix h (h rep).pP (h rep).pL (h rep).pdir
    let h ← avlFix h rep (h node).pL .L
    let h ← avlFix h rep (h node).pR .R
    let h ← avlFix h (h node).pP rep (h node).pdir
    return (setDat h rep (h node).dat,trav,dir)
  else
    let dir := (h node).pdir
    let h ← avlFix h par rep dir
    if rep ≠ 0 ∧ (h node).pL = rep then
      let h := setDat h rep (h node).dat
      let h ← avlFix h rep (h node).pR .R
      return (h,rep,.L)
    else return (h,par,dir)

/-- One turn of the loop of `avl_rem`: the link `dir` of `trav` has lost one level. -/
def remBody : AvlHeap κ × Addr × Dir → Option (Turn (AvlHeap κ × Addr × Dir) (AvlHeap κ))
  | (h,trav,dir) =>
    if dir = .P then some (.leave h)
    else do
      let trav ← nonnull trav
      let h := setDat h trav ((h trav).dat - (if dir = .L then -1 else 1))
      if (h trav).dat ≠ 0 then
        if (h trav).dat < -1 then
          let tmp ← nonnull (h trav).pL
          if (h tmp).dat ≤ 0 then
            let h ← avlRright h trav tmp false
            if (h tmp).dat ≠ 0 then return .leave h
            return .again (h,(h tmp).pP,(h tmp).pdir)
          else
            let tmp2 := (h tmp).pR
            let h ← avlZright h trav tmp tmp2
            return .again (h,(h tmp2).pP,(h tmp2).pdir)
        else if (h trav).dat > 1 then
          let tmp ← nonnull (h trav).pR
          if (h tmp).dat ≥ 0 then
            let h ← avlRleft h trav tmp false
            if (h tmp).dat ≠ 0 then return .leave h
            return .again (h,(h tmp).pP,(h tmp).pdir)
          else
            let tmp2 := (h tmp).pL
            let h ← avlZleft h trav tmp tmp2
            return .again (h,(h tmp2).pP,(h tmp2).pdir)
        else return .leave h
      else return .again (h,(h trav).pP,(h trav).pdir)

def avlRem (h : AvlHeap κ) (node : Addr) (fuel : ℕ) : Option (AvlHeap κ) := do
  let node ← nonnull node
  if (h node).tree = 0 then return h
  let (h,trav,dir) ← avlUnlink h node fuel
  let h := h.put node { h node with pL := 0, pP := 0, pR := 0, tree := 0, pdir := .P, dat := 0 }
  loop remBody fuel (h,trav,dir)

end Catlib.Avl
