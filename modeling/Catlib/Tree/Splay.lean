import Catlib.Tree.Rotate
import Catlib.Tree.Search

/-! # The splay tree of splay.h

Nodes carry no datum. Every lookup moves a node to the root, so a lookup changes the heap.
-/
namespace Catlib.Splay
open Linked

abbrev StHeap (κ : Type) := Heap Unit κ

variable {κ : Type}

def stNinit (h : StHeap κ) (n : Addr) (k : κ) : StHeap κ :=
  h.put n { h n with pL := 0, pP := 0, pR := 0, pdir := .N, key := k }

/-- `st_init`; `k` is the key stored in the sentinel, which nothing compares. -/
def stInit (h : StHeap κ) (t : Addr) (k : κ) : StHeap κ :=
  let h := stNinit h t k
  h.put t { h t with pdir := .P }

def stFix (h : StHeap κ) (par cld : Addr) (dir : Dir) : Option (StHeap κ) := fix h par cld dir
def stRl (h : StHeap κ) (n : Addr) : Option (StHeap κ) := rotL h n
def stRr (h : StHeap κ) (n : Addr) : Option (StHeap κ) := rotR h n

def stFindloc (cmp : κ → κ → ℤ) (h : StHeap κ) (t : Addr) (key : κ) (fuel : ℕ) : Option (Addr × Dir) :=
  findloc cmp h t key fuel

/-! ## Splaying -/

def stZll (h : StHeap κ) (n : Addr) : Option (StHeap κ) := do
  let p ← nonnull (h n).pP
  let gp ← nonnull (h p).pP
  let h ← stFix h gp (h p).pL .R
  let h ← stFix h p (h n).pL .R
  let h ← stFix h (h gp).pP n (h gp).pdir
  let h ← stFix h n p .L
  stFix h p gp .L

def stZlr (h : StHeap κ) (n : Addr) : Option (StHeap κ) := do
  let p ← nonnull (h n).pP
  let gp ← nonnull (h p).pP
  let h ← stFix h gp (h n).pR .L
  let h ← stFix h p (h n).pL .R
  let h ← stFix h (h gp).pP n (h gp).pdir
  let h ← stFix h n p .L
  stFix h n gp .R

def stZrl (h : StHeap κ) (n : Addr) : Option (StHeap κ) := do
  let p ← nonnull (h n).pP
  let gp ← nonnull (h p).pP
  let h ← stFix h gp (h n).pL .R
  let h ← stFix h p (h n).pR .L
  let h ← stFix h (h gp).pP n (h gp).pdir
  let h ← stFix h n p .R
  stFix h n gp .L

def stZrr (h : StHeap κ) (n : Addr) : Option (StHeap κ) := do
  let p ← nonnull (h n).pP
  let gp ← nonnull (h p).pP
  let h ← stFix h gp (h p).pR .L
  let h ← stFix h p (h n).pR .L
  let h ← stFix h (h gp).pP n (h gp).pdir
  let h ← stFix h n p .R
  stFix h p gp .R

/-- One turn of the loop of `st_splay`. -/
def splayBody (n : Addr) (h : StHeap κ) : Option (Turn (StHeap κ) (StHeap κ)) :=
  if (h n).pdir = .P then some (.leave h)
  else do
    let p ← nonnull (h n).pP
    let h ←
      match (h p).pdir with
      | .P => if (h n).pdir = .L then stRr h p else stRl h p
      | .L => if (h n).pdir = .L then stZrr h n else stZlr h n
      | .R => if (h n).pdir = .L then stZrl h n else stZll h n
      | .N => none
    return .again h

def stSplay (h : StHeap κ) (n : Addr) (fuel : ℕ) : Option (StHeap κ) := do
  let n ← nonnull n
  loop (splayBody n) fuel h

/-! ## Operations -/

/-- `st_lkup`: the heap afterwards, and the node with the key or null. -/
def stLkup (cmp : κ → κ → ℤ) (h : StHeap κ) (t : Addr) (key : κ) (fuel : ℕ) : Option (StHeap κ × Addr) := do
  let (n,dir) ← stFindloc cmp h t key fuel
  if n = t then return (h,0)
  let h ← stSplay h n fuel
  if dir = .N then return (h,n) else return (h,0)

/-- `st_ins`: the heap afterwards, and the node with an equal key that was replaced or null. -/
def stIns (cmp : κ → κ → ℤ) (h : StHeap κ) (t node : Addr) (fuel : ℕ) : Option (StHeap κ × Addr) := do
  let node ← nonnull node
  let h := setTree h node t
  let (n,dir) ← stFindloc cmp h t (h node).key fuel
  if n = t then
    let h ← stFix h t node .P
    return (h,0)
  else if dir = .N then
    let h ← stSplay h n fuel
    let h ← stFix h node (h n).pL .L
    let h ← stFix h node (h n).pR .R
    let h ← stFix h (h n).pP node (h n).pdir
    return (h.put n { h n with pL := 0, pR := 0, pP := 0, pdir := .N },n)
  else
    let h ← stFix h n node dir
    let h ← stSplay h node fuel
    return (h,0)

/-- The relinking of `st_rem` once the node is at the root: its subtrees are joined below `root`. -/
def stJoin (h : StHeap κ) (root node : Addr) (fuel : ℕ) : Option (StHeap κ) :=
  if (h node).pL = 0 ∧ (h node).pR = 0 then stFix h root 0 .P
  else if (h node).pR = 0 then stFix h root (h node).pL .P
  else if (h node).pL = 0 then stFix h root (h node).pR .P
  else do
    let rep ← rightmost h (h node).pL fuel
    let h ← stFix h root (h node).pL .P
    let h ← stSplay h rep fuel
    if (h rep).pR ≠ 0 then none
    else stFix h rep (h node).pR .R

def stRem (h : StHeap κ) (node : Addr) (fuel : ℕ) : Option (StHeap κ) := do
  let node ← nonnull node
  if (h node).tree = 0 then return h
  let root := (h node).tree
  let h ← stSplay h node fuel
  let h ← stJoin h root node fuel
  return h.put node { h node with pL := 0, pR := 0, pP := 0, pdir := .N }

end Catlib.Splay
