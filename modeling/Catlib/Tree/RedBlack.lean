import Catlib.Tree.Rotate
import Catlib.Tree.Search

/-! # The red-black tree of rbtree.h

Every function walks the heap exactly as the source does, with the tree named by the
address of its sentinel `root` node. Following a null pointer and failing an
`abort_unless` both end in `none`.
-/
namespace Catlib.RedBlack
open Linked

/-- Node colours, `CRB_RED` and `CRB_BLACK`. -/
inductive Color where
  | red | black
  deriving DecidableEq, Repr

abbrev RbHeap (κ : Type) := Heap Color κ

variable {κ : Type}

def rbNinit (h : RbHeap κ) (n : Addr) (k : κ) : RbHeap κ :=
  h.put n { h n with pL := 0, pP := 0, pR := 0, pdir := .L, dat := .red, key := k }

/-- `rb_init`; `k` is the key stored in the sentinel, which nothing compares. -/
def rbInit (h : RbHeap κ) (t : Addr) (k : κ) : RbHeap κ :=
  let h := rbNinit h t k
  h.put t { h t with pdir := .P }

def rbFix (h : RbHeap κ) (par cld : Addr) (dir : Dir) : Option (RbHeap κ) := fix h par cld dir
def rbRleft (h : RbHeap κ) (n : Addr) : Option (RbHeap κ) := rotL h n
def rbRright (h : RbHeap κ) (n : Addr) : Option (RbHeap κ) := rotR h n

def rbFindloc (cmp : κ → κ → ℤ) (h : RbHeap κ) (t : Addr) (key : κ) (fuel : ℕ) : Option (Addr × Dir) :=
  findloc cmp h t key fuel

/-- `rb_lkup` without a place for the direction: the node with the key, or null. -/
def rbLkup (cmp : κ → κ → ℤ) (h : RbHeap κ) (t : Addr) (key : κ) (fuel : ℕ) : Option Addr := do
  let (p,dir) ← rbFindloc cmp h t key fuel
  if dir = .N then some p else some 0

/-- The macro `COL`: null links are black. -/
def col (h : RbHeap κ) (a : Addr) : Color := if a = 0 then .black else (h a).dat

/-! ## Insertion -/

/-- The recolouring below a red uncle, common to both sides. -/
def insRecolor (h : RbHeap κ) (par unc gp : Addr) : RbHeap κ :=
  setDat (setDat (setDat h par .black) unc .black) gp .red

/-- One turn of the loop of `rb_ins_at`. -/
def insBody (t : Addr) : RbHeap κ × Addr → Option (Turn (RbHeap κ × Addr) (RbHeap κ))
  | (h,node) =>
    if node = (h t).pP then some (.leave h)
    else do
      let par ← nonnull (h node).pP
      if (h par).dat ≠ .red then return .leave h
      let gp ← nonnull (h par).pP
      if (h par).pdir = .L then
        let unc := (h gp).pR
        if col h unc = .red then return .again (insRecolor h par unc gp,gp)
        -- an inner grandchild is first rotated outward
        let (h,node,par) ←
          if (h node).pdir = .R then do
            let h ← rbRleft h par
            pure (h,par,node)
          else pure (h,node,par)
        let h := setDat (setDat h par .black) gp .red
        let h ← rbRright h gp
        return .again (h,node)
      else
        let unc := (h gp).pL
        if col h unc = .red then return .again (insRecolor h par unc gp,gp)
        let (h,node,par) ←
          if (h node).pdir = .L then do
            let h ← rbRright h par
            pure (h,par,node)
          else pure (h,node,par)
        let h := setDat (setDat h par .black) gp .red
        let h ← rbRleft h gp
        return .again (h,node)

def rbInsAt (h : RbHeap κ) (t node par : Addr) (dir : Dir) (fuel : ℕ) : Option (RbHeap κ) := do
  let node ← nonnull node
  let h := setDat h node .red
  let h ← rbFix h par node dir
  let h ← loop (insBody t) fuel (h,node)
  let r ← nonnull (h t).pP
  return setDat h r .black

/-- `rb_ins`: the heap afterwards, and the node with an equal key that was replaced or
null. A null `loc` asks for the descent. -/
def rbIns (cmp : κ → κ → ℤ) (h : RbHeap κ) (t node loc : Addr) (atdir : Dir) (fuel : ℕ) :
    Option (RbHeap κ × Addr) :=
  if node = 0 then some (h,0)
  else do
    let (p,dir) ← locate cmp h t (h node).key loc atdir fuel
    if dir = .N then
      let h ← rbFix h node (h p).pL .L
      let h ← rbFix h node (h p).pR .R
      let h ← rbFix h (h p).pP node (h p).pdir
      let h := setDat h node (h p).dat
      let h := setTree h node t
      let h := setTree h p 0
      let h := setDat h p .red
      return (rbNinit h p (h p).key,p)
    else
      let h ← rbInsAt h t node p dir fuel
      return (setTree h node t,0)

/-! ## Removal -/

def rbFindrep (h : RbHeap κ) (node : Addr) (fuel : ℕ) : Option Addr := findrep h node fuel

/-- The first step at a deficient left link: a red sibling is rotated away. -/
def remRedL (h : RbHeap κ) (par : Addr) : Option (RbHeap κ × Addr) := do
  let tmp ← nonnull (h par).pR
  if (h tmp).dat = .red then
    let h := setDat (setDat h tmp .black) par .red
    let h ← rbRleft h par
    let tmp ← nonnull (h par).pR
    return (h,tmp)
  else return (h,tmp)

def remRedR (h : RbHeap κ) (par : Addr) : Option (RbHeap κ × Addr) := do
  let tmp ← nonnull (h par).pL
  if (h tmp).dat = .red then
    let h := setDat (setDat h tmp .black) par .red
    let h ← rbRright h par
    let tmp ← nonnull (h par).pL
    return (h,tmp)
  else return (h,tmp)

/-- The last steps at a deficient left link with a red nephew: rotations that end the loop. -/
def remEndL (h : RbHeap κ) (par tmp : Addr) : Option (RbHeap κ) := do
  let (h,tmp) ←
    if col h (h tmp).pR = .black then do
      let l ← nonnull (h tmp).pL
      let h := setDat (setDat h l .black) tmp .red
      let h ← rbRright h tmp
      let tmp ← nonnull (h par).pR
      pure (h,tmp)
    else pure (h,tmp)
  let h := setDat (setDat h tmp (h par).dat) par .black
  let r ← nonnull (h tmp).pR
  rbRleft (setDat h r .black) par

def remEndR (h : RbHeap κ) (par tmp : Addr) : Option (RbHeap κ) := do
  let (h,tmp) ←
    if col h (h tmp).pL = .black then do
      let r ← nonnull (h tmp).pR
      let h := setDat (setDat h r .black) tmp .red
      let h ← rbRleft h tmp
      let tmp ← nonnull (h par).pL
      pure (h,tmp)
    else pure (h,tmp)
  let h := setDat (setDat h tmp (h par).dat) par .black
  let l ← nonnull (h tmp).pL
  rbRright (setDat h l .black) par

/-- One turn of the loop of `rb_rem`: the link `cdir` of `par` is one black node short. -/
def remBody (t : Addr) : RbHeap κ × Addr × Dir → Option (Turn (RbHeap κ × Addr × Dir) (RbHeap κ × Addr × Dir))
  | (h,par,cdir) =>
    if cdir = .P then some (.leave (h,par,cdir))
    else do
      let par ← nonnull par
      if col h ((h par).p cdir) ≠ .black then return .leave (h,par,cdir)
      let (h,tmp) ← if cdir = .L then remRedL h par else remRedR h par
      if col h (h tmp).pL = .black ∧ col h (h tmp).pR = .black then
        let h := setDat h tmp .red
        return .again (h,(h par).pP,(h par).pdir)
      else
        let h ← if cdir = .L then remEndL h par tmp else remEndR h par tmp
        return .again (h,t,.P)

/-- The relinking of `rb_rem` before its loop: the deficient link and the colour that left. -/
def rbUnlink (h : RbHeap κ) (node : Addr) (fuel : ℕ) : Option (RbHeap κ × Addr × Dir × Color) := do
  let tmp ← rbFindrep h node fuel
  if tmp = 0 then
    let par := (h node).pP
    let cdir := (h node).pdir
    let h ← rbFix h par 0 cdir
    return (h,par,cdir,(h node).dat)
  else if tmp = (h node).pL ∨ tmp = (h node).pR then
    let (h,cdir) ←
      if tmp = (h node).pL then do
        let h ← rbFix h tmp (h node).pR .R
        pure (h,Dir.L)
      else pure (h,Dir.R)
    let h ← rbFix h (h node).pP tmp (h node).pdir
    return (setDat h tmp (h node).dat,tmp,cdir,(h tmp).dat)
  else
    let cdir := (h tmp).pdir
    let par := (h tmp).pP
    let h ← rbFix h par (h tmp).pL cdir
    let oldc := (h tmp).dat
    let h := setDat h tmp (h node).dat
    let h ← rbFix h tmp (h node).pL .L
    let h ← rbFix h tmp (h node).pR .R
    let h ← rbFix h (h node).pP tmp (h node).pdir
    return (h,par,cdir,oldc)

def rbRem (h : RbHeap κ) (node : Addr) (fuel : ℕ) : Option (RbHeap κ) := do
  let node ← nonnull node
  let t := (h node).tree
  let (h,par,cdir,oldc) ← rbUnlink h node fuel
  let h := rbNinit h node (h node).key
  if oldc = .red then return h
  let (h,par,cdir) ← loop (remBody t) fuel (h,par,cdir)
  let par ← nonnull par
  let c := (h par).p cdir
  if c = 0 then return h else return setDat h c .black

end Catlib.RedBlack
