import Mathlib.Data.List.Nodup
import Mathlib.Data.List.Pairwise

/-! # Binary trees with parent links in a heap

Nodes sit at addresses of a heap and carry two child links, a parent link and the
slot of the parent they hang from. A heap tree is read through a zipper: the
subtree in focus, and the path of frames from the focus up to a sentinel whose
parent slot holds the root. Everything a relinking step has to establish is stated
about the focus alone; the path is framed.
-/
namespace Catlib.Linked

/-- Addresses; zero is the null pointer. -/
abbrev Addr := ℕ

/-- The slots of a node: left child, parent, right child, and the mark of an exact hit. -/
inductive Dir where
  | L | P | R | N
  deriving DecidableEq, Repr

@[ext] structure Node (δ κ : Type*) where
  pL : Addr
  pP : Addr
  pR : Addr
  pdir : Dir
  dat : δ
  tree : Addr
  key : κ

abbrev Heap (δ κ : Type*) := Addr → Node δ κ

variable {δ κ : Type*}

/-- The link in a slot; the exact-hit mark names no slot. -/
def Node.p (n : Node δ κ) : Dir → Addr
  | .L => n.pL
  | .P => n.pP
  | .R => n.pR
  | .N => 0

def Node.setP (n : Node δ κ) (d : Dir) (a : Addr) : Node δ κ :=
  match d with
  | .L => { n with pL := a }
  | .P => { n with pP := a }
  | .R => { n with pR := a }
  | .N => n

/-- Hang a node from the slot `s.2` of its new parent `s.1`. -/
def Node.hang (n : Node δ κ) (s : Addr × Dir) : Node δ κ := { n with pP := s.1, pdir := s.2 }

@[simp] theorem Node.p_L (n : Node δ κ) : n.p .L = n.pL := rfl
@[simp] theorem Node.p_P (n : Node δ κ) : n.p .P = n.pP := rfl
@[simp] theorem Node.p_R (n : Node δ κ) : n.p .R = n.pR := rfl
@[simp] theorem Node.setP_L (n : Node δ κ) (a : Addr) : n.setP .L a = { n with pL := a } := rfl
@[simp] theorem Node.setP_P (n : Node δ κ) (a : Addr) : n.setP .P a = { n with pP := a } := rfl
@[simp] theorem Node.setP_R (n : Node δ κ) (a : Addr) : n.setP .R a = { n with pR := a } := rfl
@[simp] theorem Node.setP_key (n : Node δ κ) (d : Dir) (a : Addr) : (n.setP d a).key = n.key := by
  cases d <;> rfl
@[simp] theorem Node.setP_tree (n : Node δ κ) (d : Dir) (a : Addr) : (n.setP d a).tree = n.tree := by
  cases d <;> rfl
@[simp] theorem Node.setP_dat (n : Node δ κ) (d : Dir) (a : Addr) : (n.setP d a).dat = n.dat := by
  cases d <;> rfl
@[simp] theorem Node.setP_pdir (n : Node δ κ) (d : Dir) (a : Addr) : (n.setP d a).pdir = n.pdir := by
  cases d <;> rfl

def Heap.put (h : Heap δ κ) (a : Addr) (n : Node δ κ) : Heap δ κ := fun x => if x = a then n else h x

@[simp] theorem Heap.put_self (h : Heap δ κ) (a : Addr) (n : Node δ κ) : h.put a n a = n := by
  simp [Heap.put]
theorem Heap.put_of_ne {h : Heap δ κ} {a x : Addr} {n : Node δ κ} (hx : x ≠ a) :
    h.put a n x = h x := by
  simp [Heap.put, hx]

/-- A pointer that is about to be followed. -/
def nonnull (a : Addr) : Option Addr := if a = 0 then none else some a

theorem nonnull_of_ne {a : Addr} (ha : a ≠ 0) : nonnull a = some a := by simp [nonnull, ha]

/-- Overwrite the datum, or the owner, of a node. -/
def setDat (h : Heap δ κ) (a : Addr) (d : δ) : Heap δ κ := h.put a { h a with dat := d }
def setTree (h : Heap δ κ) (a t : Addr) : Heap δ κ := h.put a { h a with tree := t }

section
variable (h : Heap δ κ) (a x : Addr) (d : δ)
@[simp] theorem setDat_self : (setDat h a d a).dat = d := by simp [setDat]
@[simp] theorem setDat_pL : (setDat h a d x).pL = (h x).pL := by
  by_cases hx : x = a
  · subst hx; simp [setDat]
  · simp [setDat, Heap.put_of_ne hx]
@[simp] theorem setDat_pP : (setDat h a d x).pP = (h x).pP := by
  by_cases hx : x = a
  · subst hx; simp [setDat]
  · simp [setDat, Heap.put_of_ne hx]
@[simp] theorem setDat_pR : (setDat h a d x).pR = (h x).pR := by
  by_cases hx : x = a
  · subst hx; simp [setDat]
  · simp [setDat, Heap.put_of_ne hx]
@[simp] theorem setDat_pdir : (setDat h a d x).pdir = (h x).pdir := by
  by_cases hx : x = a
  · subst hx; simp [setDat]
  · simp [setDat, Heap.put_of_ne hx]
end

/-! ## Primitive relinking -/

/-- Put `cld` into the slot `dir` of `par`, and let `cld` point back. -/
def fix (h : Heap δ κ) (par cld : Addr) (dir : Dir) : Option (Heap δ κ) :=
  if par = 0 ∨ dir = .N then none
  else
    let h := h.put par ((h par).setP dir cld)
    if cld = 0 then some h else some (h.put cld ((h cld).hang (par,dir)))

/-- Rotate the node `n` down to the left of its right child. -/
def rotL (h : Heap δ κ) (n : Addr) : Option (Heap δ κ) :=
  let c := (h n).pR
  if n = 0 ∨ c = 0 then none
  else do
    let h ← fix h n (h c).pL .R
    let h ← fix h (h n).pP c (h n).pdir
    fix h c n .L

/-- Rotate the node `n` down to the right of its left child. -/
def rotR (h : Heap δ κ) (n : Addr) : Option (Heap δ κ) :=
  let c := (h n).pL
  if n = 0 ∨ c = 0 then none
  else do
    let h ← fix h n (h c).pR .L
    let h ← fix h (h n).pP c (h n).pdir
    fix h c n .R

/-- Lift `n3` over its parent `n2` and its grandparent `n1`, from the left of the right child. -/
def zigL (h : Heap δ κ) (n1 n2 n3 : Addr) : Option (Heap δ κ) :=
  if n1 = 0 ∨ n2 = 0 ∨ n3 = 0 then none
  else do
    let h ← fix h n2 (h n3).pR .L
    let h ← fix h n1 (h n3).pL .R
    let h ← fix h (h n1).pP n3 (h n1).pdir
    let h ← fix h n3 n1 .L
    fix h n3 n2 .R

/-- Lift `n3` over its parent `n2` and its grandparent `n1`, from the right of the left child. -/
def zigR (h : Heap δ κ) (n1 n2 n3 : Addr) : Option (Heap δ κ) :=
  if n1 = 0 ∨ n2 = 0 ∨ n3 = 0 then none
  else do
    let h ← fix h n2 (h n3).pL .R
    let h ← fix h n1 (h n3).pR .L
    let h ← fix h (h n1).pP n3 (h n1).pdir
    let h ← fix h n3 n1 .R
    fix h n3 n2 .L

/-- Lift `n3` over its parent `n2` and its grandparent `n1`, all on a line of right children. -/
def zagL (h : Heap δ κ) (n1 n2 n3 : Addr) : Option (Heap δ κ) :=
  if n1 = 0 ∨ n2 = 0 ∨ n3 = 0 then none
  else do
    let h ← fix h n1 (h n2).pL .R
    let h ← fix h n2 (h n3).pL .R
    let h ← fix h (h n1).pP n3 (h n1).pdir
    let h ← fix h n3 n2 .L
    fix h n2 n1 .L

/-- Lift `n3` over its parent `n2` and its grandparent `n1`, all on a line of left children. -/
def zagR (h : Heap δ κ) (n1 n2 n3 : Addr) : Option (Heap δ κ) :=
  if n1 = 0 ∨ n2 = 0 ∨ n3 = 0 then none
  else do
    let h ← fix h n1 (h n2).pR .L
    let h ← fix h n2 (h n3).pR .L
    let h ← fix h (h n1).pP n3 (h n1).pdir
    let h ← fix h n3 n2 .R
    fix h n2 n1 .R

theorem fix_spec (h : Heap δ κ) (par cld : Addr) (dir : Dir) (hp : par ≠ 0) (hd : dir ≠ .N)
    (hne : par ≠ cld) : ∃ h', fix h par cld dir = some h' ∧ h' par = (h par).setP dir cld ∧
      (cld ≠ 0 → h' cld = (h cld).hang (par,dir)) ∧ ∀ x, x ≠ par → x ≠ cld → h' x = h x := by
  by_cases hc : cld = 0
  · subst hc
    exact ⟨h.put par ((h par).setP dir 0),by simp [fix, hp, hd],by simp,by simp,
      fun x hx _ => Heap.put_of_ne hx⟩
  · refine ⟨(h.put par ((h par).setP dir cld)).put cld ((h cld).hang (par,dir)),?_,?_,?_,?_⟩
    · simp [fix, hp, hd, hc, Heap.put_of_ne (Ne.symm hne)]
    · simp [Heap.put_of_ne hne]
    · simp
    · intro x hx hx'
      rw [Heap.put_of_ne hx',Heap.put_of_ne hx]

/-- Only the listed nodes may have changed, and none changed its key or its owner. -/
structure Keeps (h h' : Heap δ κ) (S : List Addr) : Prop where
  out : ∀ x, x ∉ S → h' x = h x
  key : ∀ x, (h' x).key = (h x).key
  tree : ∀ x, (h' x).tree = (h x).tree

theorem Keeps.refl (h : Heap δ κ) (S : List Addr) : Keeps h h S := ⟨fun _ _ => rfl,fun _ => rfl,fun _ => rfl⟩

theorem Keeps.trans {h₁ h₂ h₃ : Heap δ κ} {S : List Addr}
    (h12 : Keeps h₁ h₂ S) (h23 : Keeps h₂ h₃ S) : Keeps h₁ h₃ S :=
  ⟨fun x hx => (h23.out x hx).trans (h12.out x hx),fun x => (h23.key x).trans (h12.key x),
    fun x => (h23.tree x).trans (h12.tree x)⟩

theorem Keeps.mono {h h' : Heap δ κ} {S S' : List Addr} (hk : Keeps h h' S) (hS : ∀ x ∈ S, x ∈ S') : Keeps h h' S' :=
  ⟨fun x hx => hk.out x (fun hm => hx (hS x hm)),hk.key,hk.tree⟩

theorem Keeps.put {h : Heap δ κ} {a : Addr} {n : Node δ κ} (hk : n.key = (h a).key)
    (ht : n.tree = (h a).tree) : Keeps h (h.put a n) [a] := by
  refine ⟨fun x hx => Heap.put_of_ne (by simpa using hx),?_,?_⟩ <;>
  · intro x
    by_cases hx : x = a
    · subst hx; simp [hk, ht]
    · rw [Heap.put_of_ne hx]

theorem fix_keeps {h h' : Heap δ κ} {par cld : Addr} {dir : Dir} {S : List Addr}
    (hf : fix h par cld dir = some h') (hp : par ∈ S) (hc : cld ≠ 0 → cld ∈ S) : Keeps h h' S := by
  unfold fix at hf
  split at hf
  · cases hf
  · have h1 : Keeps h (h.put par ((h par).setP dir cld)) S :=
      (Keeps.put (by simp) (by simp)).mono (by simpa using hp)
    simp only at hf
    split at hf
    · cases hf; exact h1
    · rename_i h0
      cases hf
      have h2 : Keeps (h.put par ((h par).setP dir cld)) _ [cld] :=
        Keeps.put (n := ((h.put par ((h par).setP dir cld)) cld).hang (par,dir)) rfl rfl
      exact h1.trans (h2.mono (by simpa using hc h0))

/-! ## Trees and paths -/

/-- A tree of addresses, each with the datum stored at it. -/
inductive LTree (δ : Type*) where
  | nil
  | node (l : LTree δ) (a : Addr) (d : δ) (r : LTree δ)
  deriving Repr

/-- The address a link to the tree holds. -/
def LTree.ptr : LTree δ → Addr
  | .nil => 0
  | .node _ a _ _ => a

/-- The addresses in order. -/
def LTree.addrs : LTree δ → List Addr
  | .nil => []
  | .node l a _ r => l.addrs ++ a :: r.addrs

/-- One step of the path above a subtree: the node above, and its other subtree. -/
inductive Frame (δ : Type*) where
  | inL (a : Addr) (d : δ) (r : LTree δ)
  | inR (l : LTree δ) (a : Addr) (d : δ)

abbrev Spine (δ : Type*) := List (Frame δ)

def Frame.fill (t : LTree δ) : Frame δ → LTree δ
  | .inL a d r => .node t a d r
  | .inR l a d => .node l a d t

def Frame.addr : Frame δ → Addr
  | .inL a _ _ => a
  | .inR _ a _ => a

def Frame.dat : Frame δ → δ
  | .inL _ d _ => d
  | .inR _ _ d => d

def Frame.sib : Frame δ → LTree δ
  | .inL _ _ r => r
  | .inR l _ _ => l

def Frame.dir : Frame δ → Dir
  | .inL .. => .L
  | .inR .. => .R

/-- The whole tree around a focus. -/
def plug : Spine δ → LTree δ → LTree δ
  | [], t => t
  | f :: c, t => plug c (f.fill t)

/-- The slot the focus hangs from. -/
def slot (root : Addr) : Spine δ → Addr × Dir
  | [] => (root,.P)
  | f :: _ => (f.addr,f.dir)

/-- The addresses in order before the focus. -/
def lefts : Spine δ → List Addr
  | [] => []
  | .inL _ _ _ :: c => lefts c
  | .inR l a _ :: c => lefts c ++ (l.addrs ++ [a])

/-- The addresses in order after the focus. -/
def rights : Spine δ → List Addr
  | [] => []
  | .inL a _ r :: c => a :: r.addrs ++ rights c
  | .inR _ _ _ :: c => rights c

@[simp] theorem LTree.ptr_nil : (LTree.nil : LTree δ).ptr = 0 := rfl
@[simp] theorem LTree.ptr_node (l : LTree δ) (a : Addr) (d : δ) (r : LTree δ) : (LTree.node l a d r).ptr = a := rfl
@[simp] theorem LTree.addrs_nil : (LTree.nil : LTree δ).addrs = [] := rfl
@[simp] theorem LTree.addrs_node (l : LTree δ) (a : Addr) (d : δ) (r : LTree δ) :
    (LTree.node l a d r).addrs = l.addrs ++ a :: r.addrs := rfl
@[simp] theorem plug_nil (t : LTree δ) : plug [] t = t := rfl
@[simp] theorem plug_cons (f : Frame δ) (c : Spine δ) (t : LTree δ) : plug (f :: c) t = plug c (f.fill t) := rfl
@[simp] theorem fill_inL (t : LTree δ) (a : Addr) (d : δ) (r : LTree δ) :
    (Frame.inL a d r).fill t = .node t a d r := rfl
@[simp] theorem fill_inR (t : LTree δ) (l : LTree δ) (a : Addr) (d : δ) :
    (Frame.inR l a d).fill t = .node l a d t := rfl
@[simp] theorem slot_nil (root : Addr) : slot root ([] : Spine δ) = (root,.P) := rfl
@[simp] theorem slot_inL (root : Addr) (a : Addr) (d : δ) (r : LTree δ) (c : Spine δ) :
    slot root (.inL a d r :: c) = (a,.L) := rfl
@[simp] theorem slot_inR (root : Addr) (l : LTree δ) (a : Addr) (d : δ) (c : Spine δ) :
    slot root (.inR l a d :: c) = (a,.R) := rfl

theorem slot_dir_ne (root : Addr) (c : Spine δ) : (slot root c).2 ≠ .N := by
  cases c with
  | nil => simp
  | cons f c => cases f <;> simp

theorem addrs_plug (c : Spine δ) (t : LTree δ) : (plug c t).addrs = lefts c ++ t.addrs ++ rights c := by
  induction c generalizing t with
  | nil => simp [lefts, rights]
  | cons f c ih => cases f <;> simp [ih, lefts, rights]

theorem plug_append (c₁ c₂ : Spine δ) (t : LTree δ) : plug (c₁ ++ c₂) t = plug c₂ (plug c₁ t) := by
  induction c₁ generalizing t with
  | nil => rfl
  | cons f c₁ ih => exact ih (f.fill t)

theorem length_le_addrs (c : Spine δ) (t : LTree δ) : c.length ≤ (plug c t).addrs.length := by
  rw [addrs_plug]
  induction c with
  | nil => simp
  | cons f c ih => cases f <;> simp [lefts, rights] at ih ⊢ <;> omega

theorem exists_plug {t : LTree δ} {a : Addr} (ha : a ∈ t.addrs) : ∃ c l d r, plug c (.node l a d r) = t := by
  induction t with
  | nil => simp at ha
  | node l b d r ihl ihr =>
    have hout : ∀ (f : Frame δ) (c : Spine δ) (t : LTree δ), plug (c ++ [f]) t = f.fill (plug c t) := by
      intro f c
      induction c with
      | nil => exact fun _ => rfl
      | cons g c ih => exact fun t => ih (g.fill t)
    simp only [LTree.addrs_node, List.mem_append, List.mem_cons] at ha
    rcases ha with ha | rfl | ha
    · obtain ⟨c,l',e,r',rfl⟩ := ihl ha
      exact ⟨c ++ [.inL b d r],l',e,r',hout _ _ _⟩
    · exact ⟨[],l,d,r,rfl⟩
    · obtain ⟨c,l',e,r',rfl⟩ := ihr ha
      exact ⟨c ++ [.inR l b d],l',e,r',hout _ _ _⟩

theorem LTree.ptr_mem {t : LTree δ} (h : t.ptr ≠ 0) : t.ptr ∈ t.addrs := by
  cases t with
  | nil => simp at h
  | node l a d r => simp

theorem LTree.ptr_ne {t : LTree δ} {x : Addr} (h0 : x ≠ 0) (hx : x ∉ t.addrs) : x ≠ t.ptr := by
  rintro rfl
  exact hx (LTree.ptr_mem h0)

theorem LTree.ptr_eq_zero {t : LTree δ} (h : 0 ∉ t.addrs) : t.ptr = 0 ↔ t = .nil := by
  cases t with
  | nil => simp
  | node l a d r =>
    have ha : a ≠ 0 := by rintro rfl; simp at h
    simp [ha]

end Catlib.Linked
