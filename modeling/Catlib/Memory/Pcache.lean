import Catlib.Logic.Runs
import Mathlib.Data.List.Nodup
import Mathlib.Data.List.Perm.Basic
import Mathlib.Algebra.Group.Nat.Defs

/-! # The pool cache of pcache.c

Pages of items of one size, filed on three lists by how many of their items are free. A linked
list is the list of its elements, so taking an element off a list it is not on has no result. The
answers of the memory manager come with the calls; there is one cache, which all pages point at.
-/
namespace Catlib.PoolCache

/-- `sizeof(union pc_pool_u)` without debugging, `sizeof(cat_pcpad_t)` and `sizeof(cat_pitem_t)`. -/
def headSize : ℕ := 56
def padSize : ℕ := 8
def pitemSize : ℕ := 16

/-- `PC_DEF_SIZE`. -/
def defSize : ℕ := 65536

def imax : ℕ := 2 ^ 31 - 1

/-- `struct pool`. -/
structure Pool where
  items : List ℕ
  fill : ℕ
  max : ℕ

def alignOk (align : ℤ) : Prop := align < 0 ∨ align < 31

instance (align : ℤ) : Decidable (alignOk align) := inferInstanceAs (Decidable (_ ∨ _))

/-- `pl_isiz`: the size rounded up to the alignment. -/
def plIsiz (siz : ℕ) (align : ℤ) : Option ℕ :=
  if siz = 0 ∨ ¬alignOk align then none
  else
    let alen := max (if 0 ≤ align then 2 ^ align.toNat else 0) pitemSize
    let siz := max siz alen
    let n := siz % alen
    if 0 < n then if siz ≤ imax - (alen - n) then some (siz + (alen - n)) else none else some siz

def plInit (siz : ℕ) (align : ℤ) (mem : ℕ) (mlen : ℕ) : Option Pool :=
  if mem = 0 ∨ mlen = 0 then none
  else
    (plIsiz siz align).bind fun siz =>
      if align < 0 ∨ mem % 2 ^ align.toNat = 0 then
        let n := mlen / siz
        some ⟨(List.range n).map fun k => mem + k * siz,n,n⟩
      else none

/-- `pl_alloc`: null, or the first of the free items. -/
def plAlloc (p : Pool) : Option (ℕ × Pool) :=
  if p.fill = 0 then some (0,p)
  else
    match p.items with
    | [] => none
    | lp :: rest => some (lp,⟨rest,p.fill - 1,p.max⟩)

def plFree (p : Pool) (item : ℕ) : Pool := ⟨item :: p.items,p.fill + 1,p.max⟩

/-- The lists a page can be on. -/
inductive Filing where
  | avail
  | full
  | empty
  deriving DecidableEq

/-- `struct pcache`; of the memory manager only whether there is one. -/
structure Pcache where
  list : Filing → List ℕ
  asiz : ℕ
  pgsiz : ℕ
  npools : ℕ
  maxpools : ℕ
  hiwat : ℕ
  mm : Bool

/-- The pages the memory manager has given, their pools, and the pads in front of the items. -/
structure PcState where
  pc : Pcache
  held : List ℕ
  pool : ℕ → Pool
  pad : ℕ → ℕ

def pcInit (asiz pgsiz hiwat maxpools : ℕ) (mm : Bool) : Option Pcache :=
  if asiz = 0 ∨ pgsiz ≠ 0 ∧ ¬∃ n ∈ plIsiz asiz (-1), (headSize + n) % 2 ^ 64 ≤ pgsiz then none
  else
    some {
      list := fun _ => []
      asiz := (asiz + padSize) % 2 ^ 64
      pgsiz := if pgsiz = 0 then defSize else pgsiz
      npools := 0
      maxpools := if maxpools = 0 then 2 ^ 32 - 1 else maxpools
      hiwat := hiwat
      mm := mm }

/-! ## Lists -/

/-- `l_rem` of the entry of a page, which has to be on a list. -/
def Pcache.rem (pc : Pcache) (p : ℕ) : Option Pcache :=
  if p ∈ pc.list .avail ∨ p ∈ pc.list .full ∨ p ∈ pc.list .empty then some { pc with list := fun w => (pc.list w).filter (· ≠ p) } else none

/-- `l_ins` at the head of a list. -/
def Pcache.insFront (pc : Pcache) (w : Filing) (p : ℕ) : Pcache :=
  { pc with list := fun v => if v = w then p :: pc.list v else pc.list v }

/-- `l_ins` behind the last element. -/
def Pcache.insBack (pc : Pcache) (w : Filing) (p : ℕ) : Pcache :=
  { pc with list := fun v => if v = w then pc.list v ++ [p] else pc.list v }

/-! ## Calls -/

def PcState.setPool (s : PcState) (p : ℕ) (pool : Pool) : PcState :=
  { s with pool := fun x => if x = p then pool else s.pool x }

def pcAddpg (s : PcState) (page pgsiz : ℕ) : Option PcState :=
  if page = 0 ∨ ¬∃ n ∈ plIsiz s.pc.asiz (-1), (headSize + n) % 2 ^ 64 ≤ pgsiz then none
  else
    (plInit s.pc.asiz (-1) (page + headSize) (pgsiz - headSize)).map fun pool =>
      { s.setPool page pool with
        pc := { s.pc.insFront .avail page with npools := (s.pc.npools + 1) % 2 ^ 32 } }

/-- The first part of `pc_alloc`, which sees to it that there is an available page; or null. -/
def pcAvail (s : PcState) (memGet : Option ℕ) : Option (Option PcState) :=
  if s.pc.list .avail ≠ [] then some (some s)
  else
    match s.pc.list .full with
    | [] =>
      if s.pc.mm = false ∨ s.pc.npools = s.pc.maxpools then some none
      else
        match memGet with
        | none => some none
        | some pcp => (pcAddpg { s with held := pcp :: s.held } pcp s.pc.pgsiz).map some
    | pcp :: _ => (s.pc.rem pcp).map fun pc => some { s with pc := pc.insBack .avail pcp }

/-- The page is about to lose its last free item. -/
def pcEmpties (s : PcState) (pcp : ℕ) : Option PcState :=
  if (s.pool pcp).fill = 1 then (s.pc.rem pcp).map fun pc => { s with pc := pc.insFront .empty pcp } else some s

/-- The second part of `pc_alloc`, on the first available page. -/
def pcTake (s : PcState) : Option (ℕ × PcState) :=
  match s.pc.list .avail with
  | [] => none
  | pcp :: _ => do
    let s ← pcEmpties s pcp
    let (item,pool) ← plAlloc (s.pool pcp)
    if item = 0 then none
    else return (item + padSize,{ s.setPool pcp pool with pad := fun x => if x = item then pcp else s.pad x })

def pcAlloc (s : PcState) (memGet : Option ℕ) : Option (ℕ × PcState) :=
  (pcAvail s memGet).bind fun
    | none => some (0,s)
    | some s => pcTake s

/-- An item goes back to a page that had none free. -/
def pcRefill (s : PcState) (pcp : ℕ) : Option PcState :=
  if (s.pool pcp).fill = 0 then (s.pc.rem pcp).map fun pc => { s with pc := pc.insBack .avail pcp } else some s

/-- The end of `pc_free`: a page with all its items free is kept, or returned above the mark. -/
def pcRelease (s : PcState) (pcp : ℕ) : Option PcState :=
  if (s.pool pcp).fill = (s.pool pcp).max then
    (s.pc.rem pcp).bind fun pc =>
      if pc.mm ∧ 0 < pc.hiwat ∧ pc.hiwat < pc.npools then
        if pcp ∈ s.held then
          some { s with held := s.held.erase pcp, pc := { pc with npools := (pc.npools + (2 ^ 32 - 1)) % 2 ^ 32 } }
        else none
      else some { s with pc := pc.insFront .full pcp }
  else some s

def pcFree (s : PcState) (item : ℕ) : Option PcState :=
  if item = 0 then none
  else do
    let item := item - padSize
    let pcp := s.pad item
    let s ← pcRefill s pcp
    pcRelease (s.setPool pcp (plFree (s.pool pcp) item)) pcp

/-- `mem_free` of pages, one after the other. -/
def memFrees (held : List ℕ) : List ℕ → Option (List ℕ)
  | [] => some held
  | lp :: l => if lp ∈ held then memFrees (held.erase lp) l else none

def pcFreeall (s : PcState) : Option PcState :=
  if s.pc.mm = false then some s
  else
    (memFrees s.held (s.pc.list .avail)).bind fun held =>
      (memFrees held (s.pc.list .empty)).map fun held =>
        { s with held := held, pc := { s.pc with list := fun w => if w = .full then s.pc.list w else [] } }

/-! ## Runs -/

inductive PcOp
  | alloc (memGet : Option ℕ)
  | free (item : ℕ)
  | freeall

/-- A state with the items that have an owner. -/
structure Owned where
  s : PcState
  live : List ℕ

def pcStep (t : Owned) : PcOp → Option Owned
  | .alloc memGet => (pcAlloc t.s memGet).map fun r => ⟨r.2,if r.1 = 0 then t.live else r.1 :: t.live⟩
  | .free item => (pcFree t.s item).map fun s => ⟨s,t.live.erase item⟩
  | .freeall => (pcFreeall t.s).map fun s => ⟨s,t.live⟩

/-- The padded size of an item, and how many of them a page has room for. -/
def Pcache.isiz (pc : Pcache) : ℕ := (plIsiz pc.asiz (-1)).getD 0

def Pcache.cap (pc : Pcache) : ℕ := (pc.pgsiz - headSize) / pc.isiz

/-- The places for items in a page. -/
def Pcache.slots (pc : Pcache) (p : ℕ) : List ℕ := (List.range pc.cap).map fun k => p + headSize + k * pc.isiz

/-- A page has room for its head and an item. -/
def Pcache.Roomy (pc : Pcache) : Prop := ∃ n ∈ plIsiz pc.asiz (-1), headSize + n ≤ pc.pgsiz

def Owned.start (pc : Pcache) : Owned := ⟨⟨pc,[],fun _ => ⟨[],0,0⟩,fun _ => 0⟩,[]⟩

/-- A call: a page that the memory manager gives is outside all pages there are, an item that is
freed has an owner, and everything is freed at once only when no item has. -/
def Proper (t : Owned) : PcOp → Prop
  | .alloc memGet => ∀ p ∈ memGet, p ≠ 0 ∧ p + t.s.pc.pgsiz ≤ 2 ^ 64 ∧
      ∀ q ∈ t.s.held, p + t.s.pc.pgsiz ≤ q ∨ q + t.s.pc.pgsiz ≤ p
  | .free item => item ∈ t.live
  | .freeall => t.live = []

/-- What the cache promises in every state. -/
structure Fine (t : Owned) : Prop where
  once : ∀ w, (t.s.pc.list w).Nodup
  empty : ∀ p, p ∈ t.s.pc.list .empty ↔ p ∈ t.s.held ∧ ∀ x ∈ t.s.pc.slots p, x + padSize ∈ t.live
  full : ∀ p, p ∈ t.s.pc.list .full ↔ p ∈ t.s.held ∧ ∀ x ∈ t.s.pc.slots p, x + padSize ∉ t.live
  avail : ∀ p, p ∈ t.s.pc.list .avail ↔
    p ∈ t.s.held ∧ (∃ x ∈ t.s.pc.slots p, x + padSize ∈ t.live) ∧ ∃ x ∈ t.s.pc.slots p, x + padSize ∉ t.live
  npools : t.s.pc.npools = t.s.held.length
  page : ∀ y ∈ t.live, ∃! p, p ∈ t.s.held ∧ ∃ x ∈ t.s.pc.slots p, y = x + padSize
  owner : t.live.Nodup

/-- A call comes back with the cache as it should be; after the last one no page is left. -/
def Meets (t : Owned) (op : PcOp) : Prop := ∃ t', pcStep t op = some t' ∧ Fine t' ∧ (op = .freeall → t'.s.held = [])

/-- The calls that go well: a page is added only where it has room for an item, and everything is
freed only when there is no page. -/
def GoesWell (t : Owned) : PcOp → Prop
  | .alloc memGet => t.s.pc.list .avail = [] → t.s.pc.list .full = [] → t.s.pc.mm = true →
      t.s.pc.npools ≠ t.s.pc.maxpools → memGet ≠ none → t.s.pc.Roomy
  | .free _ => True
  | .freeall => t.s.pc.npools = 0

end Catlib.PoolCache
