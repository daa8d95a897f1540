import Catlib.Peg.Parser.Scan

/-! # The nodes of peg.c

The array of nodes and the blocks of memory: what is allocated and not freed yet, and how many
allocations were tried. A string that a node holds is a block with its contents, is null, or was
not set since the array got its memory. A text field of a node without a use in the parser (the
callback of an action, always null here) is left out.
-/
namespace Catlib.Peg.Parser

open Traced (fail note get modify)

/-- The `data` of a `struct raw`; the NUL behind a string is left out. -/
inductive Ptr where
  | unset
  | null
  | block (id : ℕ) (bytes : List UInt8)

/-- `struct raw`; no length is one that was not set. -/
structure Raw where
  data : Ptr
  len : Option ℕ

/-- `struct peg_node`. -/
structure PegNode where
  type : PegType
  str : Raw
  next : ℤ
  subnode : ℤ
  line : ℕ
  status : ℕ
  flag1 : PegAttr
  flag2 : PegAttr

/-- A node of memory that was just allocated: only its type is set. -/
def PegNode.fresh : PegNode := ⟨.none,⟨.unset,none⟩,0,0,0,0,.none,.none⟩

/-- `struct peg_grammar`; the block of the array is none when `nodes` is null. -/
structure PegGrammar where
  nodes : List PegNode
  array : Option ℕ
  maxNodes : ℕ
  numNodes : ℕ
  numTokens : ℕ
  startNode : ℤ
  dynamic : Bool

/-- `struct peg_grammar_parser`, and the memory: the number of allocations tried, and the blocks allocated
and not freed. -/
structure PegParser where
  peg : PegGrammar
  len : ℕ
  nlines : ℕ
  err : PegErr
  eloc : PegCursor
  unknownId : List UInt8
  tried : ℕ
  live : List ℕ

/-- What a run of the parser depends on: the text, the flag `PEG_GEN_TOKENS`, which allocations fail, what the
variable `pri` of `parse_seq` holds before it is set, and the turns for its loops and recursions. -/
structure Env where
  input : List UInt8
  genTokens : Bool
  fails : ℕ → Bool
  junk : ℕ → ℤ
  fuel : ℕ

abbrev PegM (α : Type) : Type := Traced Fault Event PegParser α

/-- `PEG_ACT_NONE`, `PEG_ACT_CODE` and `PEG_ACT_LABEL`, as values of `pn_status`. -/
def actNone : ℕ := 0
def actCode : ℕ := 1
def actLabel : ℕ := 2

/-! ## State -/

def modifyPeg (f : PegGrammar → PegGrammar) : PegM Unit := modify fun s => { s with peg := f s.peg }
def setErr (e : PegErr) : PegM Unit := modify fun s => { s with err := e }
def setEloc (pc : PegCursor) : PegM Unit := modify fun s => { s with eloc := pc }
def setBad (b : Bad) : PegM Unit := modify fun s => { s with err := b.1, eloc := b.2 }

/-- The macro `NODE`. -/
def node (i : ℕ) : PegM PegNode := do
  match (← get).peg.nodes[i]? with
  | some pn => return pn
  | none => fail .null

def setNode (i : ℕ) (pn : PegNode) : PegM Unit := modifyPeg fun g => { g with nodes := g.nodes.set i pn }
def updNode (i : ℕ) (f : PegNode → PegNode) : PegM Unit := do setNode i (f (← node i))

/-- The state with another node at an index. -/
def PegParser.withNode (s : PegParser) (i : ℕ) (pn : PegNode) : PegParser :=
  { s with peg := { s.peg with nodes := s.peg.nodes.set i pn } }

section Access

variable {s : PegParser} {i : ℕ} {pn : PegNode}

theorem node_ok (h : s.peg.nodes[i]? = some pn) : node i s = ⟨[],.ok (pn,s)⟩ := by
  show (match s.peg.nodes[i]? with
    | some pn => pure pn
    | none => fail .null : PegM PegNode) s = _
  rw [h]
  rfl

theorem updNode_ok (h : s.peg.nodes[i]? = some pn) (f : PegNode → PegNode) : updNode i f s = ⟨[],.ok ((),s.withNode i (f pn))⟩ := by
  rw [updNode,Traced.bind_apply,node_ok h]
  rfl

end Access

variable (E : Env)

def malloc : PegM (Option ℕ) := do
  let s ← get
  modify fun s => { s with tried := s.tried + 1 }
  if E.fails s.tried then return none
  else do
    modify fun t => { t with live := s.tried :: t.live }
    return some s.tried

/-- `free` of a block. -/
def freeBlock (id : ℕ) : PegM Unit := do
  if id ∈ (← get).live then modify fun s => { s with live := s.live.erase id } else fail .freed

def free : Ptr → PegM Unit
  | .unset => fail .unset
  | .null => pure ()
  | .block id _ => freeBlock id

/-- `free_str`, at the string of a node. -/
def freeStr (i : ℕ) : PegM Unit := do
  free (← node i).str.data
  updNode i fun pn => { pn with str := ⟨.null,some 0⟩ }

/-! ## Nodes -/

/-- The last lines of `peg_node_free`. -/
def dropNode (i : ℕ) : PegM Unit := do
  if (← get).peg.numNodes = 0 then fail (.abort .count)
  else do
    modifyPeg fun g => { g with numNodes := g.numNodes - 1 }
    updNode i fun pn => { pn with type := .none }

def pegNodeFree : ℕ → ℤ → PegM Unit
  | 0, _ => fail .deep
  | f + 1, nn => do
    if nn < 0 ∨ (← get).peg.maxNodes ≤ nn then return ()
    else
      let i := nn.toNat
      let pn ← node i
      match pn.type with
      | .none => return ()
      | .definition => do
        pegNodeFree f pn.subnode
        pegNodeFree f pn.next
        dropNode i
      | .sequence => do
        pegNodeFree f pn.subnode
        pegNodeFree f pn.next
        dropNode i
      | .primary => do
        pegNodeFree f pn.subnode
        pegNodeFree f pn.next
        if (← node i).status ≠ actNone then do
          freeStr i
          dropNode i
        else dropNode i
      | .identifier => do
        let n := (pn.status + 65535) % 65536
        setNode i { pn with status := n }
        if 0 < n then return ()
        else do
          freeStr i
          dropNode i
      | .literal => do
        freeStr i
        dropNode i
      | .cls => do
        freeStr i
        dropNode i

/-- `free` of the array, which can be null. -/
def freeArray : Option ℕ → PegM Unit
  | none => pure ()
  | some id => freeBlock id

/-- `realloc` of the array to `n` nodes. -/
def reallocNodes (n : ℕ) : PegM Bool := do
  match ← malloc E with
  | none => return false
  | some id => do
    freeArray (← get).peg.array
    modifyPeg fun g => { g with array := some id, nodes := g.nodes ++ List.replicate (n - g.nodes.length) .fresh }
    return true

/-- The first lines of `peg_node_new`: room for one more node. The first array has 16 nodes. -/
def growNodes : PegM Bool := do
  let g := (← get).peg
  if g.numNodes ≠ g.maxNodes then return true
  else if !g.dynamic then return false
  else if g.maxNodes = 0 then do
    modifyPeg fun g => { g with maxNodes := 8 }
    if ← reallocNodes E 16 then do
      modifyPeg fun g => { g with maxNodes := 16 }
      return true
    else do
      note .noArray
      return false
  else if (2 ^ 31 - 1) / 2 < g.maxNodes then return false
  else if ← reallocNodes E (2 * g.maxNodes) then do
    modifyPeg fun g => { g with maxNodes := 2 * g.maxNodes }
    return true
  else return false

def pegNodeNew (type : PegType) (line : ℕ) : PegM (Option ℕ) := do
  if !(← growNodes E) then return none
  else
    let g := (← get).peg
    if g.maxNodes ≤ g.numNodes then fail (.abort .slot)
    else
      let pn ← node g.numNodes
      if pn.type ≠ .none then fail (.abort .slot)
      else do
        modifyPeg fun g => { g with numNodes := g.numNodes + 1 }
        setNode g.numNodes { pn with type := type, line := line, next := -1, subnode := -1, status := 0 }
        return some g.numNodes

/-! ## Identifiers -/

/-- `cmp_raw` of a name with the string of an identifier, and whether it says that they are equal. -/
def sameName (name : List UInt8) (r : Raw) : PegM Bool := do
  match r.len with
  | none => fail .unset
  | some n =>
    if n ≠ name.length then return false
    else
      match r.data with
      | .unset => fail .unset
      | .null => fail .null
      | .block id bytes => if id ∈ (← get).live then return bytes == name else fail .freed

/-- The loop of `find_id` over the indices. -/
def findIdIn (name : List UInt8) : List ℕ → PegM (Option ℕ)
  | [] => pure none
  | i :: is => do
    let pn ← node i
    if pn.type = .identifier then
      if ← sameName name pn.str then return some i else findIdIn name is
    else findIdIn name is

def findId (name : List UInt8) : PegM (Option ℕ) := do findIdIn name (List.range (← get).peg.maxNodes)

/-- `copy_str`, which leaves the length of the target as it is when there is no memory. -/
def copyStr (bytes : List UInt8) (r : Raw) : PegM (Raw × Bool) := do
  match ← malloc E with
  | none => do
    setErr .nomem
    return (⟨.null,r.len⟩,false)
  | some id => return (⟨.block id bytes,some bytes.length⟩,true)

end Catlib.Peg.Parser
