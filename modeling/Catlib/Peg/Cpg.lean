import Catlib.Logic.Loop
import Catlib.Peg.Semantics
import Mathlib.Algebra.Order.Ring.Int

/-! # The matcher of cpg.c

A compiled grammar is a table of nodes that refer to each other by index. The matcher
walks the table with one shared cursor and fills its buffer on demand. A failed
assertion and an access outside the table, the buffer or a character set have no
result; a reallocation always succeeds, and the tracing of the debug mode is left out.
-/
namespace Catlib.Peg

/-- The values of `pn_type`. -/
inductive PegType where
  | none
  | definition
  | sequence
  | primary
  | identifier
  | literal
  | cls
  deriving DecidableEq

/-- The values of the prefix and suffix flags. -/
inductive PegAttr where
  | none
  | and
  | not
  | question
  | star
  | plus
  deriving DecidableEq

/-- The values of `pp_action`. -/
inductive PegAct where
  | none
  | code
  | label
  | callback
  deriving DecidableEq

/-- `struct peg_node`: the fields that the matcher reads. The string is the text of a
literal or the set of a class; `subnode` is also the definition of an identifier, and
`next` the expression of a definition. -/
structure PegNode (σ : Type) where
  type : PegType
  str : List UInt8
  next : ℤ
  subnode : ℤ
  action : PegAct
  pfx : PegAttr
  sfx : PegAttr
  actionCb : ℤ → List UInt8 → σ → ℤ × σ

structure PegGrammar (σ : Type) where
  nodes : List (PegNode σ)
  numTokens : ℕ

structure Cursor where
  i : ℕ
  line : ℕ

/-- `struct cpg_state`; `inp` is what the stream still delivers, `aux` the client's data. -/
structure CpgState (σ : Type) where
  cur : Cursor
  buf : ℕ → UInt8
  buflen : ℕ
  readidx : ℕ
  eof : ℕ
  inp : List UInt8
  aux : σ

variable {σ : Type}

/-- The macros `NODE`, on a valid index, and `NODE_VALID`. -/
def PegGrammar.node (g : PegGrammar σ) (idx : ℤ) : Option (PegNode σ) := if idx < 0 then none else g.nodes[idx.toNat]?
def PegGrammar.valid (g : PegGrammar σ) (idx : ℤ) (type : PegType) : Option (PegNode σ) := do
  let pn ← g.node idx
  if pn.type = type then some pn else none

/-! ## Characters -/

def uintMod : ℕ := 2 ^ 32

/-- The buffer after a reallocation, which clears what it adds. -/
def CpgState.grow (s : CpgState σ) : CpgState σ :=
  { s with
    buf := fun k => if s.buflen ≤ k ∧ k < s.buflen + 4096 then 0 else s.buf k
    buflen := (s.buflen + 4096) % uintMod }

/-- The buffer after a character of the stream was appended. -/
def CpgState.append (s : CpgState σ) (c : UInt8) (inp : List UInt8) : CpgState σ :=
  { s with buf := fun k => if k = s.readidx then c else s.buf k, readidx := s.readidx + 1, inp := inp }

/-- The cursor behind a character; a line ends before the character after a newline. -/
def CpgState.next (s : CpgState σ) : CpgState σ :=
  { s with cur := ⟨s.cur.i + 1,if s.buf (s.cur.i - 1) = 10 then s.cur.line + 1 else s.cur.line⟩ }

/-- `cpg_init` with `cpg_reset`, before a stream that will deliver `w`. -/
def cpgInit (w : List UInt8) (aux : σ) : CpgState σ :=
  { cur := ⟨1,1⟩, buf := fun _ => 0, buflen := 4096, readidx := 1, eof := uintMod - 1, inp := w, aux := aux }

def growBuf (s : CpgState σ) : Option (CpgState σ) :=
  if s.buflen ≤ s.cur.i then
    if s.cur.i = s.buflen then some s.grow else none
  else some s

/-- The last lines of `cpg_getc`, which step over a character of the buffer. -/
def stepOver (s : CpgState σ) : Option (CpgState σ × Option UInt8) :=
  if s.cur.i = 0 ∨ s.buflen ≤ s.cur.i then none else some (s.next,some (s.buf s.cur.i))

/-- The read from the stream. -/
def fillBuf (s : CpgState σ) : Option (CpgState σ × Option UInt8) :=
  if s.cur.i ≠ s.readidx ∨ s.buflen ≤ s.readidx then none
  else
    match s.inp with
    | [] => some ({ s with eof := s.cur.i },none)
    | c :: inp => stepOver (s.append c inp)

/-- `cpg_getc`; no character stands for `EOF`. -/
def cpgGetc (s : CpgState σ) : Option (CpgState σ × Option UInt8) :=
  if s.eof ≤ s.cur.i then
    if s.cur.i = s.eof then some (s,none) else none
  else do
    let s ← growBuf s
    if s.readidx ≤ s.cur.i then fillBuf s else stepOver s

def csetContains (set : List UInt8) (ch : UInt8) : Option Bool :=
  (set[ch.toNat >>> 3]?).map (fun b => b.toNat &&& (1 <<< (ch.toNat &&& 7)) != 0)

/-! ## Terminals -/

/-- `PEG_TOKEN_ID` and `PEG_IDX_IS_TOKEN`. -/
def tokenId (idx : ℤ) : ℤ := -idx
def PegGrammar.isToken (g : PegGrammar σ) (idx : ℤ) : Bool :=
  128 ≤ tokenId idx && tokenId idx < 128 + g.numTokens

def cpgMatchToken (g : PegGrammar σ) (s : CpgState σ) (id : ℤ) : Option (CpgState σ × ℤ) := do
  let pn ← g.valid id .identifier
  let (s',c) ← cpgGetc s
  match c with
  | some c => if (c.toNat : ℤ) = tokenId pn.subnode then return (s',1) else return ({ s' with cur := s.cur },0)
  | none => return ({ s' with cur := s.cur },0)

/-- The loop of `cpg_match_literal` over the characters of the literal. -/
def literalLoop : List UInt8 → CpgState σ → Option (CpgState σ × Bool)
  | [], s => some (s,true)
  | b :: bs, s => do
    let (s,c) ← cpgGetc s
    if c = some b then literalLoop bs s else return (s,false)

def cpgMatchLiteral (g : PegGrammar σ) (s : CpgState σ) (lit : ℤ) : Option (CpgState σ × ℤ) := do
  let pn ← g.node lit
  let (s',ok) ← literalLoop pn.str s
  if ok then return (s',1) else return ({ s' with cur := s.cur },0)

def cpgMatchClass (g : PegGrammar σ) (s : CpgState σ) (cls : ℤ) : Option (CpgState σ × ℤ) := do
  let pn ← g.valid cls .cls
  let (s',c) ← cpgGetc s
  match c with
  | some c => do
    let b ← csetContains pn.str c
    if b then return (s',1) else return ({ s' with cur := s.cur },0)
  | none => return ({ s' with cur := s.cur },0)

/-! ## Expressions, sequences, primaries and identifiers -/

/-- A matching function: from a state and a node to a state and a return value. -/
abbrev Matcher (σ : Type) := CpgState σ → ℤ → Option (CpgState σ × ℤ)

/-- The loop of `cpg_match_expression` over the alternatives. -/
def exprBody (g : PegGrammar σ) (mseq : Matcher σ) (x : CpgState σ × ℤ) :
    Option (Turn (CpgState σ × ℤ) (CpgState σ × ℤ)) :=
  if x.2 ≥ 0 then do
    let (s,rv) ← mseq x.1 x.2
    if rv ≠ 0 then return .leave (s,rv)
    else
      let pn ← g.node x.2
      return .again (s,pn.next)
  else some (.leave (x.1,0))

/-- The loop of `cpg_match_sequence` over the primaries. -/
def seqBody (g : PegGrammar σ) (mpri : Matcher σ) (oc : Cursor) (x : CpgState σ × ℤ) :
    Option (Turn (CpgState σ × ℤ) (CpgState σ × ℤ)) :=
  if x.2 ≥ 0 then do
    let (s,rv) ← mpri x.1 x.2
    if rv ≤ 0 then return .leave ({ s with cur := oc },rv)
    else
      let pn ← g.node x.2
      return .again (s,pn.next)
  else some (.leave (x.1,1))

/-- The switch in `cpg_match_primary`. -/
def matchNode (g : PegGrammar σ) (mexpr mident : Matcher σ) (mtype : PegType) (k : ℤ) (s : CpgState σ) :
    Option (CpgState σ × ℤ) :=
  match mtype with
  | .sequence => mexpr s k
  | .identifier => mident s k
  | .literal => cpgMatchLiteral g s k
  | .cls => cpgMatchClass g s k
  | _ => none

/-- The do-while loop of `cpg_match_primary`, on the state and `nmatch`; it leaves with the
last return value. -/
def priBody (rep : Bool) (m : CpgState σ → Option (CpgState σ × ℤ)) (x : CpgState σ × ℕ) :
    Option (Turn (CpgState σ × ℕ) (CpgState σ × ℕ × ℤ)) := do
  let (s,rv) ← m x.1
  let nmatch := if rv > 0 then x.2 + 1 else x.2
  if rv > 0 ∧ rep then return .again (s,nmatch) else return .leave (s,nmatch,rv)

/-- The return value a suffix makes of the number of matches. -/
def suffixRv (sfx : PegAttr) (nmatch : ℕ) : Option ℤ :=
  match sfx with
  | .none => some (if nmatch = 1 then 1 else 0)
  | .question => some 1
  | .star => some 1
  | .plus => some (if nmatch ≥ 1 then 1 else 0)
  | _ => none

/-- The treatment of the prefix, which also restores the cursor. -/
def prefixRv (pfx : PegAttr) (oc : Cursor) (s : CpgState σ) (rv : ℤ) : Option (CpgState σ × ℤ) :=
  match pfx with
  | .none => some (if rv ≤ 0 then { s with cur := oc } else s,rv)
  | .not => some ({ s with cur := oc },if rv = 0 then 1 else 0)
  | .and => some ({ s with cur := oc },rv)
  | _ => none

/-- The call of the action at the end of `cpg_match_primary`. -/
def runAction (pn : PegNode σ) (pri : ℤ) (oc : Cursor) (s : CpgState σ) (rv : ℤ) : CpgState σ × ℤ :=
  if rv > 0 ∧ pn.action = .callback then
    let r := (List.range (s.cur.i - oc.i)).map (fun k => s.buf (oc.i + k))
    let (actRv,aux) := pn.actionCb pri r s.aux
    ({ s with aux := aux },if actRv < 0 then actRv else rv)
  else (s,rv)

mutual

def cpgMatchExpression (g : PegGrammar σ) : ℕ → Matcher σ
  | 0 => fun _ _ => none
  | fuel + 1 => fun s seq => loop (exprBody g (cpgMatchSequence g fuel)) fuel (s,seq)

def cpgMatchSequence (g : PegGrammar σ) : ℕ → Matcher σ
  | 0 => fun _ _ => none
  | fuel + 1 => fun s seq => do
    let pn ← g.valid seq .sequence
    loop (seqBody g (cpgMatchPrimary g fuel) s.cur) fuel (s,pn.subnode)

def cpgMatchPrimary (g : PegGrammar σ) : ℕ → Matcher σ
  | 0 => fun _ _ => none
  | fuel + 1 => fun s pri => do
    let pn ← g.valid pri .primary
    let rep := pn.sfx = .star ∨ pn.sfx = .plus
    let mn ← g.node pn.subnode
    let m := matchNode g (cpgMatchExpression g fuel) (cpgMatchIdentifier g fuel) mn.type pn.subnode
    let (s',nmatch,rv) ← loop (priBody rep m) fuel (s,0)
    if rv < 0 then return (s',rv)
    else
      let rv ← suffixRv pn.sfx nmatch
      let (s',rv) ← prefixRv pn.pfx s.cur s' rv
      return runAction pn pri s.cur s' rv

def cpgMatchIdentifier (g : PegGrammar σ) : ℕ → Matcher σ
  | 0 => fun _ _ => none
  | fuel + 1 => fun s id => do
    let pn ← g.node id
    if g.isToken pn.subnode then cpgMatchToken g s id
    else
      let d ← g.valid pn.subnode .definition
      cpgMatchExpression g fuel s d.next

end

end Catlib.Peg
