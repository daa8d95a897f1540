import Catlib.Peg.Parser.Nodes

/-! # The parser of peg.c

The functions that build nodes. Each of them has a result of -1, 0 or 1 and, with 1, an index and
the cursor behind what was read; the nesting of expressions in parentheses is a recursion with a
bound on its depth.
-/
namespace Catlib.Peg.Parser

open Traced (fail note get modify lift)

variable (E : Env)

abbrev Found : Type := Ret Unit (ℕ × PegCursor)

/-- `-1` after an error was set. -/
def failed {φ α : Type} [Inhabited φ] : PegM (Ret φ α) := pure (.fail default)

/-- The spacing behind what was found. -/
def spaced (m : PegM Found) : PegM Found := do
  match ← m with
  | .yes (nn,pc) => return .yes (nn,← lift (skipSpace E.input pc))
  | r => return r

/-! ## Identifiers -/

/-- `parse_id` up to the spacing. -/
def readId (pc : PegCursor) : PegM Found := do
  let s ← lift (rest E.input pc)
  if !isIdStart (s.headD 0) then return .no
  else
    let len := 1 + (s.tail.takeWhile isIdCont).length
    match ← findId (s.take len) with
    | some id => do
      note (.refs (← node id).status)
      updNode id fun pn => { pn with status := (pn.status + 1) % 65536 }
      return .yes (id,pc.skip len)
    | none => do
      match ← pegNodeNew E .identifier pc.line with
      | none => do
        setErr .nomem
        failed
      | some id => do
        let r ← copyStr E (s.take len) (← node id).str
        updNode id fun pn => { pn with str := r.1 }
        if r.2 then do
          updNode id fun pn => { pn with subnode := -1, status := 1 }
          return .yes (id,pc.skip len)
        else do
          setErr .nomem
          pegNodeFree E.fuel id
          failed

def parseId (pc : PegCursor) : PegM Found := spaced E (readId E pc)

def parseIdAndNotArrow (pc : PegCursor) : PegM Found := do
  match ← parseId E pc with
  | .yes (id,npc) => do
    match ← lift (stringMatch E.input [60,45] npc) with
    | some _ => do
      pegNodeFree E.fuel id
      return .no
    | none => return .yes (id,npc)
  | r => return r

/-! ## Literals and classes -/

/-- `parse_literal` up to the spacing. -/
def readLiteral (pc : PegCursor) : PegM Found := do
  let quote := (← lift (rest E.input pc)).headD 0
  if quote ≠ 34 ∧ quote ≠ 39 then return .no
  else
    match ← lift (literalLen E.input quote E.fuel (pc.skip 1) 0) with
    | .yes len => do
      match ← pegNodeNew E .literal pc.line with
      | none => do
        setErr .nomem
        failed
      | some nn => do
        match ← malloc E with
        | none => do
          setErr .nomem
          note .noText
          pegNodeFree E.fuel nn
          failed
        | some id => do
          let r ← lift (literalBytes E.input (len - 1) (pc.skip 1))
          updNode nn fun pn => { pn with str := ⟨.block id r.1,some (len - 1)⟩ }
          return .yes (nn,r.2.skip 1)
    | .fail e => do
      setBad e
      failed
    | .no => failed

def parseLiteral (pc : PegCursor) : PegM Found := spaced E (readLiteral E pc)

/-- `parse_class` up to the spacing. -/
def readClass (pc : PegCursor) : PegM Found := do
  let c := (← lift (rest E.input pc)).headD 0
  if c ≠ 91 ∧ c ≠ 46 then return .no
  else
    match ← pegNodeNew E .cls pc.line with
    | none => do
      setErr .nomem
      failed
    | some nn => do
      match ← malloc E with
      | none => do
        note .noText
        pegNodeFree E.fuel nn
        setErr .nomem
        failed
      | some id => do
        match ← lift (classChars E.input c E.fuel pc) with
        | .yes (cset,npc) => do
          let s ← lift (rest E.input npc)
          if c ≠ 46 ∧ s.headD 0 = 0 then do
            setBad (.badClass,npc)
            note .badClass
            free (.block id cset)
            pegNodeFree E.fuel nn
            failed
          else do
            updNode nn fun pn => { pn with str := ⟨.block id cset,some 32⟩ }
            return .yes (nn,npc.skip 1)
        | .fail e => do
          setBad e
          note .badClass
          failed
        | .no => failed

def parseClass (pc : PegCursor) : PegM Found := spaced E (readClass E pc)

/-! ## Code and labels -/

def parseCode (pc : PegCursor) : PegM (Ret Unit (Raw × PegCursor)) := do
  match ← lift (codeEnd E.input E.fuel pc) with
  | .no => return .no
  | .fail e => do
    setBad e
    failed
  | .yes npc => do
    let s ← lift (rest E.input pc)
    let r ← copyStr E (s.take (npc.pos - pc.pos)) ⟨.null,some 0⟩
    if r.2 then return .yes (r.1,← lift (skipSpace E.input npc)) else failed

def parseActionLabel (pc : PegCursor) : PegM (Ret Unit (Raw × PegCursor)) := do
  match ← lift (stringMatch E.input [58] pc) with
  | none => return .no
  | some npc => do
    let s ← lift (rest E.input npc)
    if !isIdStart (s.headD 0) then return .no
    else
      let len := 1 + (s.tail.takeWhile isIdCont).length
      let r ← copyStr E (s.take len) ⟨.null,some 0⟩
      if r.2 then return .yes (r.1,← lift (skipSpace E.input (npc.skip len))) else failed

/-! ## Expressions -/

/-- The alternatives in the order in which `string_match` tries them. -/
def matchOne {α : Type} : List (UInt8 × α) → α → PegCursor → Scan (α × PegCursor)
  | [], a, pc => pure (a,pc)
  | (c,b) :: l, a, pc => do
    match ← stringMatch E.input [c] pc with
    | some npc => return (b,npc)
    | none => matchOne l a pc

/-- The first call of a list that does not return 0. -/
def firstOf {α : Type} : List (PegM (Ret Unit α)) → PegM (Ret Unit α)
  | [] => pure .no
  | f :: fs => do
    match ← f with
    | .no => firstOf fs
    | r => return r

/-- `parse_paren_expr`, with `parse_expr`. -/
def parseParenExpr (parseExpr : PegCursor → PegM Found) (pc : PegCursor) : PegM Found := do
  match ← lift (stringMatch E.input [40] pc) with
  | none => return .no
  | some npc => do
    match ← parseExpr npc with
    | .fail _ => failed
    | .no => do
      pegNodeFree E.fuel (-1)
      setBad (.badParexpr,npc)
      failed
    | .yes (expr,npc) => do
      match ← lift (stringMatch E.input [41] npc) with
      | none => do
        pegNodeFree E.fuel expr
        setBad (.badParexpr,npc)
        failed
      | some npc => return .yes (expr,npc)

/-- The code or the label behind a primary, and the action. -/
def parseAction (pc : PegCursor) : PegM (Ret Unit (ℕ × Raw × PegCursor)) := do
  match ← parseCode E pc with
  | .fail _ => failed
  | .yes (r,npc) => return .yes (actCode,r,npc)
  | .no => do
    match ← parseActionLabel E pc with
    | .fail _ => failed
    | .yes (r,npc) => return .yes (actLabel,r,npc)
    | .no => return .yes (actNone,⟨.null,some 0⟩,pc)

def parsePrimary (parseExpr : PegCursor → PegM Found) (pc : PegCursor) : PegM Found := do
  let (pfx,npc) ← lift (matchOne E [(38,PegAttr.and),(33,.not)] .none pc)
  match ← firstOf [parseIdAndNotArrow E npc,parseParenExpr E parseExpr npc,parseLiteral E npc,parseClass E npc] with
  | .fail _ => do
    pegNodeFree E.fuel (-1)
    failed
  | .no =>
    if pfx = .none then return .no
    else do
      setBad (.badPrimary,pc)
      failed
  | .yes (mtch,npc) => do
    match ← pegNodeNew E .primary pc.line with
    | none => do
      setErr .nomem
      pegNodeFree E.fuel mtch
      failed
    | some pri => do
      let (sfx,npc) ← lift (matchOne E [(63,PegAttr.question),(42,.star),(43,.plus)] .none npc)
      match ← parseAction E npc with
      | .yes (action,r,npc) => do
        updNode pri fun pn =>
          { pn with next := -1, subnode := mtch, flag1 := pfx, flag2 := sfx, status := action, str := r }
        return .yes (pri,npc)
      | _ => do
        pegNodeFree E.fuel mtch
        failed

/-- The loop of `parse_seq`: what comes behind the primary `pri`. -/
def seqLoop (parseExpr : PegCursor → PegM Found) (seq : ℕ) : ℕ → ℕ → PegCursor → PegM Found
  | 0, _, _ => fail .fuel
  | f + 1, pri, npc => do
    match ← parsePrimary E parseExpr npc with
    | .fail _ => do
      pegNodeFree E.fuel seq
      failed
    | .no => return .yes (seq,npc)
    | .yes (nn,npc) => do
      updNode pri fun pn => { pn with next := nn }
      seqLoop parseExpr seq f nn npc

/-- `parse_seq`. Without a primary the variable `pri` is stored as it is. -/
def parseSeq (parseExpr : PegCursor → PegM Found) (pc : PegCursor) : PegM Found := do
  match ← pegNodeNew E .sequence pc.line with
  | none => do
    setErr .nomem
    failed
  | some seq => do
    match ← parsePrimary E parseExpr pc with
    | .fail _ => do
      pegNodeFree E.fuel seq
      failed
    | .no => do
      note (.empty (E.junk seq))
      updNode seq fun pn => { pn with subnode := E.junk seq }
      return .yes (seq,pc)
    | .yes (pri,npc) => do
      updNode seq fun pn => { pn with subnode := pri }
      seqLoop E parseExpr seq E.fuel pri npc

/-- The loop of `parse_expr`: what comes behind the sequence `snn`. -/
def exprLoop (parseExpr : PegCursor → PegM Found) (expr : ℕ) : ℕ → ℕ → PegCursor → PegM Found
  | 0, _, _ => fail .fuel
  | f + 1, snn, npc => do
    match ← lift (stringMatch E.input [47] npc) with
    | none => return .yes (expr,npc)
    | some npc => do
      match ← parseSeq E parseExpr npc with
      | .fail _ => do
        setEloc npc
        pegNodeFree E.fuel expr
        failed
      | .no => do
        setBad (.badExpr,npc)
        pegNodeFree E.fuel expr
        failed
      | .yes (nn,npc) => do
        updNode snn fun pn => { pn with next := nn }
        exprLoop parseExpr expr f nn npc

/-- `parse_expr`, with the depth of the parentheses that it may still go down. -/
def parseExpr : ℕ → PegCursor → PegM Found
  | 0, _ => fail .fuel
  | d + 1, pc => do
    match ← parseSeq E (parseExpr d) pc with
    | .yes (expr,npc) => exprLoop E (parseExpr d) expr E.fuel expr npc
    | r => return r

/-! ## Definitions -/

def parseDef (pc : PegCursor) : PegM Found := do
  match ← parseId E pc with
  | .fail _ => failed
  | .no => return .no
  | .yes (id,npc) => do
    if 0 ≤ (← node id).subnode then do
      setBad (.dupDef,pc)
      failed
    else
      match ← lift (stringMatch E.input [60,45] npc) with
      | none => do
        pegNodeFree E.fuel id
        return .no
      | some npc => do
        match ← parseExpr E E.fuel npc with
        | .fail _ => do
          setEloc npc
          pegNodeFree E.fuel id
          failed
        | .no => do
          setBad (.badDef,npc)
          pegNodeFree E.fuel id
          failed
        | .yes (expr,npc) => do
          match ← pegNodeNew E .definition pc.line with
          | none => do
            pegNodeFree E.fuel id
            pegNodeFree E.fuel expr
            setErr .nomem
            failed
          | some dn => do
            updNode dn fun pn => { pn with subnode := id, next := expr }
            updNode id fun pn => { pn with subnode := dn }
            return .yes (id,npc)

/-! ## Grammars -/

/-- The bytes of a name that a live block holds. -/
def readName (r : Raw) : PegM (List UInt8) := do
  match r.data with
  | .unset => fail .unset
  | .null => fail .null
  | .block id bytes => if id ∈ (← get).live then return bytes else fail .freed

def isLower (c : UInt8) : Bool := 97 ≤ c && c ≤ 122
def isUpper (c : UInt8) : Bool := 65 ≤ c && c ≤ 90

/-- `add_undef_token`, and whether it returns 0. -/
def addUndefToken (id : ℕ) : PegM Bool := do
  let pi ← node id
  if !E.genTokens then return false
  else if 127 ≤ (← get).peg.numTokens then do
    setErr .tooManyTokens
    return false
  else
    let name ← readName pi.str
    if !(isLower (name.headD 0) || isUpper (name.headD 0)) then return false
    else if name.any isLower then return false
    else do
      let n := (← get).peg.numTokens
      modifyPeg fun g => { g with numTokens := n + 1 }
      updNode id fun pn => { pn with subnode := -(n + 128) }
      return true

/-- The loop of `check_unresolved_ids` over the indices, and whether it goes through. -/
def checkIds : List ℕ → PegM Bool
  | [] => pure true
  | i :: is => do
    let pi ← node i
    if pi.type = .identifier ∧ pi.subnode < 0 then
      if ← addUndefToken E i then checkIds is
      else if (← get).err ≠ .none then return false
      else do
        setErr .undefId
        modify fun s => { s with eloc := { s.eloc with pos := i } }
        let name ← readName pi.str
        modify fun s => { s with unknownId := name.take 255 }
        return false
    else checkIds is

def checkUnresolvedIds : PegM Bool := do checkIds E (List.range (← get).peg.maxNodes)

/-- The sweep of `peg_free_nodes` over the indices. -/
def freeAll : List ℕ → PegM Unit
  | [] => pure ()
  | i :: is => do
    pegNodeFree E.fuel i
    freeAll is

def pegFreeNodes : PegM Unit := do
  freeAll E (List.range (← get).peg.maxNodes)
  if (← get).peg.dynamic then do
    freeArray (← get).peg.array
    modifyPeg fun g => { g with nodes := [], array := none, maxNodes := 0, numNodes := 0, startNode := 0, dynamic := false }
  else pure ()

/-- The loop of `peg_parse` over the definitions. -/
def defsLoop : ℕ → PegCursor → PegM (Option PegCursor)
  | 0, _ => fail .fuel
  | f + 1, pc =>
    if pc.pos < E.input.length then do
      match ← parseDef E pc with
      | .fail _ => return none
      | .no => return some pc
      | .yes (_,pc) => defsLoop f pc
    else pure (some pc)

/-- `peg_parse`, from the point where its structures are initialised. -/
def pegParse : PegM ℤ := do
  let pc ← lift (skipSpace E.input ⟨0,1⟩)
  match ← parseDef E pc with
  | .fail _ => do
    pegFreeNodes E
    return -1
  | .no => do
    pegFreeNodes E
    return 0
  | .yes (start,pc) => do
    modifyPeg fun g => { g with startNode := start }
    match ← defsLoop E E.fuel pc with
    | none => do
      pegFreeNodes E
      return -1
    | some pc => do
      if ← checkUnresolvedIds E then do
        modify fun s => { s with len := pc.pos, nlines := pc.line }
        return 1
      else do
        pegFreeNodes E
        return -1

/-- The parser and the grammar as `peg_parse` sets them, with no memory of its own. -/
def pegStart : PegParser :=
  ⟨⟨[],none,0,0,0,-1,true⟩,0,1,.none,⟨0,1⟩,[],0,[]⟩

end Catlib.Peg.Parser
