import Catlib.Logic.Loop
import Mathlib.Algebra.Order.Ring.Int
import Mathlib.Data.List.Basic

/-! # rex_init of match.c

A compiled pattern is a table of nodes that refer to each other by index; the start group is
node 0 and the end group node 1. Every parsing function ends with a call of `rex_parse`, so
the parse is one loop. A read outside the pattern, a use of a null pointer, a failed assertion
and an overflow have no result; an error has the position that is reported.
-/
namespace Catlib.Rex

inductive RexType where
  | string
  | cls
  | banchor
  | eanchor
  | choice
  | groupS
  | groupE
  deriving DecidableEq

/-- `struct rex_node` with the fields of the structures that begin with it. -/
structure RexNode where
  type : RexType
  repmin : ℕ := 1
  repmax : ℕ := 1
  next : Option ℕ := none
  str : List UInt8 := []
  set : List UInt8 := []
  opt1 : Option ℕ := none
  opt2 : Option ℕ := none
  num : ℕ := 0
  other : Option ℕ := none

/-- The address of a link. -/
inductive Loc where
  | next (i : ℕ)
  | opt1 (i : ℕ)
  | opt2 (i : ℕ)
  deriving DecidableEq

/-- A read of a link. -/
def getLink (ns : List RexNode) : Loc → Option (Option ℕ)
  | .next i => (ns[i]?).map (·.next)
  | .opt1 i => (ns[i]?).map (·.opt1)
  | .opt2 i => (ns[i]?).map (·.opt2)

/-- A write to a link. -/
def setLink (ns : List RexNode) (v : Option ℕ) : Loc → List RexNode
  | .next i => ns.modify i fun n => { n with next := v }
  | .opt1 i => ns.modify i fun n => { n with opt1 := v }
  | .opt2 i => ns.modify i fun n => { n with opt2 := v }

/-- `struct rex_parse_aux` with the position and the link that the next node goes to. -/
structure RexSt where
  p : ℕ
  rxnn : Loc
  nodes : List RexNode
  gstack : Option ℕ
  lastch : Option ℕ
  gnum : ℕ

def intMax : ℕ := 2 ^ 31 - 1

def rexWildcard : ℕ := 0

def isDigit (c : UInt8) : Bool := 48 ≤ c && c ≤ 57

/-! ## Repetitions -/

/-- The digits of a bound: their value and their number. -/
def boundLoop (v : ℕ) : List UInt8 → Option (ℕ × ℕ)
  | [] => none
  | c :: s =>
    if isDigit c then
      if v * 10 + (c.toNat - 48) > intMax then none else (boundLoop (v * 10 + (c.toNat - 48)) s).map fun r => (r.1,r.2 + 1)
    else some (v,0)

def internalWildcard : ℤ := 256

def parseBound (pat : List UInt8) (p : ℕ) : Option (ℤ × ℕ) := do
  let (v,n) ← boundLoop 0 (pat.drop p)
  if n = 0 then return (internalWildcard,p)
  else if v > 255 then return (-1,p)
  else return (v,p + n)

/-- The second bound in braces, behind the comma; `p` is the opening brace. -/
def parseUpper (pat : List UInt8) (p repmin p₁ : ℕ) : Option (Except ℤ (ℕ × ℕ × ℕ)) := do
  let (v,p₂) ← parseBound pat p₁
  if v < 1 then return .error p₂
  else
    let repmax := if v = internalWildcard then rexWildcard else v.toNat
    if repmin > repmax ∧ repmax ≠ rexWildcard then return .error p
    else
      let c ← pat[p₂]?
      if c ≠ 125 then return .error p₂ else return .ok (repmin,repmax,p₂ + 1)

/-- The bounds in braces and the position behind them; a bound is stored in an unsigned char. -/
def parseBraces (pat : List UInt8) (p : ℕ) : Option (Except ℤ (ℕ × ℕ × ℕ)) := do
  let (v,p₁) ← parseBound pat (p + 1)
  if v < 0 then return .error p₁
  else
    let repmin := if v = internalWildcard then 0 else v.toNat
    let c ← pat[p₁]?
    if c ≠ 44 then
      if c ≠ 125 ∨ v < 1 then return .error p₁
      else return .ok (repmin,v.toNat % 256,p₁ + 1)
    else parseUpper pat p repmin (p₁ + 1)

/-- `rex_check_repitions`: the node with its bounds, and the position behind them. -/
def rexCheckRepitions (pat : List UInt8) (rxn : RexNode) (p : ℕ) : Option (Except ℤ (RexNode × ℕ)) :=
  if p = pat.length then some (.ok (rxn,p))
  else do
    let c ← pat[p]?
    if c = 63 then return .ok ({ rxn with repmin := 0, repmax := 1 },p + 1)
    else if c = 42 then return .ok ({ rxn with repmin := 0, repmax := rexWildcard },p + 1)
    else if c = 43 then return .ok ({ rxn with repmin := 1, repmax := rexWildcard },p + 1)
    else if c = 123 then
      match ← parseBraces pat p with
      | .error e => return .error e
      | .ok (repmin,repmax,p) => return .ok ({ rxn with repmin := repmin, repmax := repmax },p)
    else return .ok (rxn,p)

/-! ## Strings -/

/-- The characters of `"*[](){}+?|.\\$^"`. -/
def special : List UInt8 := [42,91,93,40,41,123,125,43,63,124,46,92,36,94]

/-- `span_regular`; its inner loop stops at a null byte and the outer one steps over it. -/
def spanRegular : List UInt8 → ℕ → Option ℕ
  | _, 0 => some 0
  | [], _ + 1 => none
  | c :: s, k + 1 => if c ∈ special then some 0 else (spanRegular s k).map (· + 1)

/-- The state of the loop of `rex_parse_str`. -/
structure StrSt where
  p : ℕ
  maxlen : ℕ
  str : List UInt8

/-- The test at the end of the loop. -/
def strTest (x : StrSt) : Turn StrSt (Except ℤ (List UInt8 × ℕ)) :=
  if x.maxlen > 0 then .again x else .leave (.ok (x.str,x.p))

/-- The loop of `rex_parse_str`; an escape takes two bytes of the pattern and one of `maxlen`. -/
def strBody (pat : List UInt8) (x : StrSt) : Option (Turn StrSt (Except ℤ (List UInt8 × ℕ))) := do
  let span ← spanRegular (pat.drop x.p) x.maxlen
  if span = 0 then
    let c ← pat[x.p]?
    if c ≠ 92 then return .leave (.ok (x.str,x.p))
    else if x.maxlen < 2 then return .leave (.error x.p)
    else
      let e ← pat[x.p + 1]?
      return strTest ⟨x.p + 2,x.maxlen - 1,x.str ++ [e]⟩
  else return strTest ⟨x.p + span,x.maxlen - span,x.str ++ (pat.drop x.p).take span⟩

/-- The characters of a string node, at most 32. -/
def parseChars (pat : List UInt8) (p : ℕ) : Option (Except ℤ (List UInt8 × ℕ)) :=
  loop (strBody pat) 33 ⟨p,min (pat.length - p) 32,[]⟩

/-- The node that the link gets, and the link behind it. -/
def RexSt.append (x : RexSt) (n : RexNode) (p : ℕ) : RexSt :=
  { x with p := p, rxnn := .next x.nodes.length, nodes := setLink x.nodes (some x.nodes.length) x.rxnn ++ [n] }

/-- The end of a function that parses one character: its node is linked with its repetition. -/
def RexSt.finish (pat : List UInt8) (x : RexSt) (n : RexNode) (p : ℕ) : Option (Except ℤ RexSt) := do
  match ← rexCheckRepitions pat n p with
  | .error e => return .error e
  | .ok (n,p) => return .ok (x.append n p)

/-- `rex_parse_str`; a repetition goes to a node of its own, the character of which is never
stored: `junk` is what the allocation left there. -/
def rexParseStr (junk : UInt8) (pat : List UInt8) (x : RexSt) : Option (Except ℤ RexSt) := do
  match ← parseChars pat x.p with
  | .error e => return .error e
  | .ok (str,op) =>
    match ← rexCheckRepitions pat { type := .string, str := str } op with
    | .error e => return .error e
    | .ok (rs,p) =>
      if p ≠ op ∧ str.length > 1 then
        return .ok ((x.append { type := .string, str := str.dropLast } p).append { rs with str := [junk] } p)
      else return .ok (x.append rs p)

/-! ## Classes -/

def setAdd (set : List UInt8) (ch : UInt8) : List UInt8 := set.modify (ch.toNat >>> 3) fun b => b ||| (1 <<< (ch &&& 7))

/-- The characters from one to another. -/
def setRange (set : List UInt8) (ch last : UInt8) : List UInt8 :=
  (List.range (last.toNat - ch.toNat + 1)).foldl (fun set i => setAdd set (UInt8.ofNat (ch.toNat + i))) set

/-- The loop of `rex_parse_class` over the characters between the brackets, with the one before. -/
def classLoop (set : List UInt8) (prev : Option UInt8) (p : ℕ) : List UInt8 → Except ℤ (List UInt8)
  | [] => .ok set
  | [c] => .ok (setAdd set c)
  | c :: last :: s =>
    match prev with
    | none => classLoop (setAdd set c) (some c) (p + 1) (last :: s)
    | some ch =>
      if c = 45 then
        if ch > last then .error ((p : ℤ) - 1) else classLoop (setRange set ch last) (some last) (p + 2) s
      else classLoop (setAdd set c) (some c) (p + 1) (last :: s)

/-- The first position from one on that holds a closing bracket, or the end. -/
def classEnd (pat : List UInt8) (p : ℕ) : ℕ := p + ((pat.drop p).takeWhile (· ≠ 93)).length

/-- `rex_parse_class`; the missing end of a class is reported, and then nothing else happens. -/
def rexParseClass (pat : List UInt8) (x : RexSt) : Option (Except ℤ RexSt) :=
  if x.p + 1 = pat.length then some (.error ((x.p : ℤ) - 1))
  else do
    let c ← pat[x.p + 1]?
    let invert : Bool := c = 94
    let start := if invert then x.p + 2 else x.p + 1
    if start = pat.length then return .error ((x.p : ℤ) - 1)
    else
      let c ← pat[start]?
      let last := classEnd pat (if c = 93 then start + 1 else start)
      match classLoop (List.replicate 32 0) none start ((pat.drop start).take (last - start)) with
      | .error e => return .error e
      | .ok set =>
        let set := if invert then set.map fun b => ~~~b else set
        x.finish pat { type := .cls, set := set } (last + 1)

def rexParseAny (pat : List UInt8) (x : RexSt) : Option (Except ℤ RexSt) :=
  x.finish pat { type := .cls, set := List.replicate 32 255 } (x.p + 1)

/-! ## Choices and groups -/

/-- The link behind the last node of a list. -/
def travBody (ns : List RexNode) (trav : Loc) : Option (Turn Loc Loc) := do
  match ← getLink ns trav with
  | some j => return .again (.next j)
  | none => return .leave trav

/-- The loop of `finalize_choices` over the choices. -/
def finalizeBody (rge : ℕ) (x : List RexNode × ℕ) : Option (Turn (List RexNode × ℕ) (List RexNode)) := do
  let rn ← x.1[x.2]?
  if rn.type = .choice then
    let ns := setLink x.1 (some rge) (.next x.2)
    let trav ← loop (travBody ns) (ns.length + 1) (.opt1 x.2)
    let ns := setLink ns (some rge) trav
    let rc ← ns[x.2]?
    let rn ← rc.opt2
    return .again (ns,rn)
  else return .leave x.1

def finalizeChoices (ns : List RexNode) (rgs rge : ℕ) (lastch : Option ℕ) : Option (List RexNode) :=
  match lastch with
  | none => some ns
  | some _ => do
    let rg ← ns[rgs]?
    let head ← rg.next
    let rn ← ns[head]?
    if rn.type = .choice then loop (finalizeBody rge) (ns.length + 1) (ns,head) else none

def rexParseChoice (x : RexSt) : Option RexSt := do
  let rc := x.nodes.length
  let slot := match x.lastch with
    | none => Loc.next (x.gstack.getD 0)
    | some c => Loc.opt2 c
  let opt1 ← getLink x.nodes slot
  let ns := setLink (setLink x.nodes (some rc) slot) none x.rxnn ++ [{ type := .choice, opt1 := opt1 }]
  return { x with p := x.p + 1, rxnn := .opt2 rc, nodes := ns, lastch := some rc }

def rexParseGroupS (x : RexSt) : RexSt :=
  let rg := x.nodes.length
  { x.append { type := .groupS, num := x.gnum + 1, other := x.gstack } (x.p + 1) with
    gstack := some rg, lastch := none, gnum := x.gnum + 1 }

/-- The search for the last choice of the enclosing group. -/
def lastBody (ns : List RexNode) (rc : ℕ) : Option (Turn ℕ ℕ) := do
  let n ← ns[rc]?
  let o ← n.opt2
  let m ← ns[o]?
  if m.type = .choice then return .again o else return .leave rc

/-- The choice that goes on behind a group. -/
def lastChoice (ns : List RexNode) (gstack : Option ℕ) : Option (Option ℕ) :=
  match gstack with
  | none => some none
  | some rgn => do
    let n ← ns[rgn]?
    let head ← n.next
    let m ← ns[head]?
    if m.type = .choice then (loop (lastBody ns) (ns.length + 1) head).map some else return none

def rexParseGroupE (pat : List UInt8) (x : RexSt) : Option (Except ℤ RexSt) :=
  match x.gstack with
  | none => some (.error x.p)
  | some rgs => do
    let g ← x.nodes[rgs]?
    let rge := x.nodes.length
    let y := x.append { type := .groupE, num := g.num, other := some rgs } (x.p + 1)
    let ns := y.nodes.modify rgs fun n => { n with other := some rge }
    let ns ← finalizeChoices ns rgs rge x.lastch
    let lastch ← lastChoice ns g.other
    let e ← ns[rge]?
    match ← rexCheckRepitions pat e (x.p + 1) with
    | .error e => return .error e
    | .ok (e,p) =>
      let ns := (ns.set rge e).modify rgs fun n => { n with repmin := e.repmin, repmax := e.repmax }
      return .ok { y with p := p, nodes := ns, gstack := g.other, lastch := lastch }

/-! ## rex_parse and rex_init -/

/-- A call of `rex_parse` up to the next one. -/
def rexBody (junk : UInt8) (pat : List UInt8) (x : RexSt) : Option (Turn RexSt (Except ℤ (List RexNode))) :=
  if x.p = pat.length then
    if x.gstack.isSome then some (.leave (.error x.p))
    else do
      let ns ← finalizeChoices (setLink x.nodes (some 1) x.rxnn) 0 1 x.lastch
      return .leave (.ok ns)
  else do
    let c ← pat[x.p]?
    let r ←
      if c ∈ [42,93,43,63,123,125] then some (.error x.p)
      else if c = 94 then some (.ok (x.append { type := .banchor } (x.p + 1)))
      else if c = 36 then some (.ok (x.append { type := .eanchor } (x.p + 1)))
      else if c = 40 then some (.ok (rexParseGroupS x))
      else if c = 91 then rexParseClass pat x
      else if c = 41 then rexParseGroupE pat x
      else if c = 46 then rexParseAny pat x
      else if c = 124 then (rexParseChoice x).map .ok
      else rexParseStr junk pat x
    match r with
    | .error e => return .leave (.error e)
    | .ok x => return .again x

def allPathsStart (ns : List RexNode) : ℕ → ℕ → Option Bool
  | 0, _ => none
  | f + 1, rxn => do
    let n ← ns[rxn]?
    match n.type with
    | .banchor => return true
    | .groupS => do
      let next ← n.next
      allPathsStart ns f next
    | .choice => do
      let opt1 ← n.opt1
      if ← allPathsStart ns f opt1 then
        let opt2 ← n.opt2
        allPathsStart ns f opt2
      else return false
    | _ => return false

/-- The start and end groups of `struct rex_pat`. -/
def rexGroups : List RexNode := [{ type := .groupS, other := some 1 },{ type := .groupE, other := some 0 }]

/-- `rex_init`, up to the release of what was built before an error: the nodes and the anchor
flag, or the position of the error. -/
def rexInit (junk : UInt8) (pat : List UInt8) : Option (Except ℤ (List RexNode × Bool)) := do
  match ← loop (rexBody junk pat) (pat.length + 1) ⟨0,.next 0,rexGroups,none,none,0⟩ with
  | .error e => return .error e
  | .ok ns =>
    let a ← allPathsStart ns ((ns.length + 1) * (ns.length + 1)) 0
    return .ok (ns,a)

end Catlib.Rex
