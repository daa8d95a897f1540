import Catlib.Rex.Parse

/-! # rex_init with an allocator that may fail, and rex_free

The parse of `rex_init` with the table as it is given up at an error. `mem` says of each call of `mem_get`,
counted from zero, whether it gives a node; every node of the table but the first two comes from a call. The
release goes over the table and lists the nodes that it has freed: a read or a second release of one of them
has no result.
-/
namespace Catlib.Rex

/-! ## The parse -/

/-- `rex_parse_error`, with the table that is given up. -/
def rexParseError (ns : List RexNode) (rxnn : Loc) : List RexNode := setLink ns none rxnn

/-- The next call of `mem_get` but `k` gives a node. -/
def RexSt.gets (mem : ℕ → Bool) (x : RexSt) (k : ℕ) : Bool := mem (x.nodes.length - 2 + k)

/-- A node has been linked, and an error is found behind it. -/
def RexSt.spoil (x : RexSt) (n : RexNode) : List RexNode := rexParseError (x.append n x.p).nodes (.next x.nodes.length)

/-- The end of a function that parses one character. -/
def RexSt.finishMem (pat : List UInt8) (x : RexSt) (n : RexNode) (p : ℕ) : Option (Except (List RexNode) RexSt) := do
  match ← rexCheckRepitions pat n p with
  | .error _ => return .error (x.spoil n)
  | .ok (n,p) => return .ok (x.append n p)

def rexParseStrMem (junk : UInt8) (pat : List UInt8) (mem : ℕ → Bool) (x : RexSt) : Option (Except (List RexNode) RexSt) :=
  if !x.gets mem 0 then some (.error (rexParseError x.nodes x.rxnn))
  else do
    match ← parseChars pat x.p with
    | .error _ => return .error (x.spoil { type := .string })
    | .ok (str,op) =>
      match ← rexCheckRepitions pat { type := .string, str := str } op with
      | .error _ => return .error (x.spoil { type := .string, str := str })
      | .ok (rs,p) =>
        if p ≠ op ∧ str.length > 1 then
          if !x.gets mem 1 then return .error (x.spoil rs)
          else return .ok ((x.append { type := .string, str := str.dropLast } p).append { rs with str := [junk] } p)
        else return .ok (x.append rs p)

/-- `rex_parse_class`; the missing end of a class is reported, and then the parse goes on behind the pattern. -/
def rexParseClassMem (pat : List UInt8) (mem : ℕ → Bool) (x : RexSt) : Option (Except (List RexNode) RexSt) :=
  if x.p + 1 = pat.length then some (.error (rexParseError x.nodes x.rxnn))
  else do
    let c ← pat[x.p + 1]?
    let invert : Bool := c = 94
    let start := if invert then x.p + 2 else x.p + 1
    if start = pat.length then return .error (rexParseError x.nodes x.rxnn)
    else
      let c ← pat[start]?
      let last := classEnd pat (if c = 93 then start + 1 else start)
      if !x.gets mem 0 then return .error (rexParseError x.nodes x.rxnn)
      else
        match classLoop (List.replicate 32 0) none start ((pat.drop start).take (last - start)) with
        | .error _ => return .error (x.spoil { type := .cls })
        | .ok set =>
          let set := if invert then set.map fun b => ~~~b else set
          x.finishMem pat { type := .cls, set := set } (last + 1)

def rexParseAnyMem (pat : List UInt8) (mem : ℕ → Bool) (x : RexSt) : Option (Except (List RexNode) RexSt) :=
  if !x.gets mem 0 then some (.error (rexParseError x.nodes x.rxnn))
  else x.finishMem pat { type := .cls, set := List.replicate 32 255 } (x.p + 1)

def rexParseChoiceMem (mem : ℕ → Bool) (x : RexSt) : Option (Except (List RexNode) RexSt) :=
  if !x.gets mem 0 then some (.error (rexParseError x.nodes x.rxnn)) else (rexParseChoice x).map .ok

def rexParseGroupSMem (mem : ℕ → Bool) (x : RexSt) : Except (List RexNode) RexSt :=
  if !x.gets mem 0 then .error (rexParseError x.nodes x.rxnn) else .ok (rexParseGroupS x)

def rexParseAnchorMem (mem : ℕ → Bool) (x : RexSt) (type : RexType) : Except (List RexNode) RexSt :=
  if !x.gets mem 0 then .error (rexParseError x.nodes x.rxnn) else .ok (x.append { type := type } (x.p + 1))

def rexParseGroupEMem (pat : List UInt8) (mem : ℕ → Bool) (x : RexSt) : Option (Except (List RexNode) RexSt) :=
  match x.gstack with
  | none => some (.error (rexParseError x.nodes x.rxnn))
  | some rgs =>
    if !x.gets mem 0 then some (.error (rexParseError x.nodes x.rxnn))
    else do
      let g ← x.nodes[rgs]?
      let rge := x.nodes.length
      let y := x.append { type := .groupE, num := g.num, other := some rgs } (x.p + 1)
      let ns := y.nodes.modify rgs fun n => { n with other := some rge }
      let ns ← finalizeChoices ns rgs rge x.lastch
      let lastch ← lastChoice ns g.other
      let e ← ns[rge]?
      match ← rexCheckRepitions pat e (x.p + 1) with
      | .error _ => return .error (rexParseError ns (.next rge))
      | .ok (e,p) =>
        let ns := (ns.set rge e).modify rgs fun n => { n with repmin := e.repmin, repmax := e.repmax }
        return .ok { y with p := p, nodes := ns, gstack := g.other, lastch := lastch }

/-- A call of `rex_parse` up to the next one. -/
def rexBodyMem (junk : UInt8) (pat : List UInt8) (mem : ℕ → Bool) (x : RexSt) :
    Option (Turn RexSt (Except (List RexNode) (List RexNode))) :=
  if x.p = pat.length then
    if x.gstack.isSome then some (.leave (.error (rexParseError x.nodes x.rxnn)))
    else do
      let ns ← finalizeChoices (setLink x.nodes (some 1) x.rxnn) 0 1 x.lastch
      return .leave (.ok ns)
  else do
    let c ← pat[x.p]?
    let r ←
      if c ∈ [42,93,43,63,123,125] then some (.error (rexParseError x.nodes x.rxnn))
      else if c = 94 then some (rexParseAnchorMem mem x .banchor)
      else if c = 36 then some (rexParseAnchorMem mem x .eanchor)
      else if c = 40 then some (rexParseGroupSMem mem x)
      else if c = 91 then rexParseClassMem pat mem x
      else if c = 41 then rexParseGroupEMem pat mem x
      else if c = 46 then rexParseAnyMem pat mem x
      else if c = 124 then rexParseChoiceMem mem x
      else rexParseStrMem junk pat mem x
    match r with
    | .error ns => return .leave (.error ns)
    | .ok x => return .again x

/-- The state in which `rex_init` calls `rex_parse`. -/
def rexStart : RexSt := ⟨0,.next 0,rexGroups,none,none,0⟩

/-- `rex_init`: the table that is accepted, or the one that it releases before it fails. -/
def rexInitMem (junk : UInt8) (pat : List UInt8) (mem : ℕ → Bool) : Option (Except (List RexNode) (List RexNode × Bool)) := do
  match ← loop (rexBodyMem junk pat mem) (pat.length + 1) rexStart with
  | .error ns => return .error ns
  | .ok ns =>
    let a ← allPathsStart ns ((ns.length + 1) * (ns.length + 1)) 0
    return .ok (ns,a)

/-! ## The release -/

/-- `rex_free_help` with what has been freed before; the fuel bounds the depth of the recursion. -/
def rexFreeHelp (ns : List RexNode) : ℕ → Option ℕ → Option ℕ → List ℕ → Option (List ℕ)
  | 0, _, _, _ => none
  | f + 1, node, stop, freed =>
    match node with
    | none => some freed
    | some i =>
      if stop = some i then some freed
      else if i ∈ freed then none
      else do
        let n ← ns[i]?
        match n.type with
        | .groupS =>
          let freed ← rexFreeHelp ns f n.next n.other freed
          if i ∈ freed then none
          else
            let freed ← rexFreeHelp ns f n.other stop freed
            if i ∈ freed then none else return if n.num > 0 then i :: freed else freed
        | .choice =>
          let freed ← rexFreeHelp ns f n.opt1 stop freed
          if i ∈ freed then none
          else
            let freed ← rexFreeHelp ns f n.opt2 stop freed
            if i ∈ freed then none else return i :: freed
        | _ =>
          let freed ← rexFreeHelp ns f n.next stop freed
          if i ∈ freed then none else return i :: freed

def rexFree (ns : List RexNode) (fuel : ℕ) : Option (List ℕ) := rexFreeHelp ns fuel (some 0) (some 1) []

end Catlib.Rex
