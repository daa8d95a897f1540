import Catlib.Logic.Traced
import Catlib.Peg.Cpg

/-! # What peg.c reads of its text

The functions of the parser that only look at the text: a cursor goes over the bytes in front of
the terminating NUL, which reads as 0, and a read behind it is a fault. A `char` is signed and has
8 bits. The record has the places where a comment or a quoted character of C code begins.
-/
namespace Catlib.Peg.Parser

open Traced (fail note)

/-- `struct peg_cursor`. -/
structure PegCursor where
  pos : ℕ
  line : ℕ
  deriving DecidableEq

def PegCursor.skip (pc : PegCursor) (n : ℕ) : PegCursor := { pc with pos := pc.pos + n }

/-- The end of a line that has `n` characters. -/
def PegCursor.newline (pc : PegCursor) (n : ℕ) : PegCursor := ⟨pc.pos + n,pc.line + 1⟩

/-- The assertions of peg.c: in `string_match`, in `parse_literal`, in `parse_code`, in `peg_node_new` and
in `peg_node_free`. -/
inductive Assertion where
  | position
  | decoded
  | code
  | slot
  | count
  deriving DecidableEq

/-- What stops a run: a read behind the NUL, a failed assertion, an array that is not there, a string that
was not set, one that was freed, and a loop or a recursion that does not end in the turns given to it. -/
inductive Fault where
  | read
  | abort (a : Assertion)
  | null
  | unset
  | freed
  | fuel
  | deep
  deriving DecidableEq

/-- What the record of a run has. `comment` and `quote` have the text behind the `#` and the quote, `refs` the
count of an identifier that is referred to once more, `empty` what an empty sequence stores as its first
primary; the others are a first allocation of the array that fails, a literal or a class whose string cannot
be allocated, and a class that is given up. -/
inductive Event where
  | comment (s : List UInt8)
  | quote (s : List UInt8)
  | refs (n : ℕ)
  | empty (j : ℤ)
  | noArray
  | noText
  | badClass

/-- A function that only reads the text. -/
abbrev Scan (α : Type) : Type := Traced Fault Event Unit α

/-- The values of `err`. -/
inductive PegErr where
  | none
  | nomem
  | badDef
  | dupDef
  | badExpr
  | badPrimary
  | badParexpr
  | badLiteral
  | undefId
  | badClass
  | badChar
  | badRange
  | badCode
  | tooManyTokens
  deriving DecidableEq

/-- The results -1, 0 and 1. -/
inductive Ret (φ α : Type) where
  | fail (e : φ)
  | no
  | yes (a : α)

/-- An error and `eloc`. -/
abbrev Bad : Type := PegErr × PegCursor

/-! ## Characters -/

/-- The sets that `peg_parse` initialises. -/
def isEol (c : UInt8) : Bool := c = 13 || c = 10
def isSpace (c : UInt8) : Bool := c = 32 || c = 9 || isEol c
def isIdStart (c : UInt8) : Bool := (97 ≤ c && c ≤ 122) || (65 ≤ c && c ≤ 90) || c = 95
def isIdCont (c : UInt8) : Bool := isIdStart c || (48 ≤ c && c ≤ 57)
def isDigit0to2 (c : UInt8) : Bool := 48 ≤ c && c ≤ 50
def isDigit0to7 (c : UInt8) : Bool := 48 ≤ c && c ≤ 55
def isCcode (c : UInt8) : Bool := !(c ∈ [34,39,47,123,125,13,10,0])

/-- The switch over the characters of `cs_special`. -/
def special : UInt8 → Option ℤ
  | 110 => some 10
  | 114 => some 13
  | 116 => some 9
  | 39 => some 39
  | 34 => some 34
  | 91 => some 91
  | 93 => some 93
  | 92 => some 92
  | _ => none

def charVal (c : UInt8) : ℤ := if c.toNat < 128 then c.toNat else c.toNat - 256
def toByte (c : ℤ) : UInt8 := UInt8.ofNat (c % 256).toNat
def digit (c : UInt8) : ℕ := c.toNat - 48

variable (input : List UInt8)

/-- The text from the cursor on. -/
def rest (pc : PegCursor) : Scan (List UInt8) :=
  if pc.pos ≤ input.length then pure (input.drop pc.pos) else fail .read

/-! ## Spacing -/

/-- The loop of `skip_space`. In a comment also the NUL is stepped over. -/
def skipSpaceFrom : List UInt8 → Bool → PegCursor → Scan PegCursor
  | [], inComment, pc => if inComment then fail .read else pure pc
  | c :: s, inComment, pc =>
    if c = 35 then do
      note (.comment s)
      skipSpaceFrom s true (pc.skip 1)
    else if isEol c then
      match s with
      | d :: s' => if c = 13 ∧ d = 10 then skipSpaceFrom s' false (pc.newline 2) else skipSpaceFrom (d :: s') false (pc.newline 1)
      | [] => skipSpaceFrom [] false (pc.newline 1)
    else if inComment || isSpace c then skipSpaceFrom s inComment (pc.skip 1)
    else pure pc

def skipSpace (pc : PegCursor) : Scan PegCursor := do skipSpaceFrom (← rest input pc) false pc

def stringMatch (pat : List UInt8) (pc : PegCursor) : Scan (Option PegCursor) :=
  if input.length < pc.pos then fail (.abort .position)
  else if input.length - pc.pos < pat.length then pure none
  else if pat.isPrefixOf (input.drop pc.pos) then do return some (← skipSpace input (pc.skip pat.length))
  else pure none

/-! ## Literals and classes -/

/-- `parse_char` at a text. -/
def decode (s : List UInt8) (pc : PegCursor) : Ret Bad (ℤ × PegCursor) :=
  let c := s.headD 0
  if c = 0 then .no
  else if c ≠ 92 then
    if isEol c then
      if c = 13 ∧ s.getD 1 0 = 10 then .yes (charVal c,pc.newline 2) else .yes (charVal c,pc.newline 1)
    else .yes (charVal c,pc.skip 1)
  else
    let d := s.getD 1 0
    if d = 0 then .fail (.badChar,pc.skip 1)
    else
      match special d with
      | some v => .yes (v,pc.skip 2)
      | none =>
        if !isDigit0to7 d then .fail (.badChar,pc)
        else if isDigit0to2 d && isDigit0to7 (s.getD 2 0) && isDigit0to7 (s.getD 3 0) then
          .yes ((digit d <<< 6 ||| digit (s.getD 2 0) <<< 3 ||| digit (s.getD 3 0) : ℕ),pc.skip 4)
        else if isDigit0to7 (s.getD 2 0) then .yes ((digit d <<< 3 ||| digit (s.getD 2 0) : ℕ),pc.skip 3)
        else .yes (digit d,pc.skip 2)

def parseChar (pc : PegCursor) : Scan (Ret Bad (ℤ × PegCursor)) := do return decode (← rest input pc) pc

/-- The first loop of `parse_literal`, which counts the characters up to a quote. -/
def literalLen (quote : UInt8) : ℕ → PegCursor → ℕ → Scan (Ret Bad ℕ)
  | 0, _, _ => fail .fuel
  | f + 1, npc, len => do
    match ← parseChar input npc with
    | .fail e => return .fail (e.1,npc)
    | .no => return .fail (.badLiteral,npc)
    | .yes (c,npc') => if c = charVal quote then return .yes (len + 1) else literalLen quote f npc' (len + 1)

/-- The second loop, which stores the characters. -/
def literalBytes : ℕ → PegCursor → Scan (List UInt8 × PegCursor)
  | 0, npc => pure ([],npc)
  | n + 1, npc => do
    match ← parseChar input npc with
    | .yes (c,npc') => do
      let r ← literalBytes n npc'
      return (toByte c :: r.1,r.2)
    | _ => fail (.abort .decoded)

/-- `cset_clear`, `cset_fill`, `cset_add` and `cset_rem`. -/
def csetClear : List UInt8 := List.replicate 32 0
def csetFill : List UInt8 := List.replicate 32 255
def csetAdd (set : List UInt8) (ch : UInt8) : List UInt8 := set.modify (ch.toNat >>> 3) (· ||| 1 <<< (ch &&& 7))
def csetRem (set : List UInt8) (ch : UInt8) : List UInt8 := set.modify (ch.toNat >>> 3) (· &&& ~~~(1 <<< (ch &&& 7)))

/-- The loop of `class_add_char` over a range. -/
def csetAddRange (set : List UInt8) (c1 c2 : ℤ) : List UInt8 :=
  (List.range (c2 + 1 - c1).toNat).foldl (fun set (k : ℕ) => csetAdd set (toByte (c1 + k))) set

def classAddChar (pc : PegCursor) (cset : List UInt8) : Scan (Ret Bad (List UInt8 × PegCursor)) := do
  match ← parseChar input pc with
  | .fail e => return .fail e
  | .no => return .fail (.badClass,pc)
  | .yes (c1,npc) => do
    if (← rest input npc).headD 0 ≠ 45 then return .yes (csetAdd cset (toByte c1),npc)
    else
      match ← parseChar input (npc.skip 1) with
      | .fail e => return .fail e
      | .no => return .fail (.badRange,pc)
      | .yes (c2,npc) => return .yes (csetAddRange cset c1 c2,npc)

/-- The loop of `parse_class`, up to a bracket or the NUL. -/
def classSet : ℕ → PegCursor → List UInt8 → Scan (Ret Bad (List UInt8 × PegCursor))
  | 0, _, _ => fail .fuel
  | f + 1, npc, cset => do
    let c := (← rest input npc).headD 0
    if c = 93 ∨ c = 0 then return .yes (cset,npc)
    else
      match ← classAddChar input npc cset with
      | .yes (cset,npc) => classSet f npc cset
      | r => return r

/-- The set of `parse_class`: of a dot, or of the ranges behind a bracket. -/
def classChars (c : UInt8) (fuel : ℕ) (pc : PegCursor) : Scan (Ret Bad (List UInt8 × PegCursor)) :=
  if c = 46 then pure (.yes (csetRem csetFill 0,pc)) else classSet input fuel (pc.skip 1) csetClear

/-! ## Code -/

def parseSlashChar (pc : PegCursor) : Scan (Option PegCursor) := do
  let s ← rest input pc
  let c := s.headD 0
  if !isDigit0to7 c then
    if c = 0 then return none else return some (pc.skip 1)
  else if isDigit0to2 c && isDigit0to7 (s.getD 1 0) && isDigit0to7 (s.getD 2 0) then return some (pc.skip 3)
  else if isDigit0to7 (s.getD 1 0) then return some (pc.skip 2)
  else return some (pc.skip 1)

/-- The cursor behind a carriage return, with the newline that may follow. -/
def PegCursor.cr (pc : PegCursor) (s : List UInt8) : PegCursor := if s.getD 1 0 = 10 then pc.newline 2 else pc.newline 1

/-- A double quote of the code, from behind its beginning; a cursor that comes back as an error is `eloc`. -/
def codeString : ℕ → PegCursor → Scan (Except PegCursor PegCursor)
  | 0, _ => fail .fuel
  | f + 1, npc => do
    let s ← rest input npc
    let c := s.headD 0
    if c = 34 then return .ok (npc.skip 1)
    else if c = 13 then codeString f (npc.cr s)
    else if c = 10 then codeString f (npc.newline 1)
    else if c = 92 then
      match ← parseSlashChar input (npc.skip 1) with
      | none => return .error (npc.skip 1)
      | some npc => codeString f npc
    else if c = 0 then return .error npc
    else codeString f (npc.skip 1)

/-- What stands behind a quote. At the NUL also that is stepped over. -/
def quotedChar (npc : PegCursor) : Scan (Option PegCursor) := do
  if (← rest input npc).headD 0 = 92 then parseSlashChar input (npc.skip 1) else return some (npc.skip 1)

/-- A quoted character of the code. -/
def codeQuote (npc : PegCursor) : Scan (Except PegCursor PegCursor) := do
  note (.quote (input.drop (npc.pos + 1)))
  match ← quotedChar input (npc.skip 1) with
  | none => return .error (npc.skip 2)
  | some npc => if (← rest input npc).headD 0 ≠ 39 then return .error npc else return .ok (npc.skip 1)

/-- A comment of the code, from behind its beginning. -/
def codeComment : ℕ → PegCursor → Scan (Except PegCursor PegCursor)
  | 0, _ => fail .fuel
  | f + 1, npc => do
    let s ← rest input npc
    let c := s.headD 0
    if c = 42 ∧ s.getD 1 0 = 47 then return .ok (npc.skip 2)
    else if c = 13 then codeComment f (npc.cr s)
    else if c = 10 then codeComment f (npc.newline 1)
    else if c = 0 then return .error npc
    else codeComment f (npc.skip 1)

/-- The body of the loop of `parse_code`, with `brace_depth`. -/
def codeItem (fuel : ℕ) (depth : ℕ) (npc : PegCursor) : Scan (Except PegCursor (ℕ × PegCursor)) := do
  let npc := npc.skip ((← rest input npc).takeWhile isCcode).length
  let s ← rest input npc
  let c := s.headD 0
  if c = 34 then return (← codeString input fuel (npc.skip 1)).map (depth,·)
  else if c = 39 then return (← codeQuote input npc).map (depth,·)
  else if c = 47 then
    if s.getD 1 0 ≠ 42 then return .ok (depth,npc.skip 1)
    else return (← codeComment input fuel (npc.skip 2)).map (depth,·)
  else if c = 13 then return .ok (depth,npc.cr s)
  else if c = 10 then return .ok (depth,npc.newline 1)
  else if c = 0 then return .error npc
  else if c = 123 then return .ok (depth + 1,npc.skip 1)
  else if c = 125 then return .ok (depth - 1,npc.skip 1)
  else fail (.abort .code)

def codeLoop (fuel : ℕ) : ℕ → ℕ → PegCursor → Scan (Except PegCursor PegCursor)
  | 0, _, _ => fail .fuel
  | f + 1, depth, npc => do
    match ← codeItem input fuel depth npc with
    | .error npc => return .error npc
    | .ok (depth,npc) => if 0 < depth then codeLoop fuel f depth npc else return .ok npc

/-- `parse_code` up to the copy of the text: the cursor behind the code. -/
def codeEnd (fuel : ℕ) (pc : PegCursor) : Scan (Ret Bad PegCursor) := do
  if (← rest input pc).headD 0 ≠ 123 then return .no
  else
    match ← codeLoop input fuel fuel 1 (pc.skip 1) with
    | .error npc => return .fail (.badCode,npc)
    | .ok npc => return .yes npc

end Catlib.Peg.Parser
