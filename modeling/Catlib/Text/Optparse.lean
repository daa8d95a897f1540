import Catlib.Logic.Runs
import Mathlib.Data.List.Perm.Basic
import Mathlib.Algebra.Group.Int.Defs
import Mathlib.Algebra.Group.Nat.Defs

/-! # Command line options, optparse.c

The entries of `argv` are pointers of any type, `txt` is the string behind one. The conversions of the C
library are a parameter: each answers with a value and with the number of characters it took. An access outside
of `argv` and a failed assertion answer with nothing.
-/
namespace Catlib.Optparse

abbrev Str := List UInt8

def ascii (s : String) : Str := s.toList.map fun c => UInt8.ofNat c.toNat

/-- `isalnum` in the C locale. -/
def isalnum (c : UInt8) : Bool := (48 ≤ c && c ≤ 57) || (65 ≤ c && c ≤ 90) || (97 ≤ c && c ≤ 122)

variable {α D : Type}

/-- `strtol` and `strtoul` with base 0, and `strtod`. -/
structure NumLib (D : Type) where
  strtol : Str → ℤ × ℕ
  strtoul : Str → ℕ × ℕ
  strtod : Str → D × ℕ

/-- The member of the union `attrib_t` that was stored last. -/
inductive Val (D : Type) where
  | str (s : Str)
  | int (i : ℤ)
  | uint (n : ℕ)
  | dbl (d : D)

def cloptNoarg : ℤ := 0
def cloptString : ℤ := 1
def cloptInt : ℤ := 2
def cloptUint : ℤ := 3
def cloptDouble : ℤ := 4

def cloretOption : ℤ := 0
def cloretUnkopt : ℤ := -1
def cloretNoparam : ℤ := -2
def cloretBadparam : ℤ := -3
def cloretReset : ℤ := -4

structure Clopt (D : Type) where
  type : ℤ
  ch : UInt8
  str : Option Str
  val : Val D

structure CloptParser (α D : Type) where
  options : List (Clopt D)
  argc : ℤ
  argv : List α
  vidx : ℤ
  nonOpt : ℕ
  /-- What is left of the cluster of short options, while there is one. -/
  chptr : Option Str
  errbuf : Str

/-- `optparse_reset` with an array of `argc` pointers. -/
def optparseReset (clp : CloptParser α D) (argv : List α) : CloptParser α D × ℤ :=
  if argv.length < 1 then (clp,-1)
  else if clp.options.any fun opt => opt.type < cloptNoarg || opt.type > cloptDouble || !isalnum opt.ch && opt.str.isNone
    then (clp,-1)
  else ({ clp with argc := argv.length, argv := argv, vidx := 1, nonOpt := 1, chptr := none },0)

/-- Entry `hi` goes to `lo`, and those from `lo` on move up by one. -/
def movedown (argv : List α) (lo hi : ℕ) : Option (List α) := do
  let hold ← argv[hi]?
  if lo < hi then return argv.take lo ++ hold :: ((argv.drop lo).take (hi - lo) ++ argv.drop (hi + 1))
  else return argv

/-- The conversion did not take the whole string. -/
def partly (arg : Str) (taken : ℕ) : Bool := taken = 0 || arg.drop taken ≠ [] || arg = []

/-- A long as an int of 32 bits. -/
def toInt (v : ℤ) : ℤ := (v + 2 ^ 31) % 2 ^ 32 - 2 ^ 31

def readArg (lib : NumLib D) (opt : Clopt D) (arg : Str) : Option (Clopt D × ℤ) :=
  if opt.type = cloptString then some ({ opt with val := .str arg },0)
  else if opt.type = cloptInt then
    some ({ opt with val := .int (toInt (lib.strtol arg).1) },if partly arg (lib.strtol arg).2 then -1 else 0)
  else if opt.type = cloptUint then
    some ({ opt with val := .uint ((lib.strtoul arg).1 % 2 ^ 32) },if partly arg (lib.strtoul arg).2 then -1 else 0)
  else if opt.type = cloptDouble then
    some ({ opt with val := .dbl (lib.strtod arg).1 },if partly arg (lib.strtod arg).2 then -1 else 0)
  else none

/-- What `snprintf` leaves in a buffer of `n` bytes. -/
def clip (n : ℕ) (s : Str) : Str := s.take (n - 1)

/-- `clopt_name` with the buffer of 64 bytes that both callers have. -/
def cloptName (opt : Clopt D) : Str :=
  match isalnum opt.ch, opt.str with
  | true, none => ascii "-" ++ [opt.ch]
  | true, some s => ascii "-" ++ [opt.ch] ++ ascii "," ++ clip (64 - 3) s
  | false, some s => clip 64 s
  | false, none => []

/-- An error: the parser asks for a reset from now on. -/
def fail (clp : CloptParser α D) (text : Str) : CloptParser α D := { clp with argc := -1, errbuf := clip 128 text }

/-- The entry at `vidx` is done with. -/
def consume (clp : CloptParser α D) : Option (CloptParser α D) := do
  let argv ← movedown clp.argv clp.nonOpt clp.vidx.toNat
  return { clp with argv := argv, nonOpt := clp.nonOpt + 1, vidx := clp.vidx + 1 }

/-- The loop of `parse_long_opt`; without a match it ends with the last option of the table. -/
def findLong (options : List (Clopt D)) (cp : Str) (elen : ℕ) : Option ℕ :=
  match options.findIdx? fun opt => opt.str.any fun s => s.take elen == cp.take elen with
  | some i => some i
  | none => if options = [] then none else some (options.length - 1)

/-- The parser afterwards, what `*optp` points to and what is returned. -/
abbrev Outcome (α D : Type) := CloptParser α D × Option ℕ × ℤ

variable (txt : α → Str) (lib : NumLib D)

def parseLongOpt (clp : CloptParser α D) : Option (Outcome α D) := do
  let entry ← clp.argv[clp.vidx.toNat]?
  let cp := txt entry
  let elen := cp.findIdx (· == 61)
  -- the text behind the equals sign
  let arg := if elen < cp.length then some (cp.drop (elen + 1)) else none
  match findLong clp.options cp elen with
  | none => return (fail clp (ascii "Unknown option: " ++ cp),none,cloretUnkopt)
  | some i =>
    let opt ← clp.options[i]?
    if opt.type ≠ cloptNoarg then
      match arg with
      | none => return (fail clp (ascii "No parameter for option " ++ cloptName opt),some i,cloretNoparam)
      | some arg =>
        let (opt',r) ← readArg lib opt arg
        if r < 0 then
          return (fail { clp with options := clp.options.set i { opt' with val := .str arg } }
            (ascii "Bad parameter for option " ++ cloptName opt ++ ascii ": " ++ arg),some i,cloretBadparam)
        else
          let clp ← consume { clp with options := clp.options.set i opt' }
          return (clp,some i,cloretOption)
    else
      match arg with
      | some arg =>
        return (fail { clp with options := clp.options.set i { opt with val := .str arg } }
          (ascii "Unwanted parameter for option " ++ cloptName opt ++ ascii ": " ++ arg),some i,cloretBadparam)
      | none =>
        let clp ← consume clp
        return (clp,some i,cloretOption)

def parseShortOpts (clp : CloptParser α D) : Option (Outcome α D) := do
  let cp ← clp.chptr
  let c := cp.headD 0
  match clp.options.findIdx? fun opt => isalnum opt.ch && opt.ch == c with
  | none => return (fail clp (ascii "Unknown option: -" ++ [c]),none,cloretUnkopt)
  | some i =>
    let opt ← clp.options[i]?
    if opt.type ≠ cloptNoarg then
      if cp.tail ≠ [] then
        let (opt',r) ← readArg lib opt cp.tail
        if r < 0 then
          return (fail { clp with options := clp.options.set i { opt' with val := .str cp.tail } }
            (ascii "Bad parameter for option " ++ cloptName opt ++ ascii ": " ++ cp.tail),some i,cloretBadparam)
        else
          let clp ← consume { clp with options := clp.options.set i opt' }
          return ({ clp with chptr := none },some i,cloretOption)
      else if clp.vidx ≥ clp.argc - 1 then
        return (fail clp (ascii "No parameter for option " ++ cloptName opt),some i,cloretNoparam)
      else
        let entry ← clp.argv[clp.vidx.toNat + 1]?
        let (opt',r) ← readArg lib opt (txt entry)
        if r < 0 then
          return (fail { clp with options := clp.options.set i { opt' with val := .str (txt entry) } }
            (ascii "Bad parameter for option " ++ cloptName opt ++ ascii ": " ++ txt entry),some i,cloretBadparam)
        else
          let clp ← consume { clp with options := clp.options.set i opt' }
          let clp ← consume clp
          return ({ clp with chptr := none },some i,cloretOption)
    else if cp.tail = [] then
      let clp ← consume clp
      return ({ clp with chptr := none },some i,cloretOption)
    else return ({ clp with chptr := some cp.tail },some i,cloretOption)

/-- A string that is no option: it does not start with a dash, or it is nothing else. -/
def isOperand (s : Str) : Bool := s.headD 0 ≠ 45 || s.tail = []

/-- The loop of `optparse_next` that looks for the next option, from `i` on in at most `n` turns. -/
def skip (argv : List α) (argc : ℤ) : ℕ → ℤ → Option ℤ
  | 0, i => some i
  | n + 1, i =>
    if i < argc then do
      let entry ← argv[i.toNat]?
      if isOperand (txt entry) then skip argv argc n (i + 1) else return i
    else some i

def dashes : Str := ascii "--"

/-- `optparse_next`, with what `*optp` was before. -/
def optparseNext (clp : CloptParser α D) (optp : Option ℕ) : Option (Outcome α D) :=
  if clp.argc ≤ 0 then
    some ({ clp with errbuf := clip 128 (ascii "Must call optparse_reset() upon error return code") },optp,cloretReset)
  else if clp.vidx < 0 then some (clp,optp,clp.nonOpt)
  else if clp.chptr.isSome then parseShortOpts txt lib clp
  else do
    let i ← skip txt clp.argv clp.argc clp.argv.length clp.vidx
    let clp := { clp with vidx := i }
    if i ≥ clp.argc then return (clp,optp,clp.nonOpt)
    let entry ← clp.argv[i.toNat]?
    if txt entry = dashes then
      let argv ← movedown clp.argv clp.nonOpt clp.vidx.toNat
      return ({ clp with argv := argv, nonOpt := clp.nonOpt + 1, vidx := -1 },optp,(clp.nonOpt + 1 : ℕ))
    else if (txt entry).take 2 = dashes then parseLongOpt txt lib clp
    else parseShortOpts txt lib { clp with chptr := some (txt entry).tail }

end Catlib.Optparse
