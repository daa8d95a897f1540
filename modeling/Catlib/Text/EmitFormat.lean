import Catlib.Logic.Printf
import Catlib.Text.Cset

/-! # emit_format.c

The conversions of integers, to an emitter that takes all that it is given. An argument is a slot of 64 bits. The
conversions of characters, strings, pointers and floating point numbers have no result here.
-/
namespace Catlib.Text
open Printf (IsDigit asInt Flag Count Size Conv Directive)
open CLit (numeral)

/-! ## Parameters -/

inductive ArgSize where
  | reg
  | half
  | long
  | longlong
  | longdbl
  deriving DecidableEq

/-- `struct format_params` as `init_format_params` leaves it. -/
structure FormatParams where
  fmtchar : UInt8 := 32
  precision : ℤ := -1
  minwidth : ℤ := -1
  alternate : Bool := false
  posspace : Bool := false
  rightjust : Bool := true
  alwayssign : Bool := false
  zerofill : Bool := false
  argsize : ArgSize := .reg
  capver : Bool := false

/-- `INT_MAX`. -/
def maxInt : ℤ := 2 ^ 31 - 1

def isFmtChar (ch : UInt8) : Bool := (isAlpha ch || ch == 37) && ch != 104 && ch != 108 && ch != 76

/-- `strtol` in base 10 of a text that begins with a digit: the value, capped at `LONG_MAX`, and the rest. -/
def strtol (s : List UInt8) : ℤ × List UInt8 :=
  (min (numeral 10 (s.takeWhile fun c => decide (IsDigit c))) (2 ^ 63 - 1),s.dropWhile fun c => decide (IsDigit c))

/-- The variables of `get_format_flags`. -/
structure FlagScan where
  fmt : List UInt8
  fp : FormatParams
  ap : List (BitVec 64)
  pastperiod : Bool

/-- The precision, or the width; none where there is one already. -/
def setCount (x : FlagScan) (val : ℤ) : Option FlagScan :=
  if x.pastperiod then if x.fp.precision > 0 then none else some { x with fp.precision := val }
  else if x.fp.minwidth > 0 then none else some { x with fp.minwidth := val }

/-- A turn that goes on, or one that returns -1. -/
def counted : Option FlagScan → Turn FlagScan (Option FlagScan)
  | none => .leave none
  | some x => .again x

def FlagScan.setParams (x : FlagScan) (fmt : List UInt8) (fp : FormatParams) : FlagScan := { x with fmt := fmt, fp := fp }

/-- One turn of `get_format_flags`; it leaves with nothing where it returns -1. `longlong` is `CAT_HAS_LONGLONG`. -/
def flagsBody (longlong : Bool) (x : FlagScan) : Option (Turn FlagScan (Option FlagScan)) :=
  match x.fmt with
  | [] => none
  | nextc :: fmt =>
    if isFmtChar nextc then some (.leave (some (x.setParams fmt { x.fp with fmtchar := nextc })))
    else if IsDigit nextc ∧ (nextc ≠ 48 ∨ x.pastperiod = true) then
      let (val,fp2) := strtol x.fmt
      if val > maxInt then some (.leave none) else some (counted (setCount { x with fmt := fp2 } val))
    else if nextc = 45 then some (.again (x.setParams fmt { x.fp with rightjust := false }))
    else if nextc = 43 then some (.again (x.setParams fmt { x.fp with alwayssign := true }))
    else if nextc = 32 then some (.again (x.setParams fmt { x.fp with posspace := true }))
    else if nextc = 48 then some (.again (x.setParams fmt { x.fp with zerofill := true }))
    else if nextc = 35 then some (.again (x.setParams fmt { x.fp with alternate := true }))
    else if nextc = 42 then
      match x.ap with
      | [] => none
      | arg :: ap => if asInt arg < 0 then some (.leave none) else some (counted (setCount { x with fmt := fmt, ap := ap } (asInt arg)))
    else if nextc = 46 then if x.pastperiod then some (.leave none) else some (.again { x with fmt := fmt, pastperiod := true })
    else if nextc = 104 then
      if x.fp.argsize ≠ .reg then some (.leave none) else some (.again (x.setParams fmt { x.fp with argsize := .half }))
    else if nextc = 108 then
      if x.fp.argsize ≠ .reg then some (.leave none)
      else if longlong = true ∧ fmt.head? = some 108 then some (.again (x.setParams (fmt.drop 1) { x.fp with argsize := .longlong }))
      else some (.again (x.setParams fmt { x.fp with argsize := .long }))
    else if nextc = 76 then
      if x.fp.argsize ≠ .reg then some (.leave none) else some (.again (x.setParams fmt { x.fp with argsize := .longdbl }))
    else some (.leave none)

def getFormatFlags (longlong : Bool) (fmt : List UInt8) (ap : List (BitVec 64)) : Option (Option FlagScan) :=
  loop (flagsBody longlong) (fmt.length + 1) ⟨fmt,{},ap,false⟩

/-! ## Conversions -/

/-- The digits in the order in which they are pulled off. -/
def pulled (radix : ℕ) (capver : Bool) : ℕ → ℕ → List UInt8
  | 0, _ => []
  | k + 1, v =>
    if v > 0 then
      let xd := v % radix
      .ofNat (if xd < 10 then xd + 48 else if capver then xd - 10 + 65 else xd - 10 + 97) :: pulled radix capver k (v / radix)
    else []

def getUArg (fp : FormatParams) (ap : List (BitVec 64)) : Option (ℕ × List (BitVec 64)) :=
  match fp.argsize, ap with
  | .longdbl, ap => some (2 ^ 64 - 1,ap)
  | _, [] => none
  | .reg, arg :: ap => some ((arg.setWidth 32).toNat,ap)
  | .half, arg :: ap => some ((arg.setWidth 32).toNat,ap)
  | _, arg :: ap => some (arg.toNat,ap)

def getSArg (fp : FormatParams) (ap : List (BitVec 64)) : Option (ℤ × List (BitVec 64)) :=
  match fp.argsize, ap with
  | .longdbl, ap => some (-1,ap)
  | _, [] => none
  | .reg, arg :: ap => some (asInt arg,ap)
  | .half, arg :: ap => some (asInt arg,ap)
  | _, arg :: ap => some (arg.toInt,ap)

/-- What `fmt_int` and `fmt_u` have in common, which is all but the fill on the right: the length and what is emitted,
with the sign or the prefix `lead` and the digits in `buf`. -/
def fmtDigits (fp : FormatParams) (lead buf : List UInt8) (fill : UInt8) : Option (ℤ × List UInt8) :=
  let plen : ℤ := lead.length
  let i : ℤ := buf.length
  let ndigits := if fp.precision ≥ 0 ∧ fp.precision > i then fp.precision else i
  if ndigits + plen > maxInt then none
  else
    let ndigits := if fp.minwidth ≥ 0 ∧ fp.minwidth > ndigits + plen ∧ fp.zerofill then fp.minwidth - plen else ndigits
    let tnlen := ndigits + plen
    let pad := if fp.minwidth ≥ 0 ∧ fp.minwidth > tnlen then (fp.minwidth - tnlen).toNat else 0
    some (if fp.minwidth ≥ 0 ∧ fp.minwidth > tnlen then fp.minwidth else tnlen,
      (if fp.rightjust then List.replicate pad 32 else []) ++ lead ++ List.replicate (ndigits - i).toNat 48 ++ buf ++
        if fp.rightjust then [] else List.replicate pad fill)

/-- The rest of a format, the arguments that are left, the length and what is emitted. -/
abbrev Formatted := List (BitVec 64) × ℤ × List UInt8

def fmtInt (fp : FormatParams) (ap : List (BitVec 64)) : Option Formatted := do
  let (v,ap) ← getSArg fp ap
  let lead := if v < 0 then [45] else if fp.alwayssign then [43] else if fp.posspace then [32] else []
  let firstd : UInt8 := .ofNat (48 + (v.tmod 10).natAbs)
  let buf := (firstd :: pulled 10 false 64 (v.tdiv 10).natAbs).reverse
  let (flen,out) ← fmtDigits fp lead buf 32
  return (ap,flen,out)

def fmtU (fp : FormatParams) (radix : ℕ) (apfx : List UInt8) (v : ℕ) : Option (ℤ × List UInt8) :=
  let plen := if fp.alternate = true ∧ (fp.fmtchar ≠ 112 ∨ v ≠ 0) then apfx.length else 0
  let buf := if v = 0 then [48] else (pulled radix fp.capver 64 v).reverse
  let lead := if fp.alternate then (apfx.take plen).map fun c => if fp.capver then toUpper c else c else []
  fmtDigits fp lead buf 48

/-- A conversion of an unsigned argument. -/
def fmtUArg (radix : ℕ) (apfx : List UInt8) (fp : FormatParams) (ap : List (BitVec 64)) : Option Formatted := do
  let (v,ap) ← getUArg fp ap
  let (flen,out) ← fmtU fp radix apfx v
  return (ap,flen,out)

def fmtHex : FormatParams → List (BitVec 64) → Option Formatted := fmtUArg 16 [48,120]
def fmtOct : FormatParams → List (BitVec 64) → Option Formatted := fmtUArg 8 [48]
def fmtUint : FormatParams → List (BitVec 64) → Option Formatted := fmtUArg 10 []
def fmtBinary : FormatParams → List (BitVec 64) → Option Formatted := fmtUArg 2 [48,98]

/-- The formatter of a character in `format_tab`; those for other values than integers have no result. -/
def findFormatter (fmtchar : UInt8) : Option (FormatParams → List (BitVec 64) → Option Formatted) :=
  if fmtchar = 100 ∨ fmtchar = 105 then some fmtInt
  else if fmtchar = 111 then some fmtOct
  else if fmtchar = 120 ∨ fmtchar = 88 then some fmtHex
  else if fmtchar = 117 then some fmtUint
  else if fmtchar = 98 then some fmtBinary
  else if fmtchar ∈ [99,115,102,101,69,103,71,112] then some fun _ _ => none
  else none

/-- `emit_format_help` behind the flags: the rest of the format with what the conversion gives, or nothing inside for -1. -/
def formatWith : Option FlagScan → Option (Option (List UInt8 × Formatted))
  | none => some none
  | some x =>
    if x.fp.fmtchar = 37 then some (some (x.fmt,x.ap,1,[37]))
    else
      match findFormatter x.fp.fmtchar with
      | none => some none
      | some formatter =>
        (formatter { x.fp with capver := decide (65 ≤ x.fp.fmtchar ∧ x.fp.fmtchar ≤ 90) } x.ap).map fun r => some (x.fmt,r)

/-- `emit_format_help` behind a `%`. -/
def emitFormatHelp (longlong : Bool) (fmt : List UInt8) (ap : List (BitVec 64)) : Option (Option (List UInt8 × Formatted)) :=
  (getFormatFlags longlong fmt ap).bind formatWith

/-! ## How a directive is read -/

section Scan

variable {longlong : Bool} {x y : FlagScan} {r : Option FlagScan} {fmt text rest : List UInt8} {fp : FormatParams}
  {ap more : List (BitVec 64)}
  {pastperiod : Bool}

/-- The loop of `get_format_flags`. -/
def scan (longlong : Bool) (x : FlagScan) : Option (Option FlagScan) := loop (flagsBody longlong) (x.fmt.length + 1) x

theorem strtol_append (htext : ∀ c ∈ text, IsDigit c) (hrest : ∀ c, rest.head? = some c → ¬IsDigit c) :
    strtol (text ++ rest) = (min (numeral 10 text : ℤ) (2 ^ 63 - 1),rest) := by
  have htext' : ∀ c ∈ text, decide (IsDigit c) = true := fun c hc => decide_eq_true (htext c hc)
  have hstop : rest.takeWhile (fun c => decide (IsDigit c)) = [] ∧ rest.dropWhile (fun c => decide (IsDigit c)) = rest := by
    cases rest with
    | nil => exact ⟨rfl,rfl⟩
    | cons c rest =>
      have hc : decide (IsDigit c) = false := decide_eq_false (hrest c rfl)
      exact ⟨List.takeWhile_cons_of_neg (by simp [hc]),List.dropWhile_cons_of_neg (by simp [hc])⟩
  rw [strtol,List.takeWhile_append_of_pos htext',List.dropWhile_append_of_pos htext',hstop.1,hstop.2,List.append_nil]

theorem length_strtol {c : UInt8} (hc : IsDigit c) (s : List UInt8) : (strtol (c :: s)).2.length < (c :: s).length := by
  have hdrop : (strtol (c :: s)).2 = s.dropWhile fun c => decide (IsDigit c) := by
    rw [strtol,List.dropWhile_cons,if_pos (decide_eq_true hc)]
  rw [hdrop,List.length_cons]
  exact Nat.lt_succ_of_le (List.length_dropWhile_le ..)

theorem setCount_fmt {val : ℤ} (h : setCount x val = some y) : y.fmt = x.fmt := by
  rw [setCount] at h
  split at h <;> split at h <;> cases h <;> rfl

/-- What comes next is shorter. -/
def Shorter (n : ℕ) (t : Option (Turn FlagScan (Option FlagScan))) : Prop := ∀ y, t = some (.again y) → y.fmt.length < n

theorem Shorter.leave (n : ℕ) (r : Option FlagScan) : Shorter n (some (.leave r)) := fun _ h => nomatch Option.some.inj h

theorem Shorter.nothing (n : ℕ) : Shorter n none := fun _ h => absurd h (Option.some_ne_none _).symm

theorem Shorter.again {n : ℕ} (h : x.fmt.length < n) : Shorter n (some (.again x)) := by
  rintro y ⟨rfl⟩
  exact h

theorem Shorter.counted {n : ℕ} (h : x.fmt.length < n) (val : ℤ) : Shorter n (some (counted (setCount x val))) := by
  cases hset : setCount x val with
  | none => exact .leave n none
  | some z => exact .again (setCount_fmt hset ▸ h)

theorem Shorter.ite {n : ℕ} {p : Prop} [Decidable p] {t u : Option (Turn FlagScan (Option FlagScan))} (ht : p → Shorter n t)
    (hu : Shorter n u) : Shorter n (if p then t else u) := by
  split
  · exact ht ‹p›
  · exact hu

theorem flagsBody_shorter (longlong : Bool) (x : FlagScan) : Shorter x.fmt.length (flagsBody longlong x) := by
  obtain ⟨fmt,fp,ap,pastperiod⟩ := x
  cases fmt with
  | nil => exact .nothing _
  | cons nextc fmt =>
    have hone : fmt.length < (nextc :: fmt).length := Nat.lt_succ_self _
    have hdrop : (fmt.drop 1).length < (nextc :: fmt).length := by
      rw [List.length_drop]
      omega
    rw [flagsBody]
    refine .ite (fun _ => .leave _ _) (.ite (fun h => ?_) ?_)
    · exact .ite (fun _ => .leave _ _) (.counted (length_strtol h.1 fmt) _)
    refine .ite (fun _ => .again hone) (.ite (fun _ => .again hone) (.ite (fun _ => .again hone)
      (.ite (fun _ => .again hone) (.ite (fun _ => .again hone) (.ite (fun _ => ?_) ?_)))))
    · cases ap with
      | nil => exact .nothing _
      | cons arg ap => exact .ite (fun _ => .leave _ _) (.counted hone _)
    refine .ite (fun _ => .ite (fun _ => .leave _ _) (.again hone)) (.ite (fun _ => .ite (fun _ => .leave _ _) (.again hone))
      (.ite (fun _ => .ite (fun _ => .leave _ _) (.ite (fun _ => .again hdrop) (.again hone)))
        (.ite (fun _ => .ite (fun _ => .leave _ _) (.again hone)) (.leave _ _))))

theorem scan_again (h : flagsBody longlong x = some (.again y)) : scan longlong x = scan longlong y := by
  rw [scan,loop_again h]
  exact loop_enough (fun s t => flagsBody_shorter longlong s t) (flagsBody_shorter longlong x y h) (Nat.lt_succ_self _)

theorem scan_leave (h : flagsBody longlong x = some (.leave r)) : scan longlong x = some r := loop_leave h

/-! ## The parts of a directive -/

def setFlag (fp : FormatParams) : Flag → FormatParams
  | .minus => { fp with rightjust := false }
  | .plus => { fp with alwayssign := true }
  | .space => { fp with posspace := true }
  | .zero => { fp with zerofill := true }
  | .alt => { fp with alternate := true }

theorem scan_flags (flags : List Flag) (fp : FormatParams) (fmt : List UInt8) (ap : List (BitVec 64)) :
    scan longlong ⟨flags.map Flag.char ++ fmt,fp,ap,false⟩ = scan longlong ⟨fmt,flags.foldl setFlag fp,ap,false⟩ := by
  induction flags generalizing fp with
  | nil => rfl
  | cons f flags ih =>
    rw [List.foldl_cons,← ih]
    cases f <;> exact scan_again rfl

theorem foldl_setFlag (flags : List Flag) (fp : FormatParams) : flags.foldl setFlag fp =
    { fp with
      rightjust := fp.rightjust && !decide (.minus ∈ flags)
      alwayssign := fp.alwayssign || decide (.plus ∈ flags)
      posspace := fp.posspace || decide (.space ∈ flags)
      zerofill := fp.zerofill || decide (.zero ∈ flags)
      alternate := fp.alternate || decide (.alt ∈ flags) } := by
  induction flags generalizing fp with
  | nil => simp
  | cons f flags ih =>
    rw [List.foldl_cons,ih]
    cases f <;> simp [setFlag]

/-- The precision, or the width. -/
def putCount (fp : FormatParams) (pastperiod : Bool) (val : ℤ) : FormatParams :=
  if pastperiod then { fp with precision := val } else { fp with minwidth := val }

theorem setCount_free {val : ℤ} (hfree : (if x.pastperiod then x.fp.precision else x.fp.minwidth) ≤ 0) :
    setCount x val = some { x with fp := putCount x.fp x.pastperiod val } := by
  rw [setCount,putCount]
  cases hpast : x.pastperiod with
  | false =>
    rw [hpast] at hfree
    exact if_neg (not_lt.mpr hfree)
  | true =>
    rw [hpast] at hfree
    exact if_neg (not_lt.mpr hfree)

theorem digit_not_fmt {c : UInt8} (hc : IsDigit c) : isFmtChar c = false := by
  obtain ⟨hlow,hhigh⟩ := hc
  have hlow' : 48 ≤ c.toNat := hlow
  have hhigh' : c.toNat ≤ 57 := hhigh
  have h37 : (c == 37) = false := beq_eq_false_iff_ne.mpr fun h => by
    rw [h] at hlow'
    exact absurd hlow' (by decide)
  have halpha : isAlpha c = false := by
    have hupper : toUpper c = c := if_neg fun h => absurd (UInt8.le_iff_toNat_le.mp h.1) (by
      show ¬97 ≤ c.toNat
      omega)
    simp [isAlpha, hupper, UInt8.le_iff_toNat_le]
    omega
  simp [isFmtChar, h37, halpha]

theorem scan_count (c : Count) (hstart : ∀ text h, c = .digits text h → text ≠ [] ∧ (text.head? ≠ some 48 ∨ pastperiod = true))
    (hnext : ∀ ch, fmt.head? = some ch → ¬IsDigit ch) (hfree : (if pastperiod then fp.precision else fp.minwidth) ≤ 0) :
    scan longlong ⟨c.text ++ fmt,fp,c.args ++ ap,pastperiod⟩ =
      if 0 ≤ c.value ∧ c.value ≤ maxInt then scan longlong ⟨fmt,putCount fp pastperiod c.value,ap,pastperiod⟩ else some none := by
  cases c with
  | digits text h =>
    obtain ⟨hne,hhead⟩ := hstart text h rfl
    obtain ⟨c,s,rfl⟩ := List.exists_cons_of_ne_nil hne
    have hc : IsDigit c := h c List.mem_cons_self
    have hzero : c ≠ 48 ∨ pastperiod = true := by simpa using hhead
    have hval : (strtol (c :: s ++ fmt)) = _ := strtol_append h hnext
    have hturn : flagsBody longlong ⟨c :: s ++ fmt,fp,ap,pastperiod⟩ =
        if (strtol (c :: s ++ fmt)).1 > maxInt then some (.leave none)
        else some (counted (setCount ⟨(strtol (c :: s ++ fmt)).2,fp,ap,pastperiod⟩ (strtol (c :: s ++ fmt)).1)) := by
      rw [List.cons_append,flagsBody]
      dsimp only
      rw [if_neg (by rw [digit_not_fmt hc]; exact Bool.false_ne_true),if_pos ⟨hc,hzero⟩]
    rw [hval] at hturn
    dsimp only at hturn
    show scan longlong ⟨c :: s ++ fmt,fp,ap,pastperiod⟩ = if 0 ≤ (numeral 10 (c :: s) : ℤ) ∧ (numeral 10 (c :: s) : ℤ) ≤ maxInt then
      scan longlong ⟨fmt,putCount fp pastperiod (numeral 10 (c :: s)),ap,pastperiod⟩ else some none
    by_cases hmax : (numeral 10 (c :: s) : ℤ) ≤ maxInt
    · have hmin : min (numeral 10 (c :: s) : ℤ) (2 ^ 63 - 1) = numeral 10 (c :: s) :=
        min_eq_left (hmax.trans (by decide))
      rw [hmin,if_neg hmax.not_gt,setCount_free hfree] at hturn
      rw [if_pos ⟨Int.natCast_nonneg _,hmax⟩]
      exact scan_again hturn
    · rw [if_pos (lt_min (not_le.mp hmax) (by decide))] at hturn
      rw [if_neg fun h => hmax h.2]
      exact scan_leave hturn
  | star arg =>
    have hint : asInt arg ≤ maxInt := by
      have := BitVec.toInt_lt (x := arg.setWidth 32)
      rw [asInt,maxInt]
      omega
    have hturn : flagsBody longlong ⟨42 :: fmt,fp,arg :: ap,pastperiod⟩ =
        if asInt arg < 0 then some (.leave none) else some (counted (setCount ⟨fmt,fp,ap,pastperiod⟩ (asInt arg))) := by
      cases pastperiod <;> rfl
    show scan longlong ⟨42 :: fmt,fp,arg :: ap,pastperiod⟩ = if 0 ≤ asInt arg ∧ asInt arg ≤ maxInt then
      scan longlong ⟨fmt,putCount fp pastperiod (asInt arg),ap,pastperiod⟩ else some none
    by_cases hneg : asInt arg < 0
    · rw [if_pos hneg] at hturn
      rw [if_neg fun h => hneg.not_ge h.1]
      exact scan_leave hturn
    · rw [if_neg hneg,setCount_free hfree] at hturn
      rw [if_pos ⟨not_lt.mp hneg,hint⟩]
      exact scan_again hturn

/-- The sizes that are taken. -/
def Readable (longlong : Bool) : Size → Prop
  | .short => True
  | .plain => True
  | .long => True
  | .longlong => longlong = true
  | _ => False

def argSizeOf : Size → ArgSize
  | .short => .half
  | .long => .long
  | .longlong => .longlong
  | _ => .reg

theorem scan_conv (conv : Conv) : scan longlong ⟨conv.char :: rest,fp,ap,pastperiod⟩ =
    some (some ⟨rest,{ fp with fmtchar := conv.char },ap,pastperiod⟩) := by
  cases conv <;> exact scan_leave rfl

theorem scan_size {sz : Size} (conv : Conv) (hreg : fp.argsize = .reg) (h : Readable longlong sz) :
    scan longlong ⟨sz.text ++ conv.char :: rest,fp,ap,pastperiod⟩ =
      some (some ⟨rest,{ fp with argsize := argSizeOf sz, fmtchar := conv.char },ap,pastperiod⟩) := by
  obtain ⟨_,_,_,_,_,_,_,_,_,_⟩ := fp
  obtain rfl := hreg
  cases sz with
  | short => exact (scan_again rfl).trans (scan_conv conv)
  | plain => exact scan_conv conv
  | long => cases conv <;> cases longlong <;> exact (scan_again rfl).trans (scan_conv _)
  | longlong =>
    obtain rfl : longlong = true := h
    exact (scan_again rfl).trans (scan_conv conv)
  | char => exact h.elim
  | intmax => exact h.elim
  | sizet => exact h.elim
  | ptrdiff => exact h.elim

theorem scan_unreadable {sz : Size} (conv : Conv) (hreg : fp.argsize = .reg) (h : ¬Readable longlong sz) :
    (scan longlong ⟨sz.text ++ conv.char :: rest,fp,ap,pastperiod⟩).bind formatWith = some none := by
  obtain ⟨_,_,_,_,_,_,_,_,_,_⟩ := fp
  obtain rfl := hreg
  have hleave : ∀ {x : FlagScan} {r : Option FlagScan}, flagsBody longlong x = some (.leave r) → formatWith r = some none →
      (scan longlong x).bind formatWith = some none := by
    intro x r hx hr
    rw [scan_leave hx]
    exact hr
  cases sz with
  | char =>
    rw [Size.text,List.cons_append,scan_again rfl]
    exact hleave rfl rfl
  | longlong =>
    obtain rfl : longlong = false := Bool.eq_false_of_not_eq_true h
    rw [Size.text,List.cons_append,scan_again rfl]
    exact hleave rfl rfl
  | intmax => exact hleave rfl rfl
  | sizet => exact hleave rfl rfl
  | ptrdiff => exact hleave rfl rfl
  | short => exact (h trivial).elim
  | plain => exact (h trivial).elim
  | long => exact (h trivial).elim

theorem next_size (sz : Size) (conv : Conv) : ∀ ch, (sz.text ++ conv.char :: rest).head? = some ch → ¬IsDigit ch := by
  intro ch h
  cases sz <;> cases conv <;> cases h <;> decide

/-- A number that is an int and not negative. -/
def FitsInt (c : Count) : Prop := 0 ≤ c.value ∧ c.value ≤ maxInt

instance FitsInt.decidable (c : Count) : Decidable (FitsInt c) := inferInstanceAs (Decidable (_ ∧ _))

/-- So is the number if there is one. -/
def fits (c : Option Count) : Bool := c.all fun c => decide (FitsInt c)

theorem fits_some (c : Count) : fits (some c) = true ↔ FitsInt c := decide_eq_true_iff

/-- The precision that is left, where a period without digits sets none. -/
def precOf (precision : Option Count) : ℤ := precision.elim (-1) fun c => if c.text = [] then -1 else c.value

theorem scan_width (width : Option Count) (hstart : ∀ text h, width = some (.digits text h) → text ≠ [] ∧ text.head? ≠ some 48)
    (hnext : ∀ ch, fmt.head? = some ch → ¬IsDigit ch) (hwidth : fp.minwidth = -1) :
    scan longlong ⟨width.elim [] Count.text ++ fmt,fp,width.elim [] Count.args ++ ap,false⟩ =
      if fits width then scan longlong ⟨fmt,{ fp with minwidth := width.elim (-1) Count.value },ap,false⟩ else some none := by
  cases width with
  | none =>
    rw [if_pos (show fits none = true from rfl),Option.elim_none,← hwidth]
    rfl
  | some c =>
    rw [if_congr (fits_some c) rfl rfl]
    exact scan_count c (fun text h hc => (hstart text h (congrArg some hc)).imp_right .inl) hnext (hwidth.trans_le (by decide))

theorem scan_precision (precision : Option Count) (hnext : ∀ ch, fmt.head? = some ch → ¬IsDigit ch) (hprec : fp.precision = -1) :
    scan longlong ⟨precision.elim [] (fun c => 46 :: c.text) ++ fmt,fp,precision.elim [] Count.args ++ ap,false⟩ =
      if fits precision then scan longlong ⟨fmt,{ fp with precision := precOf precision },ap,precision.isSome⟩ else some none := by
  cases precision with
  | none =>
    rw [if_pos (show fits none = true from rfl),precOf,Option.elim_none,← hprec]
    rfl
  | some c =>
    have hperiod : scan longlong ⟨46 :: (c.text ++ fmt),fp,c.args ++ ap,false⟩ = scan longlong ⟨c.text ++ fmt,fp,c.args ++ ap,true⟩ :=
      scan_again rfl
    rw [if_congr (fits_some c) rfl rfl]
    refine hperiod.trans ?_
    rw [precOf,Option.elim_some]
    by_cases hnil : c.text = []
    · -- there are only digits without a text
      obtain ⟨h,rfl⟩ : ∃ h, c = .digits [] h := by
        cases c with
        | digits text h =>
          obtain rfl : text = [] := hnil
          exact ⟨h,rfl⟩
        | star arg => cases hnil
      rw [if_pos hnil,if_pos (show FitsInt (.digits [] h) from ⟨le_rfl,show (0 : ℤ) ≤ maxInt by decide⟩),← hprec]
      rfl
    · rw [if_neg hnil]
      refine scan_count c (fun text h hc => ⟨?_,.inr rfl⟩) hnext (hprec.trans_le (by decide))
      rintro rfl
      exact hnil (congrArg Count.text hc)

/-- The parameters that a directive sets. -/
def paramsOf (d : Directive) : FormatParams where
  fmtchar := d.conv.char
  precision := precOf d.precision
  minwidth := d.width.elim (-1) Count.value
  alternate := decide (.alt ∈ d.flags)
  posspace := decide (.space ∈ d.flags)
  rightjust := !decide (.minus ∈ d.flags)
  alwayssign := decide (.plus ∈ d.flags)
  zerofill := decide (.zero ∈ d.flags)
  argsize := argSizeOf d.size

/-- The directives that are taken. -/
structure Taken (longlong : Bool) (d : Directive) : Prop where
  width : fits d.width = true
  precision : fits d.precision = true
  size : Readable longlong d.size

theorem next_precision (precision : Option Count) (hnext : ∀ ch, fmt.head? = some ch → ¬IsDigit ch) :
    ∀ ch, (precision.elim [] (fun c => 46 :: c.text) ++ fmt).head? = some ch → ¬IsDigit ch := by
  intro ch h
  cases precision with
  | none => exact hnext ch h
  | some c =>
    cases h
    decide

theorem getFormatFlags_directive (d : Directive) (arg : BitVec 64) (rest : List UInt8) (more : List (BitVec 64)) :
    (Taken longlong d → getFormatFlags longlong (d.text ++ rest) (d.args arg ++ more) =
      some (some ⟨rest,paramsOf d,arg :: more,d.precision.isSome⟩)) ∧
    (¬Taken longlong d → emitFormatHelp longlong (d.text ++ rest) (d.args arg ++ more) = some none) := by
  have htext : d.text ++ rest = d.flags.map Flag.char ++ (d.width.elim [] Count.text ++
      (d.precision.elim [] (fun c => 46 :: c.text) ++ (d.size.text ++ d.conv.char :: rest))) := by
    simp [Directive.text]
  have hargs : d.args arg ++ more = d.width.elim [] Count.args ++ (d.precision.elim [] Count.args ++ (arg :: more)) := by
    simp [Directive.args]
  have hsize := @next_size rest d.size d.conv
  have hread : getFormatFlags longlong (d.text ++ rest) (d.args arg ++ more) =
      if fits d.width then if fits d.precision then
        scan longlong ⟨d.size.text ++ d.conv.char :: rest,{ d.flags.foldl setFlag {} with
          minwidth := d.width.elim (-1) Count.value, precision := precOf d.precision },arg :: more,d.precision.isSome⟩
      else some none else some none := by
    have hinit : getFormatFlags longlong (d.text ++ rest) (d.args arg ++ more) =
        scan longlong ⟨d.text ++ rest,{},d.args arg ++ more,false⟩ := rfl
    rw [hinit,htext,hargs,scan_flags,scan_width d.width d.width_digits (next_precision d.precision hsize) (by rw [foldl_setFlag]),
      scan_precision d.precision hsize (by rw [foldl_setFlag])]
  have hreg : (d.flags.foldl setFlag {}).argsize = .reg := by rw [foldl_setFlag]
  constructor
  · rintro ⟨hwidth,hprec,hread'⟩
    rw [hread,if_pos hwidth,if_pos hprec]
    refine (scan_size d.conv ?_ hread').trans ?_
    · exact hreg
    · rw [foldl_setFlag]
      simp [paramsOf]
  · intro hno
    rw [emitFormatHelp,hread]
    split
    · split
      · refine scan_unreadable d.conv ?_ fun h => hno ⟨‹_›,‹_›,h⟩
        exact hreg
      · rfl
    · rfl

end Scan

end Catlib.Text
