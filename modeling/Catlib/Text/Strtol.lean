import Catlib.Logic.Numeral
import Mathlib.Data.BitVec

/-! # strtol and strtoul of catlibc.c

Two copies of one function that differ in one test. A string is a block that ends in its terminator, a
pointer into it is the rest of the block, and a read behind the terminator has no result. A char is signed.
-/
namespace Catlib.Strtol

open Numeral

variable {s u w : List UInt8} {c : UInt8} {r base : ℕ} {unsigned : Bool}

/-! ## The code -/

def char (c : UInt8) : ℤ := if c.toNat < 128 then c.toNat else c.toNat - 256

/-- The characters that are skipped. -/
def blank (c : UInt8) : Bool := c == 32 || c == 9 || c == 10

/-- `if ( c >= 'A' && c <= 'Z' ) c -= 'a' - 'A';` -/
def lowered (c : UInt8) : ℤ := if 65 ≤ char c ∧ char c ≤ 90 then char c - 32 else char c

def skipBlank : List UInt8 → Option (List UInt8)
  | [] => none
  | c :: start => if blank c then skipBlank start else some (c :: start)

/-- `negate`, and what follows the sign. -/
def skipSign : List UInt8 → Option (Bool × List UInt8)
  | [] => none
  | c :: start => if c = 43 then some (false,start) else if c = 45 then some (true,start) else some (false,c :: start)

/-- The base that is meant, and where its digits begin. -/
def detect (base : ℕ) (start : List UInt8) : Option (ℕ × List UInt8) := do
  let c ← start[0]?
  if base = 0 then
    if c = 48 then if (← start[1]?) = 120 then return (16,start) else return (8,start)
    else return (10,start)
  else if base = 8 ∧ c = 48 then return (base,start.drop 1)
  else if base = 16 ∧ c = 48 then if (← start[1]?) = 120 then return (base,start.drop 2) else return (base,start)
  else return (base,start)

def maxn (base : ℕ) : ℤ := if base ≤ 10 then 48 + base - 1 else 57
def minc (base : ℕ) : ℤ := if base ≤ 10 then 0 else 97
def maxc (base : ℕ) : ℤ := if base ≤ 10 then 0 else 97 + base - 1

/-- The character ends the number. Only strtoul looks at `minc` first. -/
def outside (unsigned : Bool) (base : ℕ) (c : ℤ) : Bool :=
  (c < 48 || c > maxn base) && ((unsigned && minc base == 0) || c < minc base || c > maxc base)

def digitOf (base : ℕ) (c : ℤ) : ℤ := if 48 ≤ c ∧ c ≤ maxn base then c - 48 else c - 97

/-- The loop over the digits, with `l` and `adigit`. -/
def digitLoop (unsigned : Bool) (base : ℕ) : List UInt8 → BitVec 64 → Bool → Option (List UInt8 × BitVec 64 × Bool)
  | [], _, _ => none
  | c :: start, l, adigit =>
    if outside unsigned base (lowered c) then some (c :: start,l,adigit)
    else digitLoop unsigned base start (l * BitVec.ofInt 64 base + BitVec.ofInt 64 (digitOf base (lowered c))) true

/-- The word that is returned, and the pointer that is stored for the caller. No base is negative here. -/
def scan (unsigned : Bool) (start : List UInt8) (base : ℕ) : Option (BitVec 64 × List UInt8) :=
  if base ≠ 1 ∧ base ≤ 36 then do
    let (negate,first) ← skipSign (← skipBlank start)
    let (base,first) ← detect base first
    let (rest,l,adigit) ← digitLoop unsigned base first 0 false
    return (if negate then -l else l,if adigit then rest else start)
  else none

def strtol (start : List UInt8) (base : ℕ) : Option (ℤ × List UInt8) := (scan false start base).map fun x => (x.1.toInt,x.2)

def strtoul (start : List UInt8) (base : ℕ) : Option (ℤ × List UInt8) := (scan true start base).map fun x => ((x.1.toNat : ℤ),x.2)

/-! ## What a string is read as -/

/-- A character that both functions take for a digit. -/
def isNum (base : ℕ) (c : UInt8) : Bool := !outside true base (lowered c)

/-- The number that the digits make. -/
def numValue (base : ℕ) (ds : List UInt8) : ℤ := ds.foldl (fun l c => l * base + digitOf base (lowered c)) 0

/-- The base that the digits of a text are read in, -/
def numBase (base : ℕ) (t : List UInt8) : ℕ :=
  if base = 0 then if t[0]? = some 48 then if t[1]? = some 120 then 16 else 8 else 10 else base

/-- and where they are looked for. -/
def numText (base : ℕ) (t : List UInt8) : List UInt8 :=
  if base = 8 ∧ t[0]? = some 48 then t.drop 1
  else if base = 16 ∧ t[0]? = some 48 ∧ t[1]? = some 120 then t.drop 2 else t

theorem lowered_eq_zero (h : lowered c = 0) : c = 0 := by
  unfold lowered char at h
  apply UInt8.toNat_inj.mp
  have := c.toNat_lt
  show c.toNat = 0
  split_ifs at h <;> omega

theorem outside_eq (hc : c ≠ 0) (base : ℕ) : outside unsigned base (lowered c) = !isNum base c := by
  have h0 : lowered c ≠ 0 := fun h => hc (lowered_eq_zero h)
  rw [isNum,Bool.not_not]
  by_cases hb : base ≤ 10
  · have hne : lowered c < 0 ∨ lowered c > 0 := by omega
    simp only [outside, minc, maxc, hb, if_true, beq_self_eq_true, Bool.and_true, Bool.true_or, Bool.and_true]
    have hboth : (unsigned || decide (lowered c < 0) || decide (lowered c > 0)) = true := by simpa [or_assoc] using Or.inr hne
    rw [hboth,Bool.and_true]
  · simp [outside, minc, hb]

theorem outside_nul (unsigned : Bool) (base : ℕ) : outside unsigned base (lowered 0) = (unsigned || decide (10 < base)) := by
  have h0 : lowered 0 = 0 := rfl
  rw [h0]
  by_cases hb : base ≤ 10
  · cases unsigned <;> simp [outside, minc, maxc, hb]
  · have hlt : 10 < base := by omega
    cases unsigned <;> simp [outside, minc, hb, hlt]

theorem skipBlank_eq (s : List UInt8) : skipBlank (s ++ [0]) = some (s.dropWhile blank ++ [0]) := by
  induction s with
  | nil => rfl
  | cons c s ih =>
    rw [List.cons_append,skipBlank,List.dropWhile_cons]
    split
    · exact ih
    · rfl

theorem skipSign_eq (u : List UInt8) : ∃ negate, skipSign (u ++ [0]) = some (negate,(splitSign u).2 ++ [0]) ∧
    (splitSign u).1 = if negate then -1 else 1 := by
  cases u with
  | nil => exact ⟨false,rfl,rfl⟩
  | cons c u =>
    by_cases h43 : c = 43
    · subst h43
      exact ⟨false,rfl,rfl⟩
    · by_cases h45 : c = 45
      · subst h45
        exact ⟨true,rfl,rfl⟩
      · refine ⟨false,?_,?_⟩ <;> simp [skipSign, splitSign, h43, h45]

theorem detect_eq (base : ℕ) (t : List UInt8) : detect base (t ++ [0]) = some (numBase base t,numText base t ++ [0]) := by
  match t with
  | [] =>
    by_cases h0 : base = 0
    · simp [detect, numBase, numText, h0]
    · simp [detect, numBase, numText, h0]
  | [c] =>
    by_cases h0 : base = 0
    · by_cases hc : c = 48 <;> simp [detect, numBase, numText, h0, hc]
    · by_cases hc : c = 48 <;> by_cases h8 : base = 8 <;> by_cases h16 : base = 16 <;>
        simp [detect, numBase, numText, h0, hc, h8, h16]
  | c :: x :: t =>
    by_cases h0 : base = 0
    · by_cases hc : c = 48 <;> by_cases hx : x = 120 <;> simp [detect, numBase, numText, h0, hc, hx]
    · by_cases hc : c = 48 <;> by_cases hx : x = 120 <;> by_cases h8 : base = 8 <;> by_cases h16 : base = 16 <;>
        simp [detect, numBase, numText, h0, hc, hx, h8, h16]

theorem numValue_append (base : ℕ) (ds : List UInt8) (c : UInt8) :
    numValue base (ds ++ [c]) = numValue base ds * base + digitOf base (lowered c) := by
  rw [numValue,List.foldl_append]
  rfl

theorem digitLoop_eq {ds : List UInt8} (hu : ∀ c ∈ u, c ≠ 0) (hs : unsigned = true ∨ 10 < base ∨ u.dropWhile (isNum base) ≠ []) :
    digitLoop unsigned base (u ++ [0]) (BitVec.ofInt 64 (numValue base ds)) (ds != []) =
      some (u.dropWhile (isNum base) ++ [0],BitVec.ofInt 64 (numValue base (ds ++ u.takeWhile (isNum base))),
        ds ++ u.takeWhile (isNum base) != []) := by
  induction u generalizing ds with
  | nil =>
    have hout : outside unsigned base (lowered 0) = true := by
      rw [outside_nul]
      simpa using hs
    rw [List.nil_append,digitLoop,if_pos hout]
    simp
  | cons c u ih =>
    rw [List.forall_mem_cons] at hu
    rw [List.cons_append,digitLoop,outside_eq hu.1]
    cases hc : isNum base c with
    | false => simp [hc]
    | true =>
      rw [List.dropWhile_cons_of_pos hc] at hs ⊢
      have h := @ih (ds ++ [c]) hu.2 hs
      rw [numValue_append,BitVec.ofInt_add,BitVec.ofInt_mul] at h
      have hne : (ds ++ [c] != []) = true := by simp
      rw [hne,List.append_assoc] at h
      rw [List.takeWhile_cons_of_pos hc]
      exact h

theorem digitLoop_past (hu : ∀ c ∈ u, c ≠ 0) (hb : base ≤ 10) (hw : u.dropWhile (isNum base) = []) (l : BitVec 64) (adigit : Bool) :
    digitLoop false base (u ++ [0]) l adigit = none := by
  induction u generalizing l adigit with
  | nil =>
    have hin : outside false base (lowered 0) = false := by
      rw [outside_nul]
      simpa using hb
    rw [List.nil_append,digitLoop,if_neg (by rw [hin]; decide)]
    rfl
  | cons c u ih =>
    rw [List.forall_mem_cons] at hu
    have hc : isNum base c = true := by
      by_contra hc
      rw [List.dropWhile_cons_of_neg hc] at hw
      cases hw
    rw [List.dropWhile_cons_of_pos hc] at hw
    rw [List.cons_append,digitLoop,outside_eq hu.1,if_neg (by simp [hc])]
    exact ih hu.2 hw _ _

/-- The text between the sign of a string and its terminator, as the functions see it. -/
def signed (s : List UInt8) : ℤ × List UInt8 := splitSign (s.dropWhile blank)

/-- The loop ends within the string. -/
def Stops (unsigned : Bool) (base : ℕ) (t : List UInt8) : Prop :=
  unsigned = true ∨ 10 < numBase base t ∨ (numText base t).dropWhile (isNum (numBase base t)) ≠ []

def numDigits (base : ℕ) (t : List UInt8) : List UInt8 := (numText base t).takeWhile (isNum (numBase base t))

theorem splitSign_suffix (u : List UInt8) : (splitSign u).2 <:+ u := by
  obtain ⟨sg,-,hu⟩ := splitSign_spec u
  exact ⟨sg,hu.symm⟩

theorem signed_suffix (s : List UInt8) : (signed s).2 <:+ s := (splitSign_suffix _).trans (List.dropWhile_suffix _)

theorem numText_suffix (base : ℕ) (t : List UInt8) : numText base t <:+ t := by
  unfold numText
  split_ifs
  · exact List.drop_suffix _ _
  · exact List.drop_suffix _ _
  · exact List.suffix_refl _

theorem numText_ne (hs : ∀ c ∈ s, c ≠ 0) : ∀ c ∈ numText base (signed s).2, c ≠ 0 :=
  fun c hc => hs c (((numText_suffix _ _).trans (signed_suffix s)).subset hc)

theorem scan_start (hb : base ≠ 1 ∧ base ≤ 36) (s : List UInt8) : ∃ negate : Bool, (signed s).1 = (if negate then -1 else 1) ∧
    scan unsigned (s ++ [0]) base =
      (digitLoop unsigned (numBase base (signed s).2) (numText base (signed s).2 ++ [0]) 0 false).map fun x =>
        (if negate then -x.2.1 else x.2.1,if x.2.2 then x.1 else s ++ [0]) := by
  obtain ⟨negate,hsign,hk⟩ := skipSign_eq (s.dropWhile blank)
  refine ⟨negate,hk,?_⟩
  rw [scan,if_pos hb,skipBlank_eq,Option.bind_eq_bind,Option.bind_some,hsign,Option.bind_eq_bind,Option.bind_some]
  dsimp only
  rw [detect_eq,Option.bind_eq_bind,Option.bind_some]
  dsimp only
  rw [signed]
  cases digitLoop unsigned (numBase base (splitSign (s.dropWhile blank)).2)
    (numText base (splitSign (s.dropWhile blank)).2 ++ [0]) 0 false <;> rfl

theorem scan_eq (hs : ∀ c ∈ s, c ≠ 0) (hb : base ≠ 1 ∧ base ≤ 36) (ht : Stops unsigned base (signed s).2) :
    scan unsigned (s ++ [0]) base =
      some (BitVec.ofInt 64 ((signed s).1 * numValue (numBase base (signed s).2) (numDigits base (signed s).2)),
        if numDigits base (signed s).2 = [] then s ++ [0]
        else (numText base (signed s).2).dropWhile (isNum (numBase base (signed s).2)) ++ [0]) := by
  obtain ⟨negate,hk,he⟩ := @scan_start _ unsigned hb s
  have hloop := @digitLoop_eq _ _ _ [] (numText_ne hs) ht
  rw [List.nil_append] at hloop
  have hinit : BitVec.ofInt 64 (numValue (numBase base (signed s).2) []) = 0 := rfl
  rw [hinit,show (([] : List UInt8) != []) = false from rfl] at hloop
  rw [he,hloop,hk,Option.map_some,numDigits]
  have hneg : (if negate then -BitVec.ofInt 64 (numValue (numBase base (signed s).2) (numDigits base (signed s).2))
      else BitVec.ofInt 64 (numValue (numBase base (signed s).2) (numDigits base (signed s).2))) =
      BitVec.ofInt 64 ((if negate then -1 else 1) * numValue (numBase base (signed s).2) (numDigits base (signed s).2)) := by
    cases negate with
    | false => simp
    | true => simp [BitVec.ofInt_neg]
  simp only [bne_iff_ne,ne_eq,ite_not]
  exact congrArg some (Prod.ext hneg rfl)

theorem scan_none (hs : ∀ c ∈ s, c ≠ 0) (ht : ¬ Stops unsigned base (signed s).2) : scan unsigned (s ++ [0]) base = none := by
  by_cases hb : base ≠ 1 ∧ base ≤ 36
  · obtain ⟨negate,-,he⟩ := @scan_start _ unsigned hb s
    simp only [Stops,not_or,not_lt,not_not,Bool.not_eq_true] at ht
    obtain ⟨rfl,hb10,hw⟩ := ht
    rw [he,digitLoop_past (numText_ne hs) hb10 hw]
    rfl
  · rw [scan,if_neg hb]

end Catlib.Strtol
