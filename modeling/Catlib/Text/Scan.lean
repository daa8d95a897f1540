import Catlib.Text.Cset
import Catlib.Text.Strtol
import Mathlib.Data.Rat.Defs

/-! # The scanning loops of catlibc.c

Strings as in strtol. A loop that moves its pointer is a recursion over the string, and one that may leave it where
it is has a budget of turns: it ends if some budget suffices.
-/
namespace Catlib.Scan

open Strtol
open Text (spanLen csetContains_some csetContains_false csetContains_clear)
open Peg (csetContains)
open Peg.Parser (csetClear csetAdd csetAdd_length csetContains_add byte_parts)
open Numeral (splitSign)

variable {s t u set : List UInt8} {c : UInt8} {ch : ℤ} {F : Type}

/-! ## The code -/

def strcmp : List UInt8 → List UInt8 → Option ℤ
  | c1 :: s1, c2 :: s2 =>
    if c1 = c2 ∧ c1 ≠ 0 ∧ c2 ≠ 0 then strcmp s1 s2
    else if c1 = c2 then some 0
    else if c1 = 0 then some (-1)
    else if c2 = 0 then some 1
    else some (c1.toNat - c2.toNat)
  | _, _ => none

/-- `strchr`: the pointer to the character, if there is one. -/
def strchr : List UInt8 → ℤ → Option (Option (List UInt8))
  | [], _ => none
  | c :: s, ch => if c ≠ 0 then if char c = ch then some (some (c :: s)) else strchr s ch else some none

/-- The loop of `strrchr`, on `s` and `last`. Nothing moves `s`. -/
def strrchrBody (ch : ℤ) : List UInt8 × Option (List UInt8) → Option (Turn (List UInt8 × Option (List UInt8)) (Option (List UInt8)))
  | (s,last) => do
    let c ← s[0]?
    if c ≠ 0 then return .again (s,if char c = ch then some s else last) else return .leave last

def strrchr (k : ℕ) (s : List UInt8) (ch : ℤ) : Option (Option (List UInt8)) := loop (strrchrBody ch) k (s,none)

/-- The loop of `strspn` that fills the map up to the terminator. -/
def acceptMap : List UInt8 → List UInt8 → Option (List UInt8)
  | [], _ => none
  | c :: p, map => if c ≠ 0 then acceptMap p (csetAdd map c) else some map

/-- The loop of `strcspn`, which has the terminator in the map as well. -/
def rejectMap : List UInt8 → List UInt8 → Option (List UInt8)
  | [], _ => none
  | c :: p, map => if c ≠ 0 then rejectMap p (csetAdd map c) else some (csetAdd map c)

def strspn (s accept : List UInt8) : Option ℕ := do spanLen (csetContains (← acceptMap accept csetClear)) s

def strcspn (s reject : List UInt8) : Option ℕ := do
  let map ← rejectMap reject csetClear
  spanLen (fun c => (csetContains map c).map (!·)) s

/-- What is asked of a double. -/
structure Floats (F : Type) where
  zero : F
  tenth : F
  addDigit : F → ℤ → F
  addFraction : F → ℤ → F → F
  neg : F → F
  timesTenth : F → F
  timesTen : F → F
  divTen : F → F

/-- `isspace(*start) || *start == '\\r' || *start == '\\n'` -/
def white (c : UInt8) : Bool := c == 32 || c == 9 || c == 13 || c == 10

def skipWhite : List UInt8 → Option (List UInt8)
  | [] => none
  | c :: start => if white c then skipWhite start else some (c :: start)

/-- The loop over the digits of the whole part, which stays at the first of them. -/
def wholeBody (ops : Floats F) (start : List UInt8) : F × Bool → Option (Turn (F × Bool) (F × Bool))
  | (v,adigit) => do
    let c ← start[0]?
    if char c < 48 ∨ char c > 57 then return .leave (v,adigit) else return .again (ops.addDigit v (char c - 48),true)

/-- The loop over those of the fraction, which does the same. -/
def fractionBody (ops : Floats F) (start : List UInt8) : F × F → Option (Turn (F × F) F)
  | (v,e) => do
    let c ← start[0]?
    if char c < 48 ∨ char c > 57 then return .leave v else return .again (ops.addFraction v (char c - 48) e,ops.timesTenth e)

/-- The pointer `n` characters in front of another. -/
def back (block start : List UInt8) (n : ℕ) : List UInt8 := block.drop (block.length - start.length - n)

/-- The end of `strtod`: a point at the end is given back. -/
def strtodEnd (block : List UInt8) (v : F) (start : List UInt8) : Option (F × List UInt8) := do
  if (← (back block start 1)[0]?) = 46 then return (v,back block start 1) else return (v,start)

/-- The exponent. A positive one goes into a loop that never turns. -/
def strtodExp (ops : Floats F) (block : List UInt8) (v : F) (start : List UInt8) : Option (F × List UInt8) := do
  let c ← start[0]?
  if c = 101 ∨ c = 69 then
    let start := start.drop 1
    let (l,cp) ← strtol start 10
    let exp := l.bmod (2 ^ 32)
    if start = cp ∨ exp < -64 ∨ exp > 64 then return (v,back block start 1)
    else strtodEnd block (if exp < 0 then ops.divTen^[exp.natAbs] v else v) cp
  else strtodEnd block v start

/-- `strtod` behind its first loop. -/
def strtodRest (ops : Floats F) (k : ℕ) (block : List UInt8) (negate : Bool) (start : List UInt8) (x : F × Bool) :
    Option (F × List UInt8) :=
  if x.2 then do
    let v := if negate then ops.neg x.1 else x.1
    if (← start[0]?) = 46 then strtodExp ops block (← loop (fractionBody ops (start.drop 1)) k (v,ops.tenth)) (start.drop 1)
    else strtodExp ops block v start
  else some (ops.zero,block)

def strtod (ops : Floats F) (k : ℕ) (block : List UInt8) : Option (F × List UInt8) := do
  let (negate,start) ← skipSign (← skipWhite block)
  strtodRest ops k block negate start (← loop (wholeBody ops start) k (ops.zero,false))

/-! ## The loops that end -/

theorem strchr_returns (s : List UInt8) (ch : ℤ) : ∃ r, strchr (s ++ [0]) ch = some r := by
  induction s with
  | nil => exact ⟨none,rfl⟩
  | cons c s ih =>
    rw [List.cons_append,strchr]
    split_ifs
    · exact ⟨_,rfl⟩
    · exact ih
    · exact ⟨_,rfl⟩

theorem strcmp_returns (s t : List UInt8) : ∃ r, strcmp (s ++ [0]) (t ++ [0]) = some r := by
  induction s generalizing t with
  | nil =>
    cases t with
    | nil => exact ⟨0,rfl⟩
    | cons d t =>
      rw [List.nil_append,List.cons_append,strcmp,if_neg (fun h => h.2.1 rfl)]
      split_ifs <;> exact ⟨_,rfl⟩
  | cons c s ih =>
    cases t with
    | nil =>
      rw [List.nil_append,List.cons_append,strcmp,if_neg (fun h => h.2.2 rfl)]
      split_ifs <;> exact ⟨_,rfl⟩
    | cons d t =>
      rw [List.cons_append,List.cons_append,strcmp]
      split_ifs
      · exact ih t
      all_goals exact ⟨_,rfl⟩

/-- The map holds the characters of the set. -/
structure MapOf (map : List UInt8) (l : List UInt8) : Prop where
  length : map.length = 32
  mem : ∀ c, csetContains map c = some true ↔ c ∈ l

theorem MapOf.add {map l : List UInt8} (h : MapOf map l) (c : UInt8) : MapOf (csetAdd map c) (c :: l) where
  length := (csetAdd_length _ _).trans h.length
  mem := fun x => by rw [csetContains_add h.length,List.mem_cons,h.mem]

theorem mapOf_clear : MapOf csetClear [] where
  length := List.length_replicate
  mem := fun c => by simp [csetContains_clear]

theorem acceptMap_spec {map l : List UInt8} (hs : ∀ c ∈ s, c ≠ 0) (h : MapOf map l) :
    ∃ map', acceptMap (s ++ [0]) map = some map' ∧ MapOf map' (s.reverse ++ l) := by
  induction s generalizing map l with
  | nil => exact ⟨map,rfl,h⟩
  | cons c s ih =>
    rw [List.forall_mem_cons] at hs
    obtain ⟨map',he,hm⟩ := ih hs.2 (h.add c)
    exact ⟨map',by rw [List.cons_append,acceptMap,if_pos hs.1,he],by simpa using hm⟩

theorem rejectMap_spec {map l : List UInt8} (hs : ∀ c ∈ s, c ≠ 0) (h : MapOf map l) :
    ∃ map', rejectMap (s ++ [0]) map = some map' ∧ MapOf map' (0 :: (s.reverse ++ l)) := by
  induction s generalizing map l with
  | nil => exact ⟨csetAdd map 0,rfl,h.add 0⟩
  | cons c s ih =>
    rw [List.forall_mem_cons] at hs
    obtain ⟨map',he,hm⟩ := ih hs.2 (h.add c)
    exact ⟨map',by rw [List.cons_append,rejectMap,if_pos hs.1,he],by simpa using hm⟩

theorem spanLen_returns {p : UInt8 → Option Bool} (hp : ∀ c, ∃ b, p c = some b) (h0 : p 0 = some false) (s : List UInt8) :
    ∃ n, spanLen p (s ++ [0]) = some n := by
  induction s with
  | nil => exact ⟨0,by simp [spanLen, h0]⟩
  | cons c s ih =>
    obtain ⟨b,hb⟩ := hp c
    obtain ⟨n,hn⟩ := ih
    rw [List.cons_append,spanLen,hb,hn]
    cases b with
    | false => exact ⟨0,rfl⟩
    | true => exact ⟨n + 1,rfl⟩

theorem strspn_returns (ht : ∀ c ∈ t, c ≠ 0) (s : List UInt8) : ∃ n, strspn (s ++ [0]) (t ++ [0]) = some n := by
  obtain ⟨map,he,hm⟩ := acceptMap_spec ht mapOf_clear
  rw [strspn,he,Option.bind_eq_bind,Option.bind_some]
  refine spanLen_returns (csetContains_some hm.length) (csetContains_false hm.length fun h => ?_) s
  have := (hm.mem 0).mp h
  simp only [List.append_nil,List.mem_reverse] at this
  exact ht 0 this rfl

theorem strcspn_returns (ht : ∀ c ∈ t, c ≠ 0) (s : List UInt8) : ∃ n, strcspn (s ++ [0]) (t ++ [0]) = some n := by
  obtain ⟨map,he,hm⟩ := rejectMap_spec ht mapOf_clear
  rw [strcspn,he,Option.bind_eq_bind,Option.bind_some]
  refine spanLen_returns (fun c => ?_) ?_ s
  · obtain ⟨b,hb⟩ := csetContains_some hm.length c
    exact ⟨!b,by rw [hb]; rfl⟩
  · rw [(hm.mem 0).mpr List.mem_cons_self]
    rfl

/-! ## The loops that may not -/

theorem loop_endless {σ ρ : Type*} {body : σ → Option (Turn σ ρ)} (h : ∀ x, ∃ y, body x = some (.again y)) (k : ℕ) (x : σ) :
    loop body k x = none := by
  induction k generalizing x with
  | zero => rfl
  | succ k ih =>
    obtain ⟨y,hy⟩ := h x
    rw [loop_again hy,ih]

theorem strrchr_iff (hs : ∀ c ∈ s, c ≠ 0) (ch : ℤ) : (∃ k r, strrchr k (s ++ [0]) ch = some r) ↔ s = [] := by
  cases s with
  | nil => exact iff_of_true ⟨1,none,rfl⟩ rfl
  | cons c s =>
    refine iff_of_false ?_ (List.cons_ne_nil c s)
    rintro ⟨k,r,hr⟩
    have hc : c ≠ 0 := hs c List.mem_cons_self
    refine loop_partial (I := fun x => x.1 = c :: s ++ [0]) (Q := fun _ => False) (fun x y hx hb => ?_) (fun x r hx hb => ?_) rfl hr <;>
      obtain ⟨p,last⟩ := x <;> cases hx <;> simp [strrchrBody, hc] at hb
    cases hb
    rfl

theorem strtol_returns_iff {base : ℕ} (hb : base ≠ 1 ∧ base ≤ 36) (hs : ∀ c ∈ s, c ≠ 0) :
    (∃ r, strtol (s ++ [0]) base = some r) ↔ Stops false base (signed s).2 := by
  by_cases h : Stops false base (signed s).2
  · exact iff_of_true ⟨_,by rw [strtol,scan_eq hs hb h]; rfl⟩ h
  · refine iff_of_false ?_ h
    rintro ⟨r,hr⟩
    rw [strtol,scan_none hs h] at hr
    cases hr

theorem skipWhite_eq (s : List UInt8) : skipWhite (s ++ [0]) = some (s.dropWhile white ++ [0]) := by
  induction s with
  | nil => rfl
  | cons c s ih =>
    rw [List.cons_append,skipWhite,List.dropWhile_cons]
    split
    · exact ih
    · rfl

/-- The text that strtod comes to. -/
def number (s : List UInt8) : List UInt8 := (splitSign (s.dropWhile white)).2

theorem digit_iff (c : UInt8) : Numeral.isDigit 10 c = false ↔ char c < 48 ∨ char c > 57 := by
  have := c.toNat_lt
  rw [← Bool.not_eq_true,Numeral.isDigit,decide_eq_true_eq]
  unfold Numeral.digit char
  split_ifs <;> lia

theorem wholeBody_eq (ops : Floats F) (hc : u[0]? = some c) (x : F × Bool) :
    wholeBody ops u x = some (if char c < 48 ∨ char c > 57 then .leave x else .again (ops.addDigit x.1 (char c - 48),true)) := by
  rw [wholeBody,hc,Option.bind_eq_bind,Option.bind_some]
  split <;> rfl

theorem strtod_iff (ops : Floats F) (s : List UInt8) :
    (∃ k r, strtod ops k (s ++ [0]) = some r) ↔ ∀ c ∈ (number s).head?, Numeral.isDigit 10 c = false := by
  obtain ⟨negate,hsign,-⟩ := skipSign_eq (s.dropWhile white)
  have hstart (k : ℕ) : strtod ops k (s ++ [0]) =
      (loop (wholeBody ops (number s ++ [0])) k (ops.zero,false)).bind
        (strtodRest ops k (s ++ [0]) negate (number s ++ [0])) := by
    rw [strtod,skipWhite_eq,Option.bind_eq_bind,Option.bind_some,hsign]
    rfl
  have hfirst : ∃ c, (number s ++ [0])[0]? = some c ∧
      ((∀ d ∈ (number s).head?, Numeral.isDigit 10 d = false) ↔ char c < 48 ∨ char c > 57) := by
    cases number s with
    | nil => exact ⟨0,rfl,iff_of_true nofun (.inl (by decide))⟩
    | cons c u => exact ⟨c,rfl,by rw [← digit_iff]; simp⟩
  obtain ⟨c,hc,hiff⟩ := hfirst
  rw [hiff]
  constructor
  · rintro ⟨k,r,hr⟩
    by_contra hdig
    have hbody (x : F × Bool) : ∃ y, wholeBody ops (number s ++ [0]) x = some (.again y) :=
      ⟨_,by rw [wholeBody_eq ops hc,if_neg hdig]⟩
    rw [hstart,loop_endless hbody] at hr
    cases hr
  · intro hout
    have hbody : wholeBody ops (number s ++ [0]) (ops.zero,false) = some (.leave (ops.zero,false)) := by
      rw [wholeBody_eq ops hc,if_pos hout]
    exact ⟨1,_,by rw [hstart,loop_leave hbody]; rfl⟩

/-- The strings on which each of the loops ends before the terminator is passed. -/
theorem scans_iff {base : ℕ} (ops : Floats F) (hs : ∀ c ∈ s, c ≠ 0) (ht : ∀ c ∈ t, c ≠ 0) (hb : base ≠ 1 ∧ base ≤ 36) (ch : ℤ) :
    (∃ r, strchr (s ++ [0]) ch = some r) ∧ (∃ r, strspn (s ++ [0]) (t ++ [0]) = some r) ∧
      (∃ r, strcspn (s ++ [0]) (t ++ [0]) = some r) ∧ (∃ r, strcmp (s ++ [0]) (t ++ [0]) = some r) ∧
      ((∃ k r, strrchr k (s ++ [0]) ch = some r) ↔ s = []) ∧
      ((∃ r, strtol (s ++ [0]) base = some r) ↔ Stops false base (signed s).2) ∧
      ((∃ k r, strtod ops k (s ++ [0]) = some r) ↔ ∀ c ∈ (number s).head?, Numeral.isDigit 10 c = false) :=
  ⟨strchr_returns s ch,strspn_returns ht s,strcspn_returns ht s,strcmp_returns s t,strrchr_iff hs ch,
    strtol_returns_iff hb hs,strtod_iff ops s⟩

/-- Exact numbers in place of doubles. -/
def exactOps : Floats ℚ where
  zero := 0
  tenth := 1 / 10
  addDigit v d := v * 10 + d
  addFraction v d e := v + d * e
  neg v := -v
  timesTenth v := v * (1 / 10)
  timesTen v := v * 10
  divTen v := v / 10

theorem scans_iff_empty : (∃ r, strchr ([] ++ [0]) 0 = some r) ∧ (∃ r, strspn ([] ++ [0]) ([97] ++ [0]) = some r) ∧
    (∃ r, strcspn ([] ++ [0]) ([97] ++ [0]) = some r) ∧ (∃ r, strcmp ([] ++ [0]) ([97] ++ [0]) = some r) ∧
    ((∃ k r, strrchr k ([] ++ [0]) 0 = some r) ↔ ([] : List UInt8) = []) ∧
    ((∃ r, strtol ([] ++ [0]) 16 = some r) ↔ Stops false 16 (signed []).2) ∧
    ((∃ k r, strtod exactOps k ([] ++ [0]) = some r) ↔ ∀ c ∈ (number []).head?, Numeral.isDigit 10 c = false) :=
  scans_iff exactOps (by simp) (by simp) (by decide) 0

/-- On "7" strrchr and strtod never end, and strtol reads behind the terminator. -/
theorem scans_seven : (¬ ∃ k r, strrchr k ([55] ++ [0]) 55 = some r) ∧ strtol ([55] ++ [0]) 10 = none ∧
    ∀ (F : Type) (ops : Floats F), ¬ ∃ k r, strtod ops k ([55] ++ [0]) = some r := by
  refine ⟨fun h => ?_,by decide,fun F ops h => ?_⟩
  · exact absurd ((strrchr_iff (by simp) 55).mp h) (by decide)
  · exact absurd ((strtod_iff ops [55]).mp h 55 rfl) (by decide)

end Catlib.Scan
