import Catlib.Logic.CLiteral
import Mathlib.Data.BitVec
import Mathlib.Data.Nat.Digits.Lemmas

/-! # The conversions of integers in C's printf

A directive is a `%` with flags, a width, a precision, a length modifier and the character of the conversion. An
argument is a word of 64 bits, of which a conversion takes as many as its type has; an argument for a `*` comes with it.
-/
namespace Catlib.Printf
open CLit (isHex digitVal numeral)

/-! ## Directives -/

inductive Flag where
  | minus
  | plus
  | space
  | zero
  | alt
  deriving DecidableEq

def Flag.char : Flag → UInt8
  | .minus => 45
  | .plus => 43
  | .space => 32
  | .zero => 48
  | .alt => 35

def IsDigit (c : UInt8) : Prop := 48 ≤ c ∧ c ≤ 57

instance IsDigit.decidable (c : UInt8) : Decidable (IsDigit c) := inferInstanceAs (Decidable (_ ∧ _))

/-- The bits of an argument as an int. -/
def asInt (arg : BitVec 64) : ℤ := (arg.setWidth 32).toInt

/-- A width or a precision: digits, or a star with its argument. -/
inductive Count where
  | digits (text : List UInt8) (h : ∀ c ∈ text, IsDigit c)
  | star (arg : BitVec 64)

def Count.text : Count → List UInt8
  | .digits text _ => text
  | .star _ => [42]

def Count.args : Count → List (BitVec 64)
  | .digits .. => []
  | .star arg => [arg]

/-- Where there are no digits, the number is zero. -/
def Count.value : Count → ℤ
  | .digits text _ => numeral 10 text
  | .star arg => asInt arg

inductive Size where
  | char
  | short
  | plain
  | long
  | longlong
  | intmax
  | sizet
  | ptrdiff
  deriving DecidableEq

def Size.text : Size → List UInt8
  | .char => [104,104]
  | .short => [104]
  | .plain => []
  | .long => [108]
  | .longlong => [108,108]
  | .intmax => [106]
  | .sizet => [122]
  | .ptrdiff => [116]

def Size.bits : Size → ℕ
  | .char => 8
  | .short => 16
  | .plain => 32
  | _ => 64

inductive Conv where
  | d
  | u
  | o
  | x
  | X
  deriving DecidableEq

def Conv.char : Conv → UInt8
  | .d => 100
  | .u => 117
  | .o => 111
  | .x => 120
  | .X => 88

def Conv.base : Conv → ℕ
  | .o => 8
  | .x => 16
  | .X => 16
  | _ => 10

/-- The digits of a width do not begin with the zero that is a flag. -/
structure Directive where
  flags : List Flag
  width : Option Count
  precision : Option Count
  size : Size
  conv : Conv
  width_digits : ∀ text h, width = some (.digits text h) → text ≠ [] ∧ text.head? ≠ some 48

namespace Directive

/-- What stands behind the `%`. -/
def text (d : Directive) : List UInt8 :=
  d.flags.map Flag.char ++ d.width.elim [] Count.text ++ d.precision.elim [] (fun c => 46 :: c.text) ++ d.size.text ++ [d.conv.char]

def args (d : Directive) (arg : BitVec 64) : List (BitVec 64) := d.width.elim [] Count.args ++ d.precision.elim [] Count.args ++ [arg]

/-- A negative width is a flag `-` and a width. -/
def fieldWidth (d : Directive) : ℕ := d.width.elim 0 fun c => c.value.natAbs

def left (d : Directive) : Bool := decide (.minus ∈ d.flags) || d.width.any fun c => decide (c.value < 0)

/-- A negative precision is as if there were none. -/
def prec (d : Directive) : Option ℕ := d.precision.bind fun c => if c.value < 0 then none else some c.value.toNat

/-- The zeros that fill a field are for directives without a `-` and without a precision. -/
def zeroFill (d : Directive) : Bool := decide (.zero ∈ d.flags) && !d.left && d.prec.isNone

/-- The argument in its type. -/
def value (d : Directive) (arg : BitVec 64) : ℤ :=
  if d.conv = .d then (arg.setWidth d.size.bits).toInt else (arg.setWidth d.size.bits).toNat

end Directive

/-! ## Fields -/

def digitChar (cap : Bool) (n : ℕ) : UInt8 := .ofNat (if n < 10 then 48 + n else if cap then 55 + n else 87 + n)

/-- The digits of a number; zero has none. -/
def shown (cap : Bool) (b n : ℕ) : List UInt8 := ((Nat.digits b n).map (digitChar cap)).reverse

/-- The character that fills a field. -/
def filler (left zero : Bool) (fill : UInt8) : UInt8 := if zero then 48 else if left then fill else 32

/-- A field of at least some width: zeros behind the sign or the prefix, or a fill on one side. -/
def justify (left zero : Bool) (fill : UInt8) (width : ℕ) (lead body : List UInt8) : List UInt8 :=
  let n := width - (lead.length + body.length)
  if zero then lead ++ List.replicate n 48 ++ body
  else if left then lead ++ body ++ List.replicate n fill
  else List.replicate n 32 ++ lead ++ body

/-- A sign of a number. -/
def sign (plus space : Bool) (v : ℤ) : List UInt8 :=
  if v < 0 then [45] else if plus then [43] else if space then [32] else []

namespace Directive

/-- What stands in front of the digits. -/
def lead (d : Directive) (v : ℤ) : List UInt8 :=
  match d.conv with
  | .d => sign (.plus ∈ d.flags) (.space ∈ d.flags) v
  | .x => if .alt ∈ d.flags ∧ v ≠ 0 then [48,120] else []
  | .X => if .alt ∈ d.flags ∧ v ≠ 0 then [48,88] else []
  | _ => []

/-- The digits, with zeros for the precision; `#` has an octal number begin with a zero. -/
def body (d : Directive) (v : ℤ) : List UInt8 :=
  let s := shown (d.conv = .X) d.conv.base v.natAbs
  let s := List.replicate (d.prec.getD 1 - s.length) 48 ++ s
  if d.conv = .o ∧ .alt ∈ d.flags ∧ s.head? ≠ some 48 then 48 :: s else s

/-- What printf writes. -/
def output (d : Directive) (arg : BitVec 64) : List UInt8 :=
  justify d.left d.zeroFill 32 d.fieldWidth (d.lead (d.value arg)) (d.body (d.value arg))

end Directive

/-! ## What fields say -/

variable {left zero zero' cap : Bool} {fill c : UInt8} {width a b n : ℕ} {lead body s : List UInt8}

theorem length_justify (left zero : Bool) (fill : UInt8) (width : ℕ) (lead body : List UInt8) :
    (justify left zero fill width lead body).length = max width (lead.length + body.length) := by
  rw [justify]
  split
  · simp only [List.length_append, List.length_replicate]
    omega
  · split <;> simp only [List.length_append, List.length_replicate] <;> omega

theorem justify_full (h : width ≤ lead.length + body.length) : justify left zero fill width lead body = lead ++ body := by
  rw [justify,Nat.sub_eq_zero_of_le h]
  cases zero <;> cases left <;> simp

theorem count_justify (c : UInt8) : (justify left zero fill width lead body).count c =
    lead.count c + body.count c + if filler left zero fill = c then width - (lead.length + body.length) else 0 := by
  rw [justify,filler]
  cases zero <;> cases left <;>
    simp only [Bool.false_eq_true, if_false, if_true, List.count_append, List.count_replicate, beq_iff_eq] <;> omega

theorem justify_iff (hzero : zero' = true → zero = true) : justify left zero fill width lead body = justify left zero' 32 width lead body ↔
    width ≤ lead.length + body.length ∨ filler left zero fill = filler left zero' 32 := by
  constructor
  · intro h
    by_contra hno
    push Not at hno
    have hc := congrArg (List.count (filler left zero fill)) h
    rw [count_justify,count_justify,if_pos rfl,if_neg hno.2.symm] at hc
    omega
  · rintro (h | h)
    · rw [justify_full h,justify_full h]
    · rw [justify,justify]
      cases zero <;> cases zero' <;> cases left <;> simp_all [filler]

theorem justify_more (hzero : zero' = true → zero = true) (hab : b < a) :
    justify left zero fill width lead (List.replicate a 48 ++ s) = justify left zero' 32 width lead (List.replicate b 48 ++ s) ↔
      zero' = true ∧ lead.length + a + s.length ≤ width := by
  cases hz : zero' with
  | false =>
    refine iff_of_false (fun h => ?_) (fun h => by cases h.1)
    have hc := congrArg (List.count 48) h
    rw [count_justify,count_justify,List.count_append,List.count_append,List.count_replicate_self,List.count_replicate_self,
      if_neg (show ¬filler left false 32 = 48 by cases left <;> decide)] at hc
    omega
  | true =>
    rw [hzero hz]
    have hlen : ∀ m, (List.replicate m (48 : UInt8) ++ s).length = m + s.length := fun m => by
      rw [List.length_append,List.length_replicate]
    constructor
    · intro h
      have hl := congrArg List.length h
      rw [length_justify,length_justify,hlen,hlen] at hl
      exact ⟨rfl,by omega⟩
    · rintro ⟨-,h⟩
      have hfill : ∀ m ≤ a, justify left true fill width lead (List.replicate m 48 ++ s) =
          lead ++ List.replicate (width - (lead.length + s.length)) 48 ++ s := by
        intro m hm
        rw [justify,if_pos rfl,hlen,← List.append_assoc,List.append_assoc lead,← List.replicate_add]
        congr 4
        omega
      rw [hfill a le_rfl]
      exact (hfill b hab.le).symm

theorem justify_zeros_iff (hzero : zero' = true → zero = true) (hab : b ≤ a) :
    justify left zero fill width lead (List.replicate a 48 ++ s) = justify left zero' 32 width lead (List.replicate b 48 ++ s) ↔
      a = b ∧ (width ≤ lead.length + (List.replicate b (48 : UInt8) ++ s).length ∨ filler left zero fill = filler left zero' 32) ∨
        b < a ∧ zero' = true ∧ lead.length + a + s.length ≤ width := by
  rcases Nat.lt_or_eq_of_le hab with hlt | rfl
  · rw [justify_more hzero hlt,and_iff_right hlt,or_iff_right fun h => hlt.ne' h.1]
  · simp only [justify_iff hzero, lt_irrefl, true_and, false_and, or_false]

theorem justify_zero_lead (body : List UInt8) : justify left zero fill width [48] body = justify left zero fill width [] (48 :: body) := by
  have hlen : width - ([(48 : UInt8)].length + body.length) = width - (([] : List UInt8).length + (48 :: body).length) := by
    simp only [List.length_cons, List.length_nil]
    omega
  rw [justify,justify,hlen]
  cases zero
  · cases left <;> simp
  · simp only [if_true, List.nil_append, List.cons_append]
    rw [← List.cons_append,← List.replicate_succ,List.replicate_succ',List.append_assoc,List.singleton_append]

/-! ## The numbers in fields -/

/-- A character more of a number; spaces do not count, and what is no digit counts as zero. -/
def weigh (b acc : ℕ) (c : UInt8) : ℕ := if c = 32 then acc else b * acc + if isHex c then digitVal c else 0

def reading (b : ℕ) (l : List UInt8) : ℕ := l.foldl (weigh b) 0

theorem digitChar_spec (cap : Bool) (hn : n < 16) :
    isHex (digitChar cap n) = true ∧ digitVal (digitChar cap n) = n ∧ digitChar cap n ≠ 32 ∧ digitChar cap n ≠ 45 ∧
      (digitChar cap n = 48 → n = 0) := by
  have hall : ∀ cap : Bool, ∀ n < 16, isHex (digitChar cap n) = true ∧ digitVal (digitChar cap n) = n ∧ digitChar cap n ≠ 32 ∧
      digitChar cap n ≠ 45 ∧ (digitChar cap n = 48 → n = 0) := by decide
  exact hall cap n hn

theorem shown_zero (cap : Bool) (b : ℕ) : shown cap b 0 = [] := by rw [shown,Nat.digits_zero,List.map_nil,List.reverse_nil]

theorem shown_eq_nil (hn : shown cap b n = []) : n = 0 := by
  rw [shown,List.reverse_eq_nil_iff,List.map_eq_nil_iff] at hn
  exact Nat.digits_eq_nil_iff_eq_zero.mp hn

theorem reading_shown (cap : Bool) (hb : 1 < b) (hb16 : b ≤ 16) (n : ℕ) : reading b (shown cap b n) = n := by
  have hstep : ∀ l : List ℕ, (∀ d ∈ l, d < 16) → (l.map (digitChar cap)).foldr (fun c acc => weigh b acc c) 0 = Nat.ofDigits b l := by
    intro l hl
    induction l with
    | nil => rfl
    | cons d l ih =>
      rw [List.forall_mem_cons] at hl
      obtain ⟨hhex,hval,hspace,-⟩ := digitChar_spec cap hl.1
      rw [List.map_cons,List.foldr_cons,ih hl.2,weigh,if_neg hspace,if_pos hhex,hval,Nat.ofDigits_cons]
      exact Nat.add_comm ..
  rw [reading,shown,List.foldl_reverse,hstep _ fun d hd => (Nat.digits_lt_base hb hd).trans_le hb16,Nat.ofDigits_digits]

theorem head_shown (cap : Bool) (hb : 1 < b) (hb16 : b ≤ 16) (n : ℕ) : (shown cap b n).head? ≠ some 48 := by
  rcases Nat.eq_zero_or_pos n with rfl | hn
  · rw [shown_zero]
    nofun
  · have hne : Nat.digits b n ≠ [] := Nat.digits_ne_nil_iff_ne_zero.mpr hn.ne'
    rw [shown,List.head?_reverse,List.getLast?_map,List.getLast?_eq_getLast_of_ne_nil hne]
    intro h
    have hlast := Nat.getLast_digit_ne_zero b hn.ne'
    have hlt := (Nat.digits_lt_base hb (List.getLast_mem hne)).trans_le hb16
    exact hlast ((digitChar_spec cap hlt).2.2.2.2 (Option.some.inj h))

theorem foldl_spaces (b acc k : ℕ) : (List.replicate k 32).foldl (weigh b) acc = acc := by
  induction k with
  | zero => rfl
  | succ k ih => rw [List.replicate_succ,List.foldl_cons,weigh,if_pos rfl,ih]

theorem weigh_zero (b acc : ℕ) : weigh b acc 48 = b * acc := by
  rw [weigh,if_neg (by decide)]
  exact Nat.add_zero _

theorem foldl_zeros (b k : ℕ) : (List.replicate k 48).foldl (weigh b) 0 = 0 := by
  induction k with
  | zero => rfl
  | succ k ih => rw [List.replicate_succ,List.foldl_cons,weigh_zero,Nat.mul_zero,ih]

theorem le_foldl_zeros (hb : 0 < b) (acc k : ℕ) : acc ≤ (List.replicate k 48).foldl (weigh b) acc := by
  induction k generalizing acc with
  | zero => exact le_rfl
  | succ k ih =>
    rw [List.replicate_succ,List.foldl_cons,weigh_zero]
    exact (Nat.le_mul_of_pos_left acc hb).trans (ih _)

theorem reading_zeros (hb : 1 < b) (hb16 : b ≤ 16) (cap : Bool) (n k : ℕ) : reading b (List.replicate k 48 ++ shown cap b n) = n := by
  rw [reading,List.foldl_append,foldl_zeros]
  exact reading_shown cap hb hb16 n

theorem reading_justify (hlead : reading b lead = 0) (hbody : reading b body = n) (left zero : Bool) (width : ℕ) :
    reading b (justify left zero 32 width lead body) = n := by
  rw [reading] at hlead hbody ⊢
  rw [justify]
  cases zero <;> cases left <;>
    simp only [Bool.false_eq_true, if_false, if_true, List.foldl_append, foldl_spaces, foldl_zeros, hlead, hbody]

theorem le_reading_justify (hb : 0 < b) (hlead : reading b lead = 0) (hbody : reading b body = n) (left zero : Bool) (width : ℕ) :
    n ≤ reading b (justify left zero 48 width lead body) := by
  rw [reading] at hlead hbody ⊢
  rw [justify]
  cases zero <;> cases left <;>
    simp only [Bool.false_eq_true, if_false, if_true, List.foldl_append, foldl_spaces, foldl_zeros, hlead, hbody, le_refl]
  exact le_foldl_zeros hb ..

theorem reading_sign (b : ℕ) (plus space : Bool) (v : ℤ) : reading b (sign plus space v) = 0 := by
  rw [sign]
  split
  · rfl
  · cases plus <;> cases space <;> rfl

theorem mem_minus (plus space : Bool) (v : ℤ) (left zero : Bool) (width k : ℕ) (hb : 1 < b) (hb16 : b ≤ 16) :
    (45 : UInt8) ∈ justify left zero 32 width (sign plus space v) (List.replicate k 48 ++ shown cap b n) ↔ v < 0 := by
  have hshown : (45 : UInt8) ∉ shown cap b n := by
    intro h
    rw [shown,List.mem_reverse] at h
    obtain ⟨d,hd,h⟩ := List.mem_map.mp h
    exact (digitChar_spec cap ((Nat.digits_lt_base hb hd).trans_le hb16)).2.2.2.1 h
  have hzeros : ∀ m, (45 : UInt8) ∉ List.replicate m (48 : UInt8) := fun m h => absurd (List.eq_of_mem_replicate h) (by decide)
  have hspaces : ∀ m, (45 : UInt8) ∉ List.replicate m (32 : UInt8) := fun m h => absurd (List.eq_of_mem_replicate h) (by decide)
  have hsign : (45 : UInt8) ∈ sign plus space v ↔ v < 0 := by
    rw [sign]
    split
    · exact iff_of_true List.mem_cons_self ‹_›
    · refine iff_of_false ?_ ‹_›
      cases plus <;> cases space <;> decide
  rw [← hsign,justify]
  cases zero <;> cases left <;>
    simp only [Bool.false_eq_true, if_false, if_true, List.mem_append, hshown, hzeros, hspaces, or_false, false_or]

end Catlib.Printf
