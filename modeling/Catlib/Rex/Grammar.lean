import Catlib.Rex.Parse

/-! # The patterns that rex_init is to accept

The supported syntax as a grammar of its own, and the scan that says how far a pattern can be
read before one of the slips of the parser matters: the scan follows a pattern item by item
up to its end or its first error.
-/
namespace Catlib.Rex

/-! ## The supported syntax -/

/-- The value of a row of digits. -/
def value (ds : List UInt8) : ℕ := ds.foldl (fun v c => v * 10 + (c.toNat - 48)) 0

/-- A bound: digits of a value of at most 255. -/
structure Bound (ds : List UInt8) : Prop where
  nonempty : ds ≠ []
  digits : ∀ c ∈ ds, isDigit c = true
  small : value ds ≤ 255

/-- A repetition, or none. -/
inductive Rep : List UInt8 → Prop
  | none : Rep []
  | question : Rep [63]
  | star : Rep [42]
  | plus : Rep [43]
  | exactly {m : List UInt8} (hm : Bound m) : Rep (123 :: (m ++ [125]))
  | atLeast {m : List UInt8} (hm : Bound m) : Rep (123 :: (m ++ [44,125]))
  | atMost {n : List UInt8} (hn : Bound n) : Rep (123 :: 44 :: (n ++ [125]))
  | between {m n : List UInt8} (hm : Bound m) (hn : Bound n) (h : value m ≤ value n) :
      Rep (123 :: (m ++ 44 :: (n ++ [125])))

/-- The ranges of a class go up; a `-` makes a range unless it is the first or the last. -/
def ordered (prev : Option UInt8) : List UInt8 → Bool
  | [] => true
  | [_] => true
  | c :: last :: s =>
    match prev with
    | none => ordered (some c) (last :: s)
    | some ch => if c = 45 then ch ≤ last && ordered (some last) s else ordered (some c) (last :: s)

/-- The text of a class behind `[` and `^`: a first character, which may be `]`, and others. -/
inductive ClassBody : List UInt8 → Prop
  | intro {c : UInt8} {cs : List UInt8} (hcs : 93 ∉ cs) (h : ordered none (c :: cs) = true) : ClassBody (c :: cs)

inductive Atom : List UInt8 → Prop
  | char {c : UInt8} (h : c ∉ special) : Atom [c]
  | escape (c : UInt8) : Atom [92,c]
  | any : Atom [46]
  | cls {cs : List UInt8} (h : ClassBody cs) (h' : cs.head? ≠ some 94) : Atom (91 :: (cs ++ [93]))
  | clsInverted {cs : List UInt8} (h : ClassBody cs) : Atom (91 :: 94 :: (cs ++ [93]))

/-- The rest of a pattern within a number of open groups. -/
inductive Rest : ℕ → List UInt8 → Prop
  | stop : Rest 0 []
  | atom {d : ℕ} {a rep s : List UInt8} (ha : Atom a) (hr : Rep rep) (h : Rest d s) : Rest d (a ++ (rep ++ s))
  | anchor {d : ℕ} {c : UInt8} {s : List UInt8} (hc : c = 94 ∨ c = 36) (h : Rest d s) : Rest d (c :: s)
  | choice {d : ℕ} {s : List UInt8} (h : Rest d s) : Rest d (124 :: s)
  | groupS {d : ℕ} {s : List UInt8} (h : Rest (d + 1) s) : Rest d (40 :: s)
  | groupE {d : ℕ} {rep s : List UInt8} (hr : Rep rep) (h : Rest d s) : Rest (d + 1) (41 :: (rep ++ s))

def Supported (pat : List UInt8) : Prop := Rest 0 pat

/-! ## The scan -/

/-- What the parser makes of an item: it goes on behind it, or reports an error, or one of its
slips matters. -/
inductive Scan where
  | go (s : List UInt8)
  | reject
  | slip

/-- The scan with what follows. -/
def Scan.fine (x : Scan) (f : List UInt8 → Bool) : Bool :=
  match x with
  | .go s => f s
  | .reject => true
  | .slip => false

/-- One scan behind another. -/
def Scan.bind (x : Scan) (f : List UInt8 → Scan) : Scan :=
  match x with
  | .go s => f s
  | .reject => .reject
  | .slip => .slip

/-- The second bound of a repetition; `m` is the first. The slips are `{,}`, which is accepted,
`{0,0}` and `{,0}`, which are not, an overflow, and digits up to the end of the pattern. -/
def scanUpper (m s : List UInt8) : Scan :=
  let n := s.takeWhile isDigit
  match s.dropWhile isDigit with
  | [] => .slip
  | c :: t =>
    if value n > intMax then .slip
    else if value n > 255 then .reject
    else if n = [] then if c ≠ 125 then .reject else if m = [] then .slip else .go t
    else if value m > value n then .reject
    else if value n = 0 then if c = 125 then .slip else .reject
    else if c = 125 then .go t
    else .reject

/-- A repetition. The slips are `{}`, which is accepted, and `{0}`, which is not, and those of
the second bound. -/
def scanRep : List UInt8 → Scan
  | [] => .go []
  | c :: s =>
    if c = 123 then
      let m := s.takeWhile isDigit
      match s.dropWhile isDigit with
      | [] => .slip
      | c :: t =>
        if value m > intMax then .slip
        else if value m > 255 then .reject
        else if c = 44 then scanUpper m t
        else if c ≠ 125 then .reject
        else if value m = 0 then .slip
        else .go t
    else if c = 63 ∨ c = 42 ∨ c = 43 then .go s
    else .go (c :: s)

/-- A row of at most `k` more characters, after an escape or not. The slips are an escape as the
32nd character, and an escape in a row that ends with the pattern. -/
def scanString : ℕ → Bool → List UInt8 → Scan
  | 0, _, s => .go s
  | _ + 1, esc, [] => if esc then .slip else .go []
  | k + 1, esc, c :: s =>
    if c = 92 then
      match s with
      | [] => if k = 0 ∨ esc = false then .reject else .slip
      | _ :: s => if k = 0 then .slip else scanString k true s
    else if c ∈ special then .go (c :: s)
    else scanString k esc s

theorem ne_of_not_special {c : UInt8} (hc : c ∉ special) : c ≠ 92 := by
  rintro rfl
  exact hc (by decide)

theorem scanString_char {c : UInt8} {s : List UInt8} {k : ℕ} {esc : Bool} (hc : c ∉ special) : scanString (k + 1) esc (c :: s) = scanString k esc s := by
  cases s <;> simp only [scanString, if_neg (ne_of_not_special hc), if_neg hc]

theorem scanString_stop {c : UInt8} {s : List UInt8} {k : ℕ} {esc : Bool} (hc : c ∈ special) (h : c ≠ 92) : scanString (k + 1) esc (c :: s) = .go (c :: s) := by
  cases s <;> simp only [scanString, if_neg h, if_pos hc]

/-- The text of a class; the slip is a missing end. -/
def scanBody : List UInt8 → Scan
  | [] => .reject
  | c :: s =>
    if ordered none (c :: s.takeWhile (· ≠ 93)) = false then .reject
    else
      match s.dropWhile (· ≠ 93) with
      | [] => .slip
      | _ :: t => .go t

def scanClass : List UInt8 → Scan
  | [] => .reject
  | c :: s => if c = 94 then scanBody s else scanBody (c :: s)

/-- No slip of the parser matters up to the end of the pattern or its first error: `d` groups
are open, and the alternative is empty so far or not. A bar behind an empty alternative is a slip. -/
def fineFrom : ℕ → ℕ → Bool → List UInt8 → Bool
  | 0, _, _, _ => true
  | _ + 1, _, _, [] => true
  | k + 1, d, empty, c :: s =>
    if c ∈ [42,93,43,63,123,125] then true
    else if c = 94 ∨ c = 36 then fineFrom k d false s
    else if c = 40 then fineFrom k (d + 1) true s
    else if c = 91 then ((scanClass s).bind scanRep).fine (fineFrom k d false)
    else if c = 41 then if d = 0 then true else (scanRep s).fine (fineFrom k (d - 1) false)
    else if c = 46 then (scanRep s).fine (fineFrom k d false)
    else if c = 124 then !empty && fineFrom k d true s
    else ((scanString 32 false (c :: s)).bind scanRep).fine (fineFrom k d false)

def fine (pat : List UInt8) : Bool := fineFrom pat.length 0 true pat

end Catlib.Rex
