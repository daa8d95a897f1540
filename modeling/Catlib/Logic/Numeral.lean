import Mathlib.Data.List.TakeWhile
import Mathlib.Tactic.Common

/-! # Numbers as C reads them

White space, a sign, a prefix and digits, in a base or (base 0) as an integer constant.
`Longest` is the longest beginning of a text that is such a number; `read` finds it.
-/
namespace Catlib.Numeral

variable {base r : ℕ} {s t ds rest : List UInt8} {v : ℤ} {c : UInt8}

/-- White space in the C locale. -/
def isSpace (c : UInt8) : Bool := c == 32 || (9 ≤ c && c ≤ 13)

/-- What a digit stands for; 36 for what is no digit in any base. -/
def digit (c : UInt8) : ℕ :=
  if 48 ≤ c.toNat ∧ c.toNat ≤ 57 then c.toNat - 48
  else if 97 ≤ c.toNat ∧ c.toNat ≤ 122 then c.toNat - 87
  else if 65 ≤ c.toNat ∧ c.toNat ≤ 90 then c.toNat - 55 else 36

def isDigit (r : ℕ) (c : UInt8) : Bool := digit c < r

def value (r : ℕ) (ds : List UInt8) : ℕ := ds.foldl (fun v c => v * r + digit c) 0

/-- At least one digit, and nothing else. -/
def DigitsOf (r : ℕ) (ds : List UInt8) : Prop := ds ≠ [] ∧ ∀ c ∈ ds, isDigit r c

/-- A number without its sign. Base 0 takes the three forms of an integer constant. -/
inductive Magnitude (base : ℕ) : List UInt8 → ℕ → Prop
  | plain {ds : List UInt8} (hb : base ≠ 0) (h : DigitsOf base ds) : Magnitude base ds (value base ds)
  | hex {x : UInt8} {ds : List UInt8} (hb : base = 0 ∨ base = 16) (hx : x = 120 ∨ x = 88) (h : DigitsOf 16 ds) :
    Magnitude base (48 :: x :: ds) (value 16 ds)
  | octal {ds : List UInt8} (hb : base = 0) (h : DigitsOf 8 (48 :: ds)) : Magnitude base (48 :: ds) (value 8 (48 :: ds))
  | decimal {d : UInt8} {ds : List UInt8} (hb : base = 0) (hd : d ≠ 48) (h : DigitsOf 10 (d :: ds)) :
    Magnitude base (d :: ds) (value 10 (d :: ds))

inductive Sign : List UInt8 → ℤ → Prop
  | none : Sign [] 1
  | plus : Sign [43] 1
  | minus : Sign [45] (-1)

/-- A text that is a number, with the number it denotes. -/
inductive Denotes (base : ℕ) : List UInt8 → ℤ → Prop
  | mk {ws sg ds : List UInt8} {k : ℤ} {n : ℕ} (hws : ∀ c ∈ ws, isSpace c) (hsg : Sign sg k) (h : Magnitude base ds n) :
    Denotes base (ws ++ (sg ++ ds)) (k * n)

/-- The longest beginning of a text that is a number. -/
structure Longest (base : ℕ) (s t : List UInt8) (v : ℤ) : Prop where
  denotes : Denotes base t v
  isPrefix : t <+: s
  max : ∀ t' v', Denotes base t' v' → t' <+: s → t'.length ≤ t.length

/-! ## The reader -/

def splitSign : List UInt8 → ℤ × List UInt8
  | [] => (1,[])
  | c :: t => if c = 45 then (-1,t) else if c = 43 then (1,t) else (1,c :: t)

/-- A prefix of a hexadecimal number, and a digit behind it. -/
def hexAt (t : List UInt8) : Bool :=
  t[0]? == some 48 && (t[1]? == some 120 || t[1]? == some 88) && t[2]?.any (isDigit 16)

/-- The text has a prefix that its base allows. -/
def prefixed (base : ℕ) (t : List UInt8) : Bool := (base == 0 || base == 16) && hexAt t

def radix (base : ℕ) (t : List UInt8) : ℕ :=
  if prefixed base t then 16 else if base = 0 then if t[0]? = some 48 then 8 else 10 else base

/-- Where the digits begin. -/
def behind (base : ℕ) (t : List UInt8) : List UInt8 := if prefixed base t then t.drop 2 else t

/-- The digits of a number without its sign. -/
def digitsAt (base : ℕ) (t : List UInt8) : List UInt8 := (behind base t).takeWhile (isDigit (radix base t))

/-- The text behind white space, and behind a sign. -/
def body (s : List UInt8) : ℤ × List UInt8 := splitSign (s.dropWhile isSpace)

/-- The number at the beginning of a text, and what is left behind it. -/
def read (base : ℕ) (s : List UInt8) : Option (ℤ × List UInt8) :=
  let (k,t) := body s
  if digitsAt base t = [] then none
  else some (k * value (radix base t) (digitsAt base t),(behind base t).dropWhile (isDigit (radix base t)))

/-! ## Characters -/

theorem digit_lt_of_isDigit (h : isDigit r c) : digit c < r := by simpa [isDigit] using h

theorem isDigit_apart (hr : r ≤ 36) (h : isDigit r c) : isSpace c = false ∧ c ≠ 45 ∧ c ≠ 43 := by
  have hd := digit_lt_of_isDigit h
  have hn : 48 ≤ c.toNat := by
    unfold digit at hd
    split_ifs at hd <;> omega
  refine ⟨?_,?_,?_⟩
  · simp only [isSpace, Bool.or_eq_false_iff, beq_eq_false_iff_ne, Bool.and_eq_false_iff, decide_eq_false_iff_not]
    constructor
    · rintro rfl
      exact absurd hn (by decide)
    · right
      rw [UInt8.le_iff_toNat_le]
      show ¬c.toNat ≤ 13
      omega
  · rintro rfl
    exact absurd hn (by decide)
  · rintro rfl
    exact absurd hn (by decide)

theorem isDigit_x {x : UInt8} (hx : x = 120 ∨ x = 88) (hr : r ≤ 33) : isDigit r x = false := by
  have h33 : digit x = 33 := by
    rcases hx with rfl | rfl <;> rfl
  simp [isDigit, h33, hr]

/-! ## The reader finds the longest number -/

theorem dropWhile_spaces {ws u : List UInt8} (hws : ∀ c ∈ ws, isSpace c) (hu : ∀ c ∈ u.head?, isSpace c = false) :
    (ws ++ u).dropWhile isSpace = u := by
  rw [List.dropWhile_append_of_pos hws]
  cases u with
  | nil => rfl
  | cons c u => rw [List.dropWhile_cons_of_neg (by rw [hu c rfl]; decide)]

theorem Magnitude.head (hb : base ≤ 36) {n : ℕ} (h : Magnitude base ds n) : ∃ c u, ds = c :: u ∧
    isSpace c = false ∧ c ≠ 45 ∧ c ≠ 43 := by
  have hplain : ∀ {r ds}, r ≤ 36 → DigitsOf r ds → ∃ c u, ds = c :: u ∧ isSpace c = false ∧ c ≠ 45 ∧ c ≠ 43 := by
    rintro r ds hr ⟨hne,hd⟩
    cases ds with
    | nil => exact absurd rfl hne
    | cons c u => exact ⟨c,u,rfl,isDigit_apart hr (hd c List.mem_cons_self)⟩
  cases h with
  | plain _ h => exact hplain hb h
  | hex _ _ _ => exact ⟨_,_,rfl,by decide⟩
  | octal _ h => exact hplain (by decide) h
  | decimal _ _ h => exact hplain (by decide) h

theorem body_append (hb : base ≤ 36) {ws sg : List UInt8} {k : ℤ} {n : ℕ} (hws : ∀ c ∈ ws, isSpace c) (hsg : Sign sg k)
    (h : Magnitude base ds n) (rest : List UInt8) : body (ws ++ (sg ++ ds) ++ rest) = (k,ds ++ rest) := by
  obtain ⟨c,u,rfl,hsp,h45,h43⟩ := h.head hb
  rw [body,List.append_assoc,dropWhile_spaces hws]
  · cases hsg with
    | none => simp [splitSign, h45, h43]
    | plus => rfl
    | minus => rfl
  · cases hsg with
    | none => simpa using hsp
    | plus => simp [isSpace]
    | minus => simp [isSpace]

theorem takeWhile_digits (h : ∀ c ∈ ds, isDigit r c) (rest : List UInt8) :
    (ds ++ rest).takeWhile (isDigit r) = ds ++ rest.takeWhile (isDigit r) := List.takeWhile_append_of_pos h

/-- What is read of a text without space and sign: the digits, what is left, and what they stand for. -/
structure ReadsAt (base : ℕ) (t rest : List UInt8) (n : ℕ) : Prop where
  digits : digitsAt base t ≠ []
  left : (behind base t).dropWhile (isDigit (radix base t)) <:+ rest
  value : rest = [] → value (radix base t) (digitsAt base t) = n

theorem readsAt_plain (hd : DigitsOf r ds) (hp : prefixed base (ds ++ rest) = false) (hr : radix base (ds ++ rest) = r) :
    ReadsAt base (ds ++ rest) rest (value r ds) := by
  obtain ⟨hne,hd⟩ := hd
  have hb : behind base (ds ++ rest) = ds ++ rest := if_neg (by simp [hp])
  have hda : digitsAt base (ds ++ rest) = ds ++ rest.takeWhile (isDigit r) := by
    rw [digitsAt,hb,hr,takeWhile_digits hd]
  refine ⟨?_,?_,?_⟩
  · rw [hda]
    simp [hne]
  · rw [hb,hr,List.dropWhile_append_of_pos hd]
    exact List.dropWhile_suffix _
  · rintro rfl
    rw [hda,hr]
    simp

theorem readsAt_prefixed (hr : r ≤ 33) (hd : DigitsOf r ds) (hp : prefixed base (ds ++ rest) = true) {n : ℕ} :
    ReadsAt base (ds ++ rest) rest n := by
  have hhex : hexAt (ds ++ rest) = true := by
    simp only [prefixed, Bool.and_eq_true] at hp
    exact hp.2
  obtain ⟨hne,hd⟩ := hd
  match ds, rest, hne with
  | [c], [], _ => simp [hexAt] at hhex
  | [c], [x], _ => simp [hexAt] at hhex
  | [c], x :: d :: w, _ =>
    have hdig : isDigit 16 d = true := by
      simp [hexAt] at hhex
      exact hhex.2
    have hbeh : behind base ([c] ++ x :: d :: w) = d :: w := if_pos hp
    have hrad : radix base ([c] ++ x :: d :: w) = 16 := if_pos hp
    refine ⟨?_,?_,nofun⟩
    · rw [digitsAt,hbeh,hrad,List.takeWhile_cons_of_pos hdig]
      exact List.cons_ne_nil _ _
    · rw [hbeh,hrad]
      exact (List.dropWhile_suffix _).trans (List.suffix_cons _ _)
  | c :: x :: ds, rest, _ =>
    simp only [hexAt, List.cons_append, List.getElem?_cons_zero, List.getElem?_cons_succ, Bool.and_eq_true,
      Bool.or_eq_true, beq_iff_eq, Option.some.injEq] at hhex
    have hx := hd x (by simp)
    rw [isDigit_x hhex.1.2 hr] at hx
    cases hx

theorem prefixed_of_digit (hb : base ≠ 0) (hb' : base ≠ 16) (t : List UInt8) : prefixed base t = false := by
  simp [prefixed, hb, hb']

theorem Magnitude.readsAt {n : ℕ} (h : Magnitude base ds n) (rest : List UInt8) : ReadsAt base (ds ++ rest) rest n := by
  cases h with
  | plain hb h =>
    cases hp : prefixed base (ds ++ rest) with
    | false => exact readsAt_plain h hp (by rw [radix,hp,if_neg (by decide),if_neg hb])
    | true =>
      have h16 : base = 16 := by
        simp only [prefixed, Bool.and_eq_true, Bool.or_eq_true, beq_iff_eq] at hp
        exact hp.1.resolve_left hb
      exact readsAt_prefixed (by omega) h hp
  | @hex x ds hb hx h =>
    obtain ⟨hne,hd⟩ := h
    obtain ⟨d,u,rfl⟩ := List.exists_cons_of_ne_nil hne
    have hp : prefixed base (48 :: x :: (d :: u) ++ rest) = true := by
      have hdig := hd d List.mem_cons_self
      simp [prefixed, hexAt, hb, hx, hdig]
    have hbeh : behind base (48 :: x :: (d :: u) ++ rest) = d :: u ++ rest := if_pos hp
    have hrad : radix base (48 :: x :: (d :: u) ++ rest) = 16 := if_pos hp
    refine ⟨?_,?_,?_⟩
    · rw [digitsAt,hbeh,hrad,takeWhile_digits hd]
      exact List.cons_ne_nil _ _
    · rw [hbeh,hrad,List.dropWhile_append_of_pos hd]
      exact List.dropWhile_suffix _
    · rintro rfl
      rw [digitsAt,hbeh,hrad,takeWhile_digits hd]
      simp
  | @octal ds hb h =>
    cases hp : prefixed base (48 :: ds ++ rest) with
    | false => exact readsAt_plain h hp (by rw [radix,hp,if_neg (by decide),if_pos hb,if_pos (by simp)])
    | true => exact readsAt_prefixed (by decide) h hp
  | @decimal d ds hb hd h =>
    have hp : prefixed base (d :: ds ++ rest) = false := by simp [prefixed, hexAt, hd]
    exact readsAt_plain h hp (by rw [radix,hp,if_neg (by decide),if_pos hb,if_neg (by simpa using hd)])

theorem read_append (hb : base ≤ 36) (h : Denotes base t v) (rest : List UInt8) :
    ∃ v' left, read base (t ++ rest) = some (v',left) ∧ left <:+ rest ∧ (rest = [] → v' = v) := by
  cases h with
  | mk hws hsg h =>
    obtain ⟨hdig,hleft,hval⟩ := h.readsAt rest
    refine ⟨_,_,by rw [read,body_append hb hws hsg h rest]; exact if_neg hdig,hleft,fun hr => ?_⟩
    rw [hval hr]

theorem splitSign_spec (u : List UInt8) : ∃ sg, Sign sg (splitSign u).1 ∧ u = sg ++ (splitSign u).2 := by
  match u with
  | [] => exact ⟨[],.none,rfl⟩
  | c :: t =>
    by_cases h45 : c = 45
    · subst h45
      exact ⟨[45],.minus,rfl⟩
    · by_cases h43 : c = 43
      · subst h43
        exact ⟨[43],.plus,rfl⟩
      · rw [splitSign,if_neg h45,if_neg h43]
        exact ⟨[],.none,rfl⟩

theorem body_spec (s : List UInt8) : ∃ ws sg, (∀ c ∈ ws, isSpace c) ∧ Sign sg (body s).1 ∧ s = ws ++ (sg ++ (body s).2) := by
  obtain ⟨sg,hsg,hu⟩ := splitSign_spec (s.dropWhile isSpace)
  refine ⟨s.takeWhile isSpace,sg,fun c hc => List.mem_takeWhile_imp hc,hsg,?_⟩
  rw [body,← hu,List.takeWhile_append_dropWhile]

theorem digitsAt_magnitude (h : digitsAt base t ≠ []) : ∃ ds, t = ds ++ (behind base t).dropWhile (isDigit (radix base t)) ∧
    Magnitude base ds (value (radix base t) (digitsAt base t)) := by
  have hdig : DigitsOf (radix base t) (digitsAt base t) := ⟨h,fun c hc => List.mem_takeWhile_imp hc⟩
  have hsplit : behind base t = digitsAt base t ++ (behind base t).dropWhile (isDigit (radix base t)) :=
    List.takeWhile_append_dropWhile.symm
  cases hp : prefixed base t with
  | true =>
    have hb : base = 0 ∨ base = 16 := by
      simp only [prefixed, Bool.and_eq_true, Bool.or_eq_true, beq_iff_eq] at hp
      exact hp.1
    have hhex : hexAt t = true := by
      simp only [prefixed, Bool.and_eq_true] at hp
      exact hp.2
    have hr : radix base t = 16 := if_pos hp
    match t, hhex with
    | [], hhex => cases hhex
    | [_], hhex => simp [hexAt] at hhex
    | c :: x :: u, hhex =>
      have hbeh : behind base (c :: x :: u) = u := if_pos hp
      simp only [hexAt, List.getElem?_cons_zero, List.getElem?_cons_succ, Bool.and_eq_true, Bool.or_eq_true,
        beq_iff_eq, Option.some.injEq] at hhex
      obtain ⟨⟨rfl,hx⟩,-⟩ := hhex
      rw [hr] at hdig ⊢
      rw [hr,hbeh] at hsplit
      refine ⟨48 :: x :: digitsAt base (48 :: x :: u),?_,.hex hb hx hdig⟩
      rw [hbeh,List.cons_append,List.cons_append,← hsplit]
  | false =>
    have hbeh : behind base t = t := if_neg (by simp [hp])
    rw [hbeh] at hsplit
    refine ⟨digitsAt base t,by rw [hbeh]; exact hsplit,?_⟩
    by_cases hb : base = 0
    · obtain ⟨d,u,hd⟩ := List.exists_cons_of_ne_nil h
      have ht : t[0]? = some d := by
        rw [hsplit,hd]
        rfl
      by_cases h48 : d = 48
      · have hr : radix base t = 8 := by rw [radix,hp,if_neg (by decide),if_pos hb,if_pos (by rw [ht,h48])]
        rw [hr,hd] at hdig ⊢
        subst h48
        exact .octal hb hdig
      · have hr : radix base t = 10 := by
          rw [radix,hp,if_neg (by decide),if_pos hb,if_neg (by rw [ht]; exact fun he => h48 (Option.some.inj he))]
        rw [hr,hd] at hdig ⊢
        exact .decimal hb h48 hdig
    · have hr : radix base t = base := by rw [radix,hp,if_neg (by decide),if_neg hb]
      rw [hr] at hdig ⊢
      exact .plain hb hdig

theorem read_denotes {left : List UInt8} (h : read base s = some (v,left)) : ∃ t, s = t ++ left ∧ Denotes base t v := by
  obtain ⟨ws,sg,hws,hsg,hs⟩ := body_spec s
  rw [read] at h
  dsimp only at h
  split at h
  · cases h
  · rename_i hne
    cases h
    obtain ⟨ds,ht,hmag⟩ := digitsAt_magnitude hne
    refine ⟨ws ++ (sg ++ ds),?_,.mk hws hsg hmag⟩
    rw [List.append_assoc,List.append_assoc,← ht,← hs]

theorem Denotes.ne_nil (hb : base ≤ 36) (h : Denotes base t v) : t ≠ [] := by
  intro he
  cases h with
  | mk hws hsg h =>
    obtain ⟨c,u,rfl,-⟩ := h.head hb
    simp at he

theorem Denotes.unique (hb : base ≤ 36) {v' : ℤ} (h : Denotes base t v) (h' : Denotes base t v') : v = v' := by
  obtain ⟨w,left,hr,-,hv⟩ := read_append hb h []
  obtain ⟨w',left',hr',-,hv'⟩ := read_append hb h' []
  rw [hr] at hr'
  cases hr'
  exact (hv rfl).symm.trans (hv' rfl)

theorem read_longest (hb : base ≤ 36) {left : List UInt8} (h : read base s = some (v,left)) :
    ∃ t, s = t ++ left ∧ Longest base s t v := by
  obtain ⟨t,hs,hd⟩ := read_denotes h
  refine ⟨t,hs,hd,⟨left,hs.symm⟩,fun t' v' hd' hp => ?_⟩
  obtain ⟨rest,hrest⟩ := hp
  obtain ⟨w,left',hr,hsuf,-⟩ := read_append hb hd' rest
  rw [hrest,h] at hr
  cases hr
  have h1 := hsuf.length_le
  have h2 := congrArg List.length hrest
  have h3 := congrArg List.length hs
  simp only [List.length_append] at h2 h3
  omega

theorem longest_iff (hb : base ≤ 36) : Longest base s t v ↔ ∃ left, read base s = some (v,left) ∧ s = t ++ left := by
  constructor
  · rintro ⟨hd,⟨left,hs⟩,hmax⟩
    obtain ⟨w,left',hr,hsuf,-⟩ := read_append hb hd left
    rw [hs] at hr
    obtain ⟨t',hs',hl⟩ := read_longest hb hr
    have hlen : t'.length = t.length := by
      have h1 := hmax t' w hl.denotes hl.isPrefix
      have h2 := hl.max t v hd ⟨left,hs⟩
      omega
    obtain ⟨rfl,rfl⟩ := List.append_inj (hs'.symm.trans hs.symm) hlen
    exact ⟨left',by rw [hr,hl.denotes.unique hb hd],hs.symm⟩
  · rintro ⟨left,hr,hs⟩
    obtain ⟨t',hs',hl⟩ := read_longest hb hr
    obtain rfl := List.append_cancel_right (hs.symm.trans hs')
    exact hl

theorem read_none_iff (hb : base ≤ 36) : read base s = none ↔ ∀ t v, t <+: s → ¬Denotes base t v := by
  constructor
  · rintro h t v ⟨rest,hs⟩ hd
    obtain ⟨w,left,hr,-⟩ := read_append hb hd rest
    rw [hs,h] at hr
    cases hr
  · intro h
    cases hr : read base s with
    | none => rfl
    | some r =>
      obtain ⟨t,hs,hd⟩ := read_denotes hr
      exact absurd hd (h t r.1 ⟨r.2,hs.symm⟩)

end Catlib.Numeral
