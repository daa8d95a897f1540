import Mathlib.Data.List.TakeWhile

/-! # String literals of C

What a string literal denotes: trigraphs are replaced first, if they are at all, and then the
characters up to the closing quote stand for themselves, except for the escape sequences. An
octal escape takes up to three digits and a hexadecimal one all that follow.
-/
namespace Catlib.CLit

/-- The characters of the source text. -/
abbrev Text := List UInt8

abbrev quote : UInt8 := '\x22'.toUInt8
abbrev bslash : UInt8 := '\x5c'.toUInt8
abbrev question : UInt8 := '?'.toUInt8

/-! ## Trigraphs -/

/-- What a trigraph with this third character stands for. -/
def third (c : UInt8) : Option UInt8 :=
  if c = '='.toUInt8 then some '#'.toUInt8
  else if c = '('.toUInt8 then some '['.toUInt8
  else if c = '/'.toUInt8 then some bslash
  else if c = ')'.toUInt8 then some ']'.toUInt8
  else if c = '\x27'.toUInt8 then some '^'.toUInt8
  else if c = '<'.toUInt8 then some '\x7b'.toUInt8
  else if c = '!'.toUInt8 then some '|'.toUInt8
  else if c = '>'.toUInt8 then some '\x7d'.toUInt8
  else if c = '-'.toUInt8 then some '~'.toUInt8
  else none

/-- The trigraph a text begins with. -/
def trigraphAt : Text → Option UInt8
  | a :: b :: c :: _ => if a = question ∧ b = question then third c else none
  | _ => none

def replaceTrigraphs : Text → Text
  | [] => []
  | c :: t =>
    match trigraphAt (c :: t) with
    | some r => r :: replaceTrigraphs (t.drop 2)
    | none => c :: replaceTrigraphs t
termination_by t => t.length
decreasing_by all_goals simp only [List.length_drop, List.length_cons]; omega

/-! ## Escape sequences -/

def isOctal (c : UInt8) : Bool := '0'.toUInt8 ≤ c && c ≤ '7'.toUInt8

def isHex (c : UInt8) : Bool :=
  ('0'.toUInt8 ≤ c && c ≤ '9'.toUInt8) || ('a'.toUInt8 ≤ c && c ≤ 'f'.toUInt8) || ('A'.toUInt8 ≤ c && c ≤ 'F'.toUInt8)

def digitVal (c : UInt8) : ℕ :=
  if c ≤ '9'.toUInt8 then c.toNat - 48 else if c ≤ 'F'.toUInt8 then c.toNat - 55 else c.toNat - 87

/-- The number written by digits. -/
def numeral (base : ℕ) (ds : Text) : ℕ := ds.foldl (fun n c => base * n + digitVal c) 0

def simpleEscape (c : UInt8) : Option UInt8 :=
  if c = '\x27'.toUInt8 ∨ c = quote ∨ c = question ∨ c = bslash then some c
  else if c = 'a'.toUInt8 then some 7
  else if c = 'b'.toUInt8 then some 8
  else if c = 'f'.toUInt8 then some 12
  else if c = 'n'.toUInt8 then some 10
  else if c = 'r'.toUInt8 then some 13
  else if c = 't'.toUInt8 then some 9
  else if c = 'v'.toUInt8 then some 11
  else none

/-- The value of an escape sequence behind its backslash, which has to fit an unsigned char, and
the length of the sequence. -/
def escape : Text → Option (UInt8 × ℕ)
  | [] => none
  | c :: t =>
    if isOctal c then
      let ds := ((c :: t).takeWhile isOctal).take 3
      if numeral 8 ds < 256 then some (.ofNat (numeral 8 ds),ds.length) else none
    else if c = 'x'.toUInt8 then
      let ds := t.takeWhile isHex
      if ds ≠ [] ∧ numeral 16 ds < 256 then some (.ofNat (numeral 16 ds),ds.length + 1) else none
    else (simpleEscape c).map fun v => (v,1)

/-- The characters up to a closing quote that ends the text. -/
def body : Text → Option (List UInt8)
  | [] => none
  | c :: t =>
    if c = quote then if t = [] then some [] else none
    else if c = '\n'.toUInt8 then none
    else if c = bslash then (escape t).bind fun x => (body (t.drop x.2)).map (x.1 :: ·)
    else (body t).map (c :: ·)
termination_by t => t.length
decreasing_by all_goals simp only [List.length_drop, List.length_cons]; omega

/-- The value of a string literal, without the zero behind it. -/
def denotes (trigraphs : Bool) (text : Text) : Option (List UInt8) :=
  match if trigraphs then replaceTrigraphs text else text with
  | [] => none
  | c :: t => if c = quote then body t else none

/-! ## Reading a text from the left -/

variable {c d r : UInt8} {t : Text}

theorem trigraphAt_ne (h : c ≠ question) (t : Text) : trigraphAt (c :: t) = none := by
  rcases t with _ | ⟨b,_ | ⟨e,t⟩⟩
  · rfl
  · rfl
  · rw [trigraphAt,if_neg fun h' => h h'.1]

theorem replaceTrigraphs_nil : replaceTrigraphs [] = [] := by
  rw [replaceTrigraphs]

theorem replaceTrigraphs_none (h : trigraphAt (c :: t) = none) : replaceTrigraphs (c :: t) = c :: replaceTrigraphs t := by
  rw [replaceTrigraphs,h]

theorem replaceTrigraphs_some (h : trigraphAt (c :: t) = some r) : replaceTrigraphs (c :: t) = r :: replaceTrigraphs (t.drop 2) := by
  rw [replaceTrigraphs,h]

theorem replaceTrigraphs_ne (h : c ≠ question) (t : Text) : replaceTrigraphs (c :: t) = c :: replaceTrigraphs t :=
  replaceTrigraphs_none (trigraphAt_ne h t)

/-- A character that ends no literal and begins no escape sequence. -/
def IsPlain (c : UInt8) : Prop := c ≠ quote ∧ c ≠ '\n'.toUInt8 ∧ c ≠ bslash

instance : DecidablePred IsPlain := fun c => inferInstanceAs (Decidable (c ≠ quote ∧ c ≠ '\n'.toUInt8 ∧ c ≠ bslash))

theorem body_plain (h : IsPlain c) (t : Text) : body (c :: t) = (body t).map (c :: ·) := by
  rw [body,if_neg h.1,if_neg h.2.1,if_neg h.2.2]

theorem body_escape (t : Text) : body (bslash :: t) = (escape t).bind fun x => (body (t.drop x.2)).map (x.1 :: ·) := by
  rw [body,if_neg (by decide),if_neg (by decide),if_pos rfl]

theorem escape_hex (t : Text) : escape ('x'.toUInt8 :: t) =
    if t.takeWhile isHex ≠ [] ∧ numeral 16 (t.takeWhile isHex) < 256 then
      some (.ofNat (numeral 16 (t.takeWhile isHex)),(t.takeWhile isHex).length + 1) else none := by
  rw [escape,if_neg (by decide),if_pos rfl]

theorem escape_octal (h : isOctal c = true) (t : Text) : escape (c :: t) =
    if numeral 8 (((c :: t).takeWhile isOctal).take 3) < 256 then
      some (.ofNat (numeral 8 (((c :: t).takeWhile isOctal).take 3)),(((c :: t).takeWhile isOctal).take 3).length) else none := by
  rw [escape,if_pos h]

theorem escape_simple (h : isOctal c = false) (hx : c ≠ 'x'.toUInt8) (t : Text) :
    escape (c :: t) = (simpleEscape c).map fun v => (v,1) := by
  rw [escape,h,if_neg Bool.false_ne_true,if_neg hx]

theorem forall_byte {P : UInt8 → Prop} (h : ∀ n : Fin 256, P (.ofNat n)) (c : UInt8) : P c := by
  have hc := h ⟨c.toNat,c.toNat_lt⟩
  rwa [UInt8.ofNat_toNat] at hc

theorem isHex_of_isOctal : ∀ c, isOctal c = true → isHex c = true := forall_byte (by decide +kernel)

theorem third_facts : ∀ c r, third c = some r → r ≠ question ∧ r ≠ quote ∧ r ≠ '\n'.toUInt8 ∧ isHex r = false ∧ r ≠ 'x'.toUInt8 ∧
    (r ≠ bslash → simpleEscape r = none) := by
  intro c r h
  simp only [third] at h
  split_ifs at h <;> cases h <;> decide

end Catlib.CLit
