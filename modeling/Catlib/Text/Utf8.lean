import Mathlib.Data.Nat.Bitwise

/-! # UTF-8 in str.c

The conversions between UTF-8 and UTF-32. A string is the list of its bytes; a read behind it
has no result. A count is returned as an int.
-/
namespace Catlib.Text

def intMax : ℕ := 2 ^ 31 - 1

/-- A size that is returned as an int. -/
def toInt (n : ℕ) : ℤ := (n : ℤ).bmod (2 ^ 32)

/-- `utf8_nbytes`: the entries of `utf8_lentab`. -/
def utf8Nbytes (c : UInt8) : ℤ :=
  if c < 0x80 then 1 else if c < 0xC0 then -1 else if c < 0xE0 then 2 else if c < 0xF0 then 3
  else if c < 0xF8 then 4 else if c < 0xFC then 5 else if c < 0xFE then 6 else -1

/-! ## Validation -/

/-- The test of the bytes behind the first. -/
def utf8Conts : List UInt8 → ℕ → Option Bool
  | _, 0 => some true
  | [], _ + 1 => none
  | c :: s, k + 1 => if c &&& 0xC0 ≠ 0x80 then some false else utf8Conts s k

/-- The encodings that are longer than they need be. -/
def utf8Overlong (nb : ℕ) (c c' : UInt8) : Bool :=
  match nb with
  | 2 => c &&& 0xFE == 0xC0
  | 3 => c == 0xE0 && c' &&& 0xE0 == 0x80
  | 4 => c == 0xF0 && c' &&& 0xF0 == 0x80
  | 5 => c == 0xF8 && c' &&& 0xF8 == 0x80
  | 6 => c == 0xFC && c' &&& 0xFC == 0x80
  | _ => false

def utf8ValidateChar (str : List UInt8) (max : ℕ) : Option ℤ := do
  let c ← str[0]?
  let nb := utf8Nbytes c
  if nb < 0 ∨ max > 0 ∧ nb > max then return -1
  else if (← utf8Conts (str.drop 1) (nb.toNat - 1)) = false then return -1
  else if utf8Overlong nb.toNat c (str.getD 1 0) then return -1
  else return nb

/-- `utf8_validate`: where the string is wrong, if it is. The loop runs at most once for each byte. -/
def utf8ValidateFrom (term : Bool) : ℕ → ℕ → List UInt8 → Option (Option ℕ)
  | 0, _, _ => none
  | k + 1, pos, str => do
    if str = [] then return none
    else if term ∧ str[0]? = some 0 then return none
    else
      let len ← utf8ValidateChar str str.length
      if len < 0 then return some pos else utf8ValidateFrom term k (pos + len.toNat) (str.drop len.toNat)

def utf8Validate (str : List UInt8) (term : Bool) : Option (Option ℕ) := utf8ValidateFrom term (str.length + 1) 0 str

/-! ## UTF-8 to UTF-32 -/

/-- `utf8_cdtab`: shift and mask of the first byte. -/
def utf8Cdtab : List (ℕ × ℕ) := [(0,0),(0,0x7F),(6,0x1F),(12,0x0F),(18,0x07),(24,0x03),(30,0x01)]

/-- The bytes behind the first, ored into the value. -/
def utf8Value (clen i v : ℕ) : List UInt8 → ℕ
  | [] => v
  | c :: s => utf8Value clen (i + 1) (v ||| (c.toNat &&& 0x3F) <<< (6 * (clen - 1 - i))) s

/-- The value of a character of `clen` bytes. -/
def utf8Decode (src : List UInt8) (clen : ℕ) : ℕ :=
  let cd := utf8Cdtab.getD clen (0,0)
  utf8Value clen 1 (((src.getD 0 0).toNat &&& cd.2) <<< cd.1) ((src.take clen).drop 1)

/-- `utf8_to_utf32`: what is written, and the result. -/
def utf8ToUtf32From (dlen : ℕ) : ℕ → ℕ → List UInt8 → Option (List ℕ × ℤ)
  | 0, _, _ => none
  | k + 1, nconv, src => do
    if src = [] then return ([],toInt nconv)
    else
      let clen ← utf8ValidateChar src src.length
      if clen < 0 then return ([],-1)
      else
        let (dst,r) ← utf8ToUtf32From dlen k (nconv + 1) (src.drop clen.toNat)
        return (if nconv < dlen then utf8Decode src clen.toNat :: dst else dst,r)

def utf8ToUtf32 (dlen : ℕ) (src : List UInt8) : Option (List ℕ × ℤ) := utf8ToUtf32From dlen (src.length + 1) 0 src

/-! ## UTF-32 to UTF-8 -/

def utf8EncLen (val : ℕ) : ℤ :=
  if val &&& 0x80000000 ≠ 0 then -1
  else if val &&& 0xFFFFFF80 = 0 then 1
  else if val &&& 0xFFFFF800 = 0 then 2
  else if val &&& 0xFFFF0000 = 0 then 3
  else if val &&& 0xFFE00000 = 0 then 4
  else if val &&& 0xFC000000 = 0 then 5
  else 6

def utf8Encode (v enclen : ℕ) : List UInt8 :=
  match enclen with
  | 1 => [UInt8.ofNat v]
  | 2 => [UInt8.ofNat (0xC0 ||| (v &&& 0x7C0) >>> 6),UInt8.ofNat (0x80 ||| v &&& 0x3F)]
  | 3 => [UInt8.ofNat (0xE0 ||| (v &&& 0xF000) >>> 12),UInt8.ofNat (0x80 ||| (v &&& 0xFC0) >>> 6),
      UInt8.ofNat (0x80 ||| v &&& 0x3F)]
  | 4 => [UInt8.ofNat (0xF0 ||| (v &&& 0x1C0000) >>> 18),UInt8.ofNat (0x80 ||| (v &&& 0x3F000) >>> 12),
      UInt8.ofNat (0x80 ||| (v &&& 0xFC0) >>> 6),UInt8.ofNat (0x80 ||| v &&& 0x3F)]
  | 5 => [UInt8.ofNat (0xF8 ||| (v &&& 0x3000000) >>> 24),UInt8.ofNat (0x80 ||| (v &&& 0xFC0000) >>> 18),
      UInt8.ofNat (0x80 ||| (v &&& 0x3F000) >>> 12),UInt8.ofNat (0x80 ||| (v &&& 0xFC0) >>> 6),
      UInt8.ofNat (0x80 ||| v &&& 0x3F)]
  | 6 => [UInt8.ofNat (0xFC ||| (v &&& 0x40000000) >>> 30),UInt8.ofNat (0x80 ||| (v &&& 0x3F000000) >>> 24),
      UInt8.ofNat (0x80 ||| (v &&& 0xFC0000) >>> 18),UInt8.ofNat (0x80 ||| (v &&& 0x3F000) >>> 12),
      UInt8.ofNat (0x80 ||| (v &&& 0xFC0) >>> 6),UInt8.ofNat (0x80 ||| v &&& 0x3F)]
  | _ => []

/-- One value that is written if there is room, and the room that is left; `none` is a null buffer. -/
def utf8Put (dlen : Option ℕ) (v enclen : ℕ) : List UInt8 × Option ℕ :=
  match dlen with
  | none => ([],none)
  | some n => if n ≥ enclen then (utf8Encode v enclen,some (n - enclen)) else ([],some n)

/-- `utf32_to_utf8`. -/
def utf32ToUtf8From (dlen : Option ℕ) (tlen : ℕ) : List ℕ → List UInt8 × ℤ
  | [] => ([],toInt tlen)
  | v :: src =>
    let enclen := utf8EncLen v
    if enclen < 0 then ([],-1)
    else
      let (bs,dlen) := utf8Put dlen v enclen.toNat
      if intMax - tlen < enclen.toNat then (bs,-1)
      else
        let (dst,r) := utf32ToUtf8From dlen (tlen + enclen.toNat) src
        (bs ++ dst,r)

def utf32ToUtf8 (dlen : Option ℕ) (src : List ℕ) : List UInt8 × ℤ :=
  if src.length ≥ intMax then ([],-1) else utf32ToUtf8From dlen 0 src

end Catlib.Text
