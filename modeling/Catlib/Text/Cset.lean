import Catlib.Peg.Parser.Class

/-! # Character sets of str.c

A set is a table of 256 bits. A string is a block of memory with a null byte in it, and a read behind
the block has no result.
-/
namespace Catlib.Text
open Peg (csetContains)
open Peg.Parser (csetClear csetAdd csetAdd_length csetContains_add byte_parts)

variable {set accept : List UInt8} {p : UInt8 → Option Bool} {s t : List UInt8} {c : UInt8}

/-- `cset_init_accept`, for the characters of a string. -/
def csetInitAccept (accept : List UInt8) : List UInt8 := accept.foldl csetAdd csetClear

/-- The loop that steps over the characters for which a test holds. -/
def spanLen (p : UInt8 → Option Bool) : List UInt8 → Option ℕ
  | [] => none
  | c :: s => do if ← p c then return (← spanLen p s) + 1 else return 0

def strSpn (src set : List UInt8) : Option ℕ := spanLen (csetContains set) src

theorem spanLen_append (hs : ∀ c ∈ s, p c = some true) (hc : p c = some false) : spanLen p (s ++ c :: t) = some s.length := by
  induction s with
  | nil => simp [spanLen, hc]
  | cons b s ih =>
    rw [List.forall_mem_cons] at hs
    rw [List.cons_append,spanLen,hs.1,Option.bind_eq_bind,Option.bind_some,if_pos rfl,ih hs.2]
    rfl

/-! ## Membership -/

theorem csetContains_some (hset : set.length = 32) (c : UInt8) : ∃ b, csetContains set c = some b := by
  obtain ⟨hlt,-⟩ := byte_parts c
  exact ⟨_,by rw [csetContains,List.getElem?_eq_getElem (by omega)]; rfl⟩

theorem csetContains_false (hset : set.length = 32) (h : csetContains set c ≠ some true) : csetContains set c = some false := by
  obtain ⟨b,hb⟩ := csetContains_some hset c
  cases b with
  | true => exact absurd hb h
  | false => exact hb

theorem csetContains_clear (c : UInt8) : csetContains csetClear c = some false := by
  obtain ⟨hlt,-⟩ := byte_parts c
  rw [csetContains,csetClear,List.getElem?_replicate_of_lt hlt]
  simp

theorem csetInitAccept_spec (accept : List UInt8) : (csetInitAccept accept).length = 32 ∧
    ∀ c, csetContains (csetInitAccept accept) c = some true ↔ c ∈ accept := by
  have key : ∀ (l set : List UInt8), set.length = 32 → (l.foldl csetAdd set).length = 32 ∧
      ∀ c, csetContains (l.foldl csetAdd set) c = some true ↔ c ∈ l ∨ csetContains set c = some true := by
    intro l
    induction l with
    | nil => exact fun set hset => ⟨hset,fun c => by simp⟩
    | cons a l ih =>
      intro set hset
      obtain ⟨hlen,hmem⟩ := ih (csetAdd set a) ((csetAdd_length _ _).trans hset)
      refine ⟨hlen,fun c => ?_⟩
      rw [List.foldl_cons,hmem,csetContains_add hset,List.mem_cons]
      tauto
  obtain ⟨hlen,hmem⟩ := key accept csetClear List.length_replicate
  refine ⟨hlen,fun c => (hmem c).trans (or_iff_left ?_)⟩
  rw [csetContains_clear]
  exact nofun

end Catlib.Text

/-! # Characters

The tests of catlibc.c on bytes.
-/
namespace Catlib.Text

def isDigit (d : UInt8) : Bool := 48 ≤ d && d ≤ 57

def toUpper (d : UInt8) : UInt8 := if 97 ≤ d ∧ d ≤ 122 then d - 32 else d

def isAlpha (d : UInt8) : Bool := 65 ≤ toUpper d && toUpper d ≤ 90

end Catlib.Text
