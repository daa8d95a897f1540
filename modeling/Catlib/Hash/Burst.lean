import Catlib.Hash.Crc

/-! # What crc32 detects

The divisor has a constant term, so that a step of the division can be taken back: registers that
agree in some low bits agreed in all but one of them before, and the same bit went in.
-/
namespace Catlib.Crc
open Crypto

def crc32Poly : Word := 0x04C11DB7

/-- The table that `crc32_init` makes. -/
def crc32Table : Crc32tab := crc32tLeInit (wide crc32Poly)

def crc32Start : Ulong := 0xFFFFFFFF

def crc32Step (p : List Byte) (crc : Ulong) : Ulong := crc32tLe crc32Table p crc

def crc32Finish (crc : Ulong) : Ulong := crc ^^^ 0xFFFFFFFF

/-- The checksum of a text that comes in parts. -/
def crc32 (parts : List (List Byte)) : Ulong := crc32Finish (parts.foldl (fun crc p => crc32Step p crc) crc32Start)

variable {poly c d : Word} {k : ℕ} {a b : Bool} {x y : List Bool}

/-- Registers that agree behind a step: what they took in agreed, and their low bits did. -/
theorem divBit_agree (hp : poly.getLsbD 0 = true) (hk : k < 32)
    (h : ∀ i < k + 1, (divBit poly c a).getLsbD i = (divBit poly d b).getLsbD i) :
    (c.msb ^^ a) = (d.msb ^^ b) ∧ ∀ i < k, c.getLsbD i = d.getLsbD i := by
  have hzero : ∀ w : Word, (w <<< 1).getLsbD 0 = false := by
    intro w
    rw [BitVec.getLsbD_shiftLeft]
    rfl
  have hsucc : ∀ (w : Word), ∀ i < k, (w <<< 1).getLsbD (i + 1) = w.getLsbD i := by
    intro w i hi
    rw [BitVec.getLsbD_shiftLeft,decide_eq_true (show i + 1 < 32 by omega),decide_eq_false (show ¬i + 1 < 1 by omega)]
    rfl
  have hlow : (c.msb ^^ a) = (d.msb ^^ b) := by
    have h0 := h 0 (Nat.succ_pos k)
    rwa [divBit_getLsbD,divBit_getLsbD,hp,hzero,hzero,Bool.and_true,Bool.and_true,Bool.false_xor,Bool.false_xor] at h0
  refine ⟨hlow,?_⟩
  intro i hi
  have hbit := h (i + 1) (Nat.succ_lt_succ hi)
  rwa [divBit_getLsbD,divBit_getLsbD,hlow,hsucc c i hi,hsucc d i hi,Bool.xor_left_inj] at hbit

theorem divBit_injective (hp : poly.getLsbD 0 = true) (h : divBit poly c a = divBit poly d a) : c = d := by
  obtain ⟨hmsb,hlow⟩ := divBit_agree (a := a) (b := a) (c := c) (d := d) (k := 31) hp (by decide) fun i _ => by rw [h]
  apply BitVec.eq_of_getLsbD_eq
  intro i hi
  rcases Nat.lt_succ_iff_lt_or_eq.mp hi with hi | rfl
  · exact hlow i hi
  · rwa [Bool.xor_left_inj,BitVec.msb_eq_getLsbD_last,BitVec.msb_eq_getLsbD_last] at hmsb

theorem divBits_injective (hp : poly.getLsbD 0 = true) (back : List Bool) (h : divBits poly c back = divBits poly d back) : c = d := by
  induction back generalizing c d with
  | nil => exact h
  | cons b back ih => exact divBit_injective hp (ih h)

/-- No more bits than the register has leave it in different states. -/
theorem divBits_agree (hp : poly.getLsbD 0 = true) (hlen : x.length = y.length) (hx : x.length ≤ k) (hk : k ≤ 32)
    (h : ∀ i < k, (divBits poly c x).getLsbD i = (divBits poly c y).getLsbD i) : x = y := by
  induction x using List.reverseRecOn generalizing y k with
  | nil => exact (List.length_eq_zero_iff.mp hlen.symm).symm
  | append_singleton x a ih =>
    rw [List.length_append,List.length_singleton] at hlen hx
    obtain ⟨k,rfl⟩ : ∃ j, k = j + 1 := ⟨k - 1,by omega⟩
    obtain ⟨y,b,rfl⟩ : ∃ z b, y = z ++ [b] := ⟨_,_,(List.dropLast_append_getLast (List.ne_nil_of_length_pos (by omega))).symm⟩
    rw [List.length_append,List.length_singleton] at hlen
    simp only [divBits, List.foldl_append, List.foldl_cons, List.foldl_nil] at h
    obtain ⟨hmsb,hlow⟩ := divBit_agree hp hk h
    obtain rfl := ih (Nat.succ.inj hlen) (Nat.le_of_succ_le_succ hx) (Nat.le_of_succ_le hk) hlow
    rw [Bool.xor_right_inj.mp hmsb]

theorem crc32_eq (parts : List (List Byte)) (c : Word) :
    parts.foldl (fun crc p => crc32Step p crc) (wide c) = wide (divBits crc32Poly c.reverse (parts.flatten.flatMap bitsLsb)).reverse := by
  induction parts generalizing c with
  | nil => exact congrArg wide c.reverse_reverse_eq.symm
  | cons p parts ih =>
    rw [List.foldl_cons,crc32Step,crc32Table,crc32tLe_eq,ih,BitVec.reverse_reverse_eq,List.flatten_cons,List.flatMap_append,divBits,divBits,
      divBits,List.foldl_append]

/-- `crc32` of a text, in whatever parts it comes, tells it from every other one that differs from it in
a run of at most 32 bits, the bits of a byte being taken from the least significant one on. -/
theorem crc32_burst {P Q : List (List Byte)} {u v : List Bool} (hP : P.flatten.flatMap bitsLsb = u ++ x ++ v)
    (hQ : Q.flatten.flatMap bitsLsb = u ++ y ++ v) (hlen : x.length = y.length) (hx : x.length ≤ 32) (hne : x ≠ y) :
    crc32 P ≠ crc32 Q := by
  intro h
  have hinj : ∀ c d : Word, wide c.reverse = wide d.reverse → c = d := by
    intro c d heq
    have hrev := congrArg (BitVec.setWidth 32) heq
    rw [wide,wide,BitVec.setWidth_setWidth_of_le _ (by decide),BitVec.setWidth_setWidth_of_le _ (by decide),BitVec.setWidth_eq,
      BitVec.setWidth_eq] at hrev
    rw [← c.reverse_reverse_eq,hrev,BitVec.reverse_reverse_eq]
  have hstart : crc32Start = wide 0xFFFFFFFF := rfl
  rw [crc32,crc32,crc32Finish,crc32Finish,BitVec.xor_left_inj,hstart,crc32_eq,crc32_eq,hP,hQ] at h
  have hreg := hinj _ _ h
  simp only [divBits, List.foldl_append] at hreg
  have hmid := divBits_injective (show crc32Poly.getLsbD 0 = true from rfl) v hreg
  apply hne
  apply divBits_agree (show crc32Poly.getLsbD 0 = true from rfl) hlen hx le_rfl
  intro i _
  exact congrArg (BitVec.getLsbD · i) hmid

theorem crc32_burst_bytes : crc32 [[1,2],[3]] ≠ crc32 [[1],[6,3]] :=
  crc32_burst (u := bitsLsb 1) (v := bitsLsb 3) (x := bitsLsb 2) (y := bitsLsb 6) (by decide) (by decide) rfl (by decide) (by decide)

end Catlib.Crc
