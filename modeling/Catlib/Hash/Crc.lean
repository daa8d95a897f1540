import Catlib.Hash.Division
import Mathlib.Tactic.IntervalCases

/-! # The CRC of crc.c

The tables hold eight steps of a division of bits by a polynomial. They are built in wider
words from shifted ints, so the upper half of a table entry fills up before it is masked away.
-/
namespace Catlib.Crc
open Crypto Polynomial

/-- The bits of a byte, the most significant first. -/
def bitsMsb (b : Byte) : List Bool := (List.range 8).map fun i => b.getMsbD i

/-- The bits of a byte, the least significant first. -/
def bitsLsb (b : Byte) : List Bool := (List.range 8).map fun i => b.getLsbD i

/-! ## The code -/

def rev8 (x : Byte) : Byte :=
  let x := ((x >>> 4) &&& 0x0F) ||| (x <<< 4)
  let x := ((x >>> 2) &&& 0x33) ||| ((x <<< 2) &&& 0xCC)
  ((x >>> 1) &&& 0x55) ||| ((x <<< 1) &&& 0xAA)

def rev32 (x : Ulong) : Ulong :=
  let x := ((x >>> 16) &&& 0xFFFF) ||| (x <<< 16)
  let x := ((x >>> 8) &&& 0x00FF00FF) ||| ((x <<< 8) &&& 0xFF00FF00)
  let x := ((x >>> 4) &&& 0x0F0F0F0F) ||| ((x <<< 4) &&& 0xF0F0F0F0)
  let x := ((x >>> 2) &&& 0x33333333) ||| ((x <<< 2) &&& 0xCCCCCCCC)
  ((x >>> 1) &&& 0x55555555) ||| ((x <<< 1) &&& 0xAAAAAAAA)

/-- A byte that is shifted to the top of an int and then widened with its sign. -/
def shiftedInt (i : Byte) : Ulong := ((i.setWidth 32 : Word) <<< 24).signExtend 64

/-- The body of the inner loop of the two initialisations. -/
def residTurn (poly r : Ulong) : Ulong := if (r >>> 31) &&& 1 ≠ 0 then (r <<< 1) ^^^ poly else r <<< 1

def residLoop (poly : Ulong) : ℕ → Ulong → Ulong
  | 0, r => r
  | j + 1, r => residLoop poly j (residTurn poly r)

/-- `struct crc32tab`. -/
abbrev Crc32tab := Byte → Ulong

def crc32tBeInit (poly : Ulong) : Crc32tab := fun i => residLoop poly 8 (shiftedInt i) &&& 0xFFFFFFFF

def crc32tBeLoop (tab : Crc32tab) : List Byte → Ulong → Ulong
  | [], crc => crc
  | b :: p, crc => crc32tBeLoop tab p (tab (((b.setWidth 64 ^^^ (crc >>> 24)) &&& 0xFF).setWidth 8) ^^^ (crc <<< 8))

def crc32tBe (tab : Crc32tab) (p : List Byte) (crc : Ulong) : Ulong := crc32tBeLoop tab p crc &&& 0xFFFFFFFF

def crc32tLeInit (poly : Ulong) : Crc32tab := fun i => rev32 (residLoop poly 8 (shiftedInt (rev8 i)) &&& 0xFFFFFFFF)

def crc32tLe (tab : Crc32tab) : List Byte → Ulong → Ulong
  | [], crc => crc
  | b :: p, crc => crc32tLe tab p (tab (((b.setWidth 64 ^^^ crc) &&& 0xFF).setWidth 8) ^^^ (crc >>> 8))

variable {poly c : Word} {b : Byte} {n : ℕ}

/-! ## Steps of the division -/

/-- A step without a new bit. -/
def divShift (poly c : Word) : Word := if c.msb then (c <<< 1) ^^^ poly else c <<< 1

def divShifts (poly : Word) : ℕ → Word → Word
  | 0, c => c
  | n + 1, c => divShifts poly n (divShift poly c)

theorem divShift_xor (a b : Word) : divShift poly (a ^^^ b) = divShift poly a ^^^ divShift poly b := by
  simp only [divShift, BitVec.msb_xor, BitVec.shiftLeft_xor_distrib]
  cases a.msb <;> cases b.msb
  · rfl
  · exact BitVec.xor_assoc _ _ _
  · show a <<< 1 ^^^ b <<< 1 ^^^ poly = a <<< 1 ^^^ poly ^^^ b <<< 1
    rw [BitVec.xor_assoc,BitVec.xor_comm (b <<< 1),← BitVec.xor_assoc]
  · show a <<< 1 ^^^ b <<< 1 = a <<< 1 ^^^ poly ^^^ (b <<< 1 ^^^ poly)
    rw [BitVec.xor_comm (b <<< 1) poly,← BitVec.xor_assoc,BitVec.xor_assoc (a <<< 1),BitVec.xor_self,BitVec.xor_zero]

theorem divShifts_xor (n : ℕ) (a b : Word) : divShifts poly n (a ^^^ b) = divShifts poly n a ^^^ divShifts poly n b := by
  induction n generalizing a b with
  | zero => rfl
  | succ n ih => rw [divShifts,divShifts,divShifts,divShift_xor,ih]

theorem divShifts_low (y : Word) (n : ℕ) (hy : ∀ i < n, y.getMsbD i = false) : divShifts poly n y = y <<< n := by
  induction n generalizing y with
  | zero => exact (BitVec.shiftLeft_zero y).symm
  | succ n ih =>
    have hmsb : y.msb = false := hy 0 (by omega)
    rw [divShifts,divShift,hmsb,if_neg (by decide),ih,← BitVec.shiftLeft_add,Nat.add_comm]
    intro i hi
    rw [BitVec.getMsbD_shiftLeft]
    exact hy (i + 1) (by omega)

theorem divBits_top (m : Word) (n : ℕ) :
    divBits poly c ((List.range n).map m.getMsbD) ^^^ (m <<< n) = divShifts poly n (c ^^^ m) := by
  induction n generalizing c m with
  | zero => rw [BitVec.shiftLeft_zero]; rfl
  | succ n ih =>
    have hrest : (List.range (n + 1)).map m.getMsbD = m.msb :: (List.range n).map (m <<< 1).getMsbD := by
      rw [List.range_succ_eq_map,List.map_cons,List.map_map]
      refine congrArg₂ _ rfl (List.map_congr_left fun i _ => ?_)
      rw [BitVec.getMsbD_shiftLeft]
      rfl
    have hstep : divShift poly (c ^^^ m) = divBit poly c m.msb ^^^ (m <<< 1) := by
      simp only [divShift, divBit, BitVec.msb_xor, BitVec.shiftLeft_xor_distrib]
      split
      · rw [BitVec.xor_assoc,BitVec.xor_comm (m <<< 1),← BitVec.xor_assoc]
      · rfl
    rw [hrest,divBits,List.foldl_cons,divShifts,hstep,← ih (m <<< 1),← BitVec.shiftLeft_add,Nat.add_comm 1 n]
    rfl

/-- A byte at the top of a word. -/
def topByte (b : Byte) : Word := (b.setWidth 32) <<< 24

theorem topByte_getMsbD (b : Byte) {i : ℕ} (hi : i < 8) : (topByte b).getMsbD i = b.getMsbD i := by
  rw [topByte,BitVec.getMsbD_eq_getLsbD,BitVec.getMsbD_eq_getLsbD,BitVec.getLsbD_shiftLeft,BitVec.getLsbD_setWidth]
  simp only [show i < 32 by omega, hi, decide_true, Bool.true_and, show 32 - 1 - i < 32 by omega,
    show ¬32 - 1 - i < 24 by omega, decide_false, Bool.not_false, show 32 - 1 - i - 24 = 8 - 1 - i by omega,
    show 8 - 1 - i < 32 by omega]

theorem topByte_shiftLeft (b : Byte) : topByte b <<< 8 = 0#32 := by
  rw [topByte,← BitVec.shiftLeft_add]
  exact BitVec.shiftLeft_eq_zero (by decide)

theorem topByte_xor (a b : Byte) : topByte (a ^^^ b) = topByte a ^^^ topByte b := by
  rw [topByte,topByte,topByte,BitVec.setWidth_xor,BitVec.shiftLeft_xor_distrib]

theorem xor_topByte_low (c : Word) : ∀ i < 8, (c ^^^ topByte ((c >>> 24).setWidth 8)).getMsbD i = false := by
  intro i hi
  rw [BitVec.getMsbD_xor,topByte_getMsbD _ hi,BitVec.getMsbD_eq_getLsbD,BitVec.getMsbD_eq_getLsbD,BitVec.getLsbD_setWidth,
    BitVec.getLsbD_ushiftRight]
  simp only [show i < 32 by omega, hi, decide_true, Bool.true_and, show 8 - 1 - i < 8 by omega,
    show 24 + (8 - 1 - i) = 32 - 1 - i by omega, Bool.xor_self]

theorem divBits_byte (poly c : Word) (b : Byte) :
    divBits poly c (bitsMsb b) = divShifts poly 8 (topByte (b ^^^ (c >>> 24).setWidth 8)) ^^^ (c <<< 8) := by
  have hbits : bitsMsb b = (List.range 8).map (topByte b).getMsbD :=
    List.map_congr_left fun i hi => (topByte_getMsbD b (List.mem_range.1 hi)).symm
  have htop : divBits poly c (bitsMsb b) = divShifts poly 8 (c ^^^ topByte b) := by
    rw [hbits,← divBits_top (topByte b) 8,topByte_shiftLeft,BitVec.xor_zero]
  have hlow : divShifts poly 8 _ = _ := divShifts_low (c ^^^ topByte ((c >>> 24).setWidth 8)) 8 (xor_topByte_low c)
  rw [BitVec.shiftLeft_xor_distrib,topByte_shiftLeft,BitVec.xor_zero] at hlow
  rw [htop,topByte_xor,← hlow,← divShifts_xor]
  congr 1
  generalize topByte ((c >>> 24).setWidth 8) = t
  rw [BitVec.xor_comm c t,← BitVec.xor_assoc,BitVec.xor_assoc (topByte b),BitVec.xor_self,BitVec.xor_zero,BitVec.xor_comm]

/-! ## The tables -/

theorem bit_ne_zero (r : Ulong) : (r >>> 31) &&& 1 ≠ 0 ↔ r.getLsbD 31 = true := by
  have h : (r >>> 31) &&& 1#64 = BitVec.setWidth 64 (BitVec.ofBool ((r >>> 31).getLsbD 0)) :=
    BitVec.and_one_eq_setWidth_ofBool_getLsbD
  show (r >>> 31) &&& 1#64 ≠ 0 ↔ _
  rw [h,BitVec.getLsbD_ushiftRight]
  cases r.getLsbD 31
  · exact ⟨fun h => absurd rfl h,nofun⟩
  · exact ⟨fun _ => rfl,fun _ => by decide⟩

theorem residTurn_narrow (r : Ulong) : (residTurn (wide poly) r).setWidth 32 = divShift poly (r.setWidth 32) := by
  have hmsb : (r.setWidth 32).msb = r.getLsbD 31 := by
    rw [BitVec.msb_setWidth]
    rfl
  rw [residTurn,divShift,hmsb]
  by_cases h : r.getLsbD 31 = true
  · rw [if_pos ((bit_ne_zero r).2 h),if_pos h,BitVec.setWidth_xor,narrow_wide,BitVec.setWidth_shiftLeft_of_le (by decide)]
  · rw [if_neg (fun hn => h ((bit_ne_zero r).1 hn)),if_neg h,BitVec.setWidth_shiftLeft_of_le (by decide)]

theorem residLoop_narrow (n : ℕ) (r : Ulong) :
    (residLoop (wide poly) n r).setWidth 32 = divShifts poly n (r.setWidth 32) := by
  induction n generalizing r with
  | zero => rfl
  | succ n ih => rw [residLoop,divShifts,ih,residTurn_narrow]

theorem shiftedInt_narrow (i : Byte) : (shiftedInt i).setWidth 32 = topByte i := by
  ext k hk
  rw [BitVec.getElem_setWidth,shiftedInt,BitVec.getLsbD_signExtend,if_pos hk,topByte,← BitVec.getLsbD_eq_getElem]
  simp only [show k < 64 by omega, decide_true, Bool.true_and]

theorem crc32tBeInit_eq (poly : Word) (i : Byte) : crc32tBeInit (wide poly) i = wide (divShifts poly 8 (topByte i)) := by
  rw [crc32tBeInit,mask_eq,residLoop_narrow,shiftedInt_narrow]

theorem index_eq (b : Byte) (x : Ulong) : ((b.setWidth 64 ^^^ x) &&& 0xFF).setWidth 8 = b ^^^ x.setWidth 8 := by
  rw [BitVec.setWidth_and,BitVec.setWidth_xor,BitVec.setWidth_setWidth_of_le _ (by decide),BitVec.setWidth_eq]
  exact BitVec.and_allOnes

theorem crc32tBeLoop_narrow (poly : Word) (p : List Byte) (crc : Ulong) :
    (crc32tBeLoop (crc32tBeInit (wide poly)) p crc).setWidth 32 = divBits poly (crc.setWidth 32) (p.flatMap bitsMsb) := by
  induction p generalizing crc with
  | nil => rfl
  | cons b p ih =>
    rw [crc32tBeLoop,ih,List.flatMap_cons,divBits,divBits,List.foldl_append]
    congr 1
    have htop : (crc >>> 24).setWidth 8 = ((crc.setWidth 32) >>> 24).setWidth 8 := by
      ext i hi
      simp only [BitVec.getElem_setWidth, BitVec.getLsbD_ushiftRight, BitVec.getLsbD_setWidth, show 24 + i < 32 by omega,
        decide_true, Bool.true_and]
    rw [index_eq,crc32tBeInit_eq,BitVec.setWidth_xor,narrow_wide,BitVec.setWidth_shiftLeft_of_le (by decide),htop]
    exact (divBits_byte poly _ b).symm

theorem crc32tBe_eq (poly c : Word) (p : List Byte) :
    crc32tBe (crc32tBeInit (wide poly)) p (wide c) = wide (divBits poly c (p.flatMap bitsMsb)) := by
  rw [crc32tBe,mask_eq,crc32tBeLoop_narrow,narrow_wide]

/-! ## Reflection -/

theorem rev8_eq : ∀ x : Byte, rev8 x = x.reverse := by decide

/-- One stage of a reversal: neighbouring blocks of `k` bits change places. -/
def blocks (k : ℕ) (m m' x : Ulong) : Ulong := ((x >>> k) &&& m) ||| ((x <<< k) &&& m')

/-- What a stage does to the low half; the high half is left empty. -/
structure Stage (k : ℕ) (f : Ulong → Ulong) : Prop where
  low : ∀ x, ∀ i < 32, (f x).getLsbD i = x.getLsbD (i ^^^ k)
  high : ∀ x, ∀ i, 32 ≤ i → (f x).getLsbD i = false

theorem high_zero {m : Ulong} (hm : m < 0x100000000) {i : ℕ} (hi : 32 ≤ i) : m.getLsbD i = false := by
  have hlt : m.toNat < 2 ^ i := lt_of_lt_of_le (show m.toNat < 2 ^ 32 from hm) (Nat.pow_le_pow_right Nat.two_pos hi)
  rw [BitVec.getLsbD]
  exact Nat.testBit_lt_two_pow hlt

theorem blocks_high {k : ℕ} {m m' : Ulong} (hm : m < 0x100000000) (hm' : m' < 0x100000000) (x : Ulong) (i : ℕ) (hi : 32 ≤ i) :
    (blocks k m m' x).getLsbD i = false := by
  rw [blocks,BitVec.getLsbD_or,BitVec.getLsbD_and,BitVec.getLsbD_and,high_zero hm hi,high_zero hm' hi,Bool.and_false,
    Bool.and_false,Bool.or_false]

theorem stage8 : Stage 8 (blocks 8 0x00FF00FF 0xFF00FF00) :=
  ⟨fun x i hi => by interval_cases i <;> simp [blocks],blocks_high (by decide) (by decide)⟩

theorem stage4 : Stage 4 (blocks 4 0x0F0F0F0F 0xF0F0F0F0) :=
  ⟨fun x i hi => by interval_cases i <;> simp [blocks],blocks_high (by decide) (by decide)⟩

theorem stage2 : Stage 2 (blocks 2 0x33333333 0xCCCCCCCC) :=
  ⟨fun x i hi => by interval_cases i <;> simp [blocks],blocks_high (by decide) (by decide)⟩

theorem stage1 : Stage 1 (blocks 1 0x55555555 0xAAAAAAAA) :=
  ⟨fun x i hi => by interval_cases i <;> simp [blocks],blocks_high (by decide) (by decide)⟩

theorem stage16 (x : Ulong) : ∀ i < 32, (((x >>> 16) &&& 0xFFFF) ||| (x <<< 16)).getLsbD i = x.getLsbD (i ^^^ 16) := by
  intro i hi
  interval_cases i <;> simp

theorem xor_lt_32 {i k : ℕ} (hi : i < 32) (hk : k < 32) : i ^^^ k < 32 := Nat.xor_lt_two_pow (n := 5) hi hk

theorem rev32_wide (x : Word) : rev32 (wide x) = wide x.reverse := by
  apply BitVec.eq_of_getLsbD_eq
  intro i hi
  have hstages : rev32 (wide x) = blocks 1 0x55555555 0xAAAAAAAA (blocks 2 0x33333333 0xCCCCCCCC
      (blocks 4 0x0F0F0F0F 0xF0F0F0F0 (blocks 8 0x00FF00FF 0xFF00FF00
        (((wide x >>> 16) &&& 0xFFFF) ||| (wide x <<< 16))))) := rfl
  rw [hstages]
  by_cases h : i < 32
  · have h1 := xor_lt_32 h (show 1 < 32 by decide)
    have h2 := xor_lt_32 h1 (show 2 < 32 by decide)
    have h3 := xor_lt_32 h2 (show 4 < 32 by decide)
    have h4 := xor_lt_32 h3 (show 8 < 32 by decide)
    have hmap : ∀ i < 32, i ^^^ 1 ^^^ 2 ^^^ 4 ^^^ 8 ^^^ 16 = 31 - i := by decide
    rw [stage1.low _ i h,stage2.low _ _ h1,stage4.low _ _ h2,stage8.low _ _ h3,stage16 _ _ h4,hmap i h,wide,wide,
      BitVec.getLsbD_setWidth,BitVec.getLsbD_setWidth,BitVec.getLsbD_reverse,BitVec.getMsbD_eq_getLsbD]
    simp only [show 31 - i < 64 by omega, h, hi, decide_true, Bool.true_and]
  · rw [stage1.high _ i (not_lt.1 h),wide,BitVec.getLsbD_setWidth,BitVec.getLsbD_of_ge _ _ (not_lt.1 h),Bool.and_false]

theorem crc32tLeInit_eq (poly : Word) (i : Byte) :
    crc32tLeInit (wide poly) i = wide (divShifts poly 8 (topByte i.reverse)).reverse := by
  rw [crc32tLeInit,mask_eq,residLoop_narrow,shiftedInt_narrow,rev8_eq,rev32_wide]

theorem bitsMsb_reverse (b : Byte) : bitsMsb b.reverse = bitsLsb b :=
  List.map_congr_left fun _ _ => BitVec.getMsbD_reverse

theorem reverse_xor {w : ℕ} (x y : BitVec w) : (x ^^^ y).reverse = x.reverse ^^^ y.reverse := by
  apply BitVec.eq_of_getLsbD_eq
  intro i _
  rw [BitVec.getLsbD_reverse,BitVec.getLsbD_xor,BitVec.getLsbD_reverse,BitVec.getLsbD_reverse,BitVec.getMsbD_xor]

theorem reverse_shiftLeft {w : ℕ} (x : BitVec w) (n : ℕ) : (x <<< n).reverse = x.reverse >>> n := by
  apply BitVec.eq_of_getLsbD_eq
  intro i _
  rw [BitVec.getLsbD_reverse,BitVec.getMsbD_shiftLeft,BitVec.getLsbD_ushiftRight,BitVec.getLsbD_reverse,Nat.add_comm]

theorem reverse_low (c : Word) : (c.reverse >>> 24).setWidth 8 = (c.setWidth 8).reverse := by
  apply BitVec.eq_of_getLsbD_eq
  intro i hi
  rw [BitVec.getLsbD_reverse,BitVec.getMsbD_eq_getLsbD,BitVec.getLsbD_setWidth,BitVec.getLsbD_setWidth,
    BitVec.getLsbD_ushiftRight,BitVec.getLsbD_reverse,BitVec.getMsbD_eq_getLsbD]
  simp only [hi, decide_true, Bool.true_and, show 24 + i < 32 by omega, show 8 - 1 - i < 8 by omega,
    show 32 - 1 - (24 + i) = 8 - 1 - i by omega]

theorem crc32tLe_eq (poly c : Word) (p : List Byte) :
    crc32tLe (crc32tLeInit (wide poly)) p (wide c) = wide (divBits poly c.reverse (p.flatMap bitsLsb)).reverse := by
  induction p generalizing c with
  | nil => rw [crc32tLe,List.flatMap_nil,divBits,List.foldl_nil,BitVec.reverse_reverse_eq]
  | cons b p ih =>
    have hstep : crc32tLeInit (wide poly) (b ^^^ (wide c).setWidth 8) ^^^ (wide c >>> 8) =
        wide (divBits poly c.reverse (bitsLsb b)).reverse := by
      have hlow : (wide c).setWidth 8 = c.setWidth 8 := BitVec.setWidth_setWidth_of_le c (by decide)
      rw [← bitsMsb_reverse,divBits_byte,reverse_xor,reverse_shiftLeft,BitVec.reverse_reverse_eq,reverse_low,← reverse_xor,
        crc32tLeInit_eq,hlow,wide_ushiftRight,wide_xor]
    rw [crc32tLe,index_eq,hstep,ih,BitVec.reverse_reverse_eq,List.flatMap_cons]
    simp only [divBits, List.foldl_append]

/-- Both functions divide by the polynomial: from the most significant bit of each byte on, or
reflected; and the bytes of two strings in one call are those of two calls. -/
theorem crc32t_spec (poly c : Word) (p q : List Byte) :
    (∀ c bits, wordPoly (divBits poly c bits) =
      (wordPoly c * X ^ bits.length + bitsPoly bits * X ^ 32) %ₘ divisor poly) ∧
    crc32tBe (crc32tBeInit (wide poly)) p (wide c) = wide (divBits poly c (p.flatMap bitsMsb)) ∧
    crc32tLe (crc32tLeInit (wide poly)) p (wide c) = wide (divBits poly c.reverse (p.flatMap bitsLsb)).reverse ∧
    crc32tBe (crc32tBeInit (wide poly)) (p ++ q) (wide c) =
      crc32tBe (crc32tBeInit (wide poly)) q (crc32tBe (crc32tBeInit (wide poly)) p (wide c)) ∧
    crc32tLe (crc32tLeInit (wide poly)) (p ++ q) (wide c) =
      crc32tLe (crc32tLeInit (wide poly)) q (crc32tLe (crc32tLeInit (wide poly)) p (wide c)) := by
  refine ⟨divBits_poly poly,crc32tBe_eq poly c p,crc32tLe_eq poly c p,?_,?_⟩
  · rw [crc32tBe_eq,crc32tBe_eq,crc32tBe_eq,List.flatMap_append,divBits,List.foldl_append]
    rfl
  · rw [crc32tLe_eq,crc32tLe_eq,crc32tLe_eq,List.flatMap_append,divBits,List.foldl_append,BitVec.reverse_reverse_eq]
    rfl

end Catlib.Crc
