import Mathlib.Data.Fintype.Basic
import Mathlib.Algebra.Group.Nat.Defs

/-! # Moving the bits of a word

Words are bit vectors of 32 or 64 bits; a function that the source has for both widths is one
definition with the width `w` and its logarithm `n`, and its members are that definition at the
two widths. An array of bit positions is a function on its indices.
-/
namespace Catlib.Bits

section Width
variable {w : ℕ}

/-- The running parity of the bits of `mk`, from the end that `away` shifts away from: after `n`
steps a bit is the parity of the `2 ^ n` bits up to it. -/
def parity (away : BitVec w → ℕ → BitVec w) (mk : BitVec w) : ℕ → BitVec w
  | 0 => mk
  | i + 1 => let mp := parity away mk i; mp ^^^ away mp (2 ^ i)

/-- The variables of the loop of compress. -/
structure CompressVars (w : ℕ) where
  vars ::
  x : BitVec w
  m : BitVec w
  mk : BitVec w

/-- A turn of the loop: the bits with an odd count move by `2 ^ i`. -/
def compressStep (toward away : BitVec w → ℕ → BitVec w) (n i : ℕ) (s : CompressVars w) : CompressVars w :=
  let mp := parity away s.mk n
  let mv := s.m &&& mp
  let t := s.x &&& mv
  { m := (s.m ^^^ mv) ||| toward mv (2 ^ i)
    x := (s.x ^^^ t) ||| toward t (2 ^ i)
    mk := s.mk &&& ~~~mp }

def compressLoop (toward away : BitVec w → ℕ → BitVec w) (n : ℕ) : ℕ → CompressVars w → CompressVars w
  | 0, s => s
  | i + 1, s => compressStep toward away n i (compressLoop toward away n i s)

/-- compress_l and compress_r, which differ in the direction of their shifts. -/
def compress (toward away : BitVec w → ℕ → BitVec w) (n : ℕ) (x m : BitVec w) : BitVec w :=
  (compressLoop toward away n n ⟨x &&& m,m,away (~~~m) 1⟩).x

def compressL (n : ℕ) (x m : BitVec w) : BitVec w := compress BitVec.shiftLeft BitVec.ushiftRight n x m

def compressR (n : ℕ) (x m : BitVec w) : BitVec w := compress BitVec.ushiftRight BitVec.shiftLeft n x m

/-- The sheep and the goats: the marked bits to the left, the others to the right. -/
def sag (n : ℕ) (x mask : BitVec w) : BitVec w := compressL n x mask ||| compressR n x (~~~mask)

/-- The first loop of arr_to_SAG_permvec, over the entries of the array: whether no entry is too
large and none comes twice. -/
def checkPositions : List UInt8 → BitVec w → Bool
  | [], _ => true
  | a :: as, t =>
    if w ≤ a.toNat then false
    else
      let bit := (1 : BitVec w) <<< a.toNat
      if t &&& bit ≠ 0 then false else checkPositions as (t ||| bit)

/-- The second loop, for one vector: bit `j` is bit `i` of entry `j`. A set bit 31 of an int is
the bit 31 of the word. -/
def positionBits (arr : Fin w → UInt8) (i : ℕ) : BitVec w :=
  (List.finRange w).foldl (fun v j => v ||| BitVec.ofNat w (((arr j).toNat >>> i) &&& 1) <<< j.val) 0

/-- The bits run through the vectors one after the other. -/
def permuteSAG (n : ℕ) (bits : BitVec w) (pv : List (BitVec w)) : BitVec w := pv.foldl (sag n) bits

/-- The last part: each vector runs through those before it, which are in place already. -/
def alignVectors (n : ℕ) : List (BitVec w) → List (BitVec w) → List (BitVec w)
  | done, [] => done
  | done, v :: vs => alignVectors n (done ++ [permuteSAG n v done]) vs

/-- No vectors stand for the answer -1. -/
def arrToSAGPermvec (n : ℕ) (arr : Fin w → UInt8) : Option (List (BitVec w)) :=
  if checkPositions (List.ofFn arr) (0 : BitVec w) then
    some (alignVectors n [] ((List.range n).map (positionBits arr)))
  else none

def bitgather (bits : BitVec w) (pos : Fin w → UInt8) : BitVec w :=
  (List.finRange w).foldl
    (fun x i => x ||| ((bits >>> ((pos i).toNat &&& (w - 1))) &&& 1) <<< i.val) 0

end Width

def compressL32 (x m : BitVec 32) : BitVec 32 := compressL 5 x m
def compressR32 (x m : BitVec 32) : BitVec 32 := compressR 5 x m
def sag32 (x mask : BitVec 32) : BitVec 32 := sag 5 x mask
def arrToSAGPermvec32 (arr : Fin 32 → UInt8) : Option (List (BitVec 32)) := arrToSAGPermvec 5 arr
def permute32SAG (bits : BitVec 32) (pv : List (BitVec 32)) : BitVec 32 := permuteSAG 5 bits pv
def bitgather32 (bits : BitVec 32) (pos : Fin 32 → UInt8) : BitVec 32 := bitgather bits pos

def compressL64 (x m : BitVec 64) : BitVec 64 := compressL 6 x m
def compressR64 (x m : BitVec 64) : BitVec 64 := compressR 6 x m
def sag64 (x mask : BitVec 64) : BitVec 64 := sag 6 x mask
def arrToSAGPermvec64 (arr : Fin 64 → UInt8) : Option (List (BitVec 64)) := arrToSAGPermvec 6 arr
def permute64SAG (bits : BitVec 64) (pv : List (BitVec 64)) : BitVec 64 := permuteSAG 6 bits pv
def bitgather64 (bits : BitVec 64) (pos : Fin 64 → UInt8) : BitVec 64 := bitgather bits pos

end Catlib.Bits
