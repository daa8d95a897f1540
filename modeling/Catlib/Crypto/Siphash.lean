import Catlib.Crypto.Words
import Mathlib.Data.List.GetD
import Mathlib.Tactic.IntervalCases

/-! # SipHash-2-4 and the siphash24 of crypto.c

The reference works on four 64-bit words. The code keeps each of them as two unsigned
longs of 32 bits. It joins message bytes as ints, so the byte that lands in the sign bit of
an int fills the upper half of the unsigned long as well.
-/
namespace Catlib.Crypto

/-! ## The reference -/

@[ext] structure SipState where
  v0 : BitVec 64
  v1 : BitVec 64
  v2 : BitVec 64
  v3 : BitVec 64
  deriving DecidableEq

def rotl (x : BitVec 64) (n : ℕ) : BitVec 64 := (x <<< n) ||| (x >>> (64 - n))

def sipRound (s : SipState) : SipState :=
  let v0 := s.v0 + s.v1
  let v1 := rotl s.v1 13 ^^^ v0
  let v0 := rotl v0 32
  let v2 := s.v2 + s.v3
  let v3 := rotl s.v3 16 ^^^ v2
  let v0 := v0 + v3
  let v3 := rotl v3 21 ^^^ v0
  let v2 := v2 + v1
  let v1 := rotl v1 17 ^^^ v2
  let v2 := rotl v2 32
  ⟨v0,v1,v2,v3⟩

/-- The first eight bytes as a little-endian word; missing bytes are zero. -/
def le64 (bs : List Byte) : BitVec 64 :=
  (List.range 8).foldl (fun x i => x ||| ((bs.getD i 0).setWidth 64 <<< (8 * i))) 0

def sipInit (key : List Byte) : SipState where
  v0 := le64 key ^^^ 0x736f6d6570736575
  v1 := le64 (key.drop 8) ^^^ 0x646f72616e646f6d
  v2 := le64 key ^^^ 0x6c7967656e657261
  v3 := le64 (key.drop 8) ^^^ 0x7465646279746573

def sipCompress (s : SipState) (m : BitVec 64) : SipState :=
  let s := sipRound (sipRound { s with v3 := s.v3 ^^^ m })
  { s with v0 := s.v0 ^^^ m }

/-- The whole words of the message. -/
def sipWords : ℕ → SipState → List Byte → SipState
  | 0, s, _ => s
  | n + 1, s, bs => sipWords n (sipCompress s (le64 bs)) (bs.drop 8)

/-- The last word: the bytes that are left and the length modulo 256 on top. -/
def sipLast (M : List Byte) : BitVec 64 :=
  le64 (M.drop (8 * (M.length / 8))) ||| (BitVec.ofNat 64 (M.length % 256) <<< 56)

def sipFinish (s : SipState) : BitVec 64 :=
  let s := sipRound (sipRound (sipRound (sipRound { s with v2 := s.v2 ^^^ 0xff })))
  s.v0 ^^^ s.v1 ^^^ s.v2 ^^^ s.v3

/-- The eight bytes of a word, the low one first. -/
def leBytes (x : BitVec 64) : List Byte := (List.range 8).map fun i => (x >>> (8 * i)).setWidth 8

def sipHash24 (key M : List Byte) : List Byte :=
  leBytes (sipFinish (sipCompress (sipWords (M.length / 8) (sipInit key) M) (sipLast M)))

/-! ## The code -/

/-- A little-endian `ulong[2]`. -/
@[ext] structure Pair where
  lo : Ulong
  hi : Ulong
  deriving DecidableEq

structure Siphashctx where
  nbytes : BitVec 32
  state : Pair
  v0 : Pair
  v1 : Pair
  v2 : Pair
  v3 : Pair

/-- `U8TOU32LE` at offset `o`. -/
def u8tou32le (p : List Byte) (o : ℕ) : Ulong :=
  (p.getD o 0).setWidth 64 ||| (p.getD (o + 1) 0).setWidth 64 <<< 8 ||| (p.getD (o + 2) 0).setWidth 64 <<< 16 |||
    (p.getD (o + 3) 0).setWidth 64 <<< 24

def siphashInit (key : List Byte) : Siphashctx where
  nbytes := 0
  state := ⟨0,0⟩
  v0 := ⟨0x70736575 ^^^ u8tou32le key 0,0x736f6d65 ^^^ u8tou32le key 4⟩
  v1 := ⟨0x6e646f6d ^^^ u8tou32le key 8,0x646f7261 ^^^ u8tou32le key 12⟩
  v2 := ⟨0x6e657261 ^^^ u8tou32le key 0,0x6c796765 ^^^ u8tou32le key 4⟩
  v3 := ⟨0x79746573 ^^^ u8tou32le key 8,0x74656462 ^^^ u8tou32le key 12⟩

def add64 (v0 v1 : Pair) : Pair :=
  let lo := (v0.lo + v1.lo) &&& 0xFFFFFFFF
  ⟨lo,(v0.hi + (v1.hi + if lo < v0.lo then 1 else 0)) &&& 0xFFFFFFFF⟩

def rotl64 (v : Pair) (amt : ℕ) : Pair :=
  let out0 := v.lo >>> (32 - amt)
  let out1 := v.hi >>> (32 - amt)
  ⟨((v.lo <<< amt) ||| out1) &&& 0xFFFFFFFF,((v.hi <<< amt) ||| out0) &&& 0xFFFFFFFF⟩

def rotl64_32 (v : Pair) : Pair := ⟨v.hi,v.lo⟩

def xor64 (v0 v1 : Pair) : Pair := ⟨v0.lo ^^^ v1.lo,v0.hi ^^^ v1.hi⟩

def siphashRound (c : Siphashctx) : Siphashctx :=
  let c := { c with v0 := add64 c.v0 c.v1 }
  let c := { c with v2 := add64 c.v2 c.v3 }
  let c := { c with v1 := rotl64 c.v1 13 }
  let c := { c with v3 := rotl64 c.v3 16 }
  let c := { c with v1 := xor64 c.v1 c.v0 }
  let c := { c with v3 := xor64 c.v3 c.v2 }
  let c := { c with v0 := rotl64_32 c.v0 }
  let c := { c with v2 := add64 c.v2 c.v1 }
  let c := { c with v0 := add64 c.v0 c.v3 }
  let c := { c with v1 := rotl64 c.v1 17 }
  let c := { c with v3 := rotl64 c.v3 21 }
  let c := { c with v1 := xor64 c.v1 c.v2 }
  let c := { c with v3 := xor64 c.v3 c.v0 }
  { c with v2 := rotl64_32 c.v2 }

/-- A byte promoted to `int` and shifted. -/
def intShift (b : Byte) (k : ℕ) : BitVec 32 := b.setWidth 32 <<< k

/-- Four bytes joined as ints, and the int converted to `ulong`. -/
def joinInts (p : List Byte) (o : ℕ) : Ulong :=
  (intShift (p.getD o 0) 0 ||| intShift (p.getD (o + 1) 0) 8 ||| intShift (p.getD (o + 2) 0) 16 |||
    intShift (p.getD (o + 3) 0) 24).signExtend 64

/-- One turn of the slow path: the byte goes to offset `off`. -/
def orByte (st : Pair) (off : ℕ) (b : Byte) : Pair :=
  if off < 4 then { st with lo := st.lo ||| (intShift b (8 * off)).signExtend 64 }
  else { st with hi := st.hi ||| (intShift b (8 * (off - 4))).signExtend 64 }

/-- `siphash_add_bytes`: whether the word is full, the context, and the rest of the bytes. -/
def siphashAddBytes (c : Siphashctx) (p : List Byte) : Bool × Siphashctx × List Byte :=
  let off := (c.nbytes % 8).toNat
  if off = 0 ∧ 8 ≤ p.length then
    (true,{ c with state := ⟨joinInts p 0,joinInts p 4⟩, nbytes := c.nbytes + 8 },p.drop 8)
  else
    let st := if off = 0 then ⟨0,0⟩ else c.state
    let toadd := min (8 - off) p.length
    let st := (List.range toadd).foldl (fun st i => orByte st (off + i) (p.getD i 0)) st
    let nbytes := c.nbytes + BitVec.ofNat 32 toadd
    (decide (nbytes % 8 = 0),{ c with state := st, nbytes := nbytes },p.drop toadd)

/-- What `siphash24_add` and `siphash24_fini` do with a word that stands in `state`. -/
def siphashAbsorb (c : Siphashctx) : Siphashctx :=
  let c := siphashRound (siphashRound { c with v3 := xor64 c.v3 c.state })
  { c with v0 := xor64 c.v0 c.state }

theorem siphashAddBytes_shorter (c : Siphashctx) {p : List Byte} (hp : p ≠ []) :
    (siphashAddBytes c p).2.2.length < p.length := by
  have := List.length_pos_iff.2 hp
  have h8 : (c.nbytes % 8).toNat < 8 := by
    rw [BitVec.toNat_umod]
    exact Nat.mod_lt _ (by decide)
  simp only [siphashAddBytes]
  split <;> simp only [List.length_drop] <;> omega

def siphash24Add (c : Siphashctx) (p : List Byte) : Siphashctx :=
  if _hp : p = [] then c
  else
    let r := siphashAddBytes c p
    siphash24Add (if r.1 then siphashAbsorb r.2.1 else r.2.1) r.2.2
termination_by p.length
decreasing_by exact siphashAddBytes_shorter c _hp

def siphash24Fini (c : Siphashctx) : List Byte :=
  let c := if c.nbytes % 8 = 0 then { c with state := ⟨0,0⟩ } else c
  let c := { c with state := { c.state with hi := c.state.hi ||| ((c.nbytes % 256) <<< 24).setWidth 64 } }
  let c := siphashAbsorb c
  let c := { c with v2 := { c.v2 with lo := c.v2.lo ^^^ 0xff } }
  let c := siphashRound (siphashRound (siphashRound (siphashRound c)))
  let st : Pair := ⟨c.v0.lo ^^^ c.v1.lo ^^^ c.v2.lo ^^^ c.v3.lo,c.v0.hi ^^^ c.v1.hi ^^^ c.v2.hi ^^^ c.v3.hi⟩
  [st.lo &&& 0xff,(st.lo >>> 8) &&& 0xff,(st.lo >>> 16) &&& 0xff,(st.lo >>> 24) &&& 0xff,
    st.hi &&& 0xff,(st.hi >>> 8) &&& 0xff,(st.hi >>> 16) &&& 0xff,(st.hi >>> 24) &&& 0xff].map (·.setWidth 8)

def siphash24 (key M : List Byte) : List Byte := siphash24Fini (siphash24Add (siphashInit key) M)

end Catlib.Crypto
