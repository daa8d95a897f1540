import Mathlib.Data.Nat.Bitwise
import Mathlib.Data.BitVec
import Mathlib.Tactic.Positivity
import Catlib.Logic.Loop

/-! # Bytes of numbers

A number is cut into bytes by shifting and masking, and joined again by shifting and or-ing.
-/
namespace Catlib.Pack

/-- The byte of a number at a significance. -/
def byteAt (u i : ℕ) : ℕ := (u >>> (8 * i)) &&& 0xFF

/-- `g 0 | g 1 | …`. -/
def orRange (n : ℕ) (g : ℕ → ℕ) : ℕ := (List.range n).foldl (fun u i => u ||| g i) 0

variable {n u : ℕ} {f g : ℕ → ℕ}

theorem testBit_byteAt (u i k : ℕ) : (byteAt u i).testBit k = (decide (k < 8) && u.testBit (8 * i + k)) := by
  rw [byteAt,Nat.testBit_and,Nat.testBit_shiftRight,show 0xFF = 2 ^ 8 - 1 from rfl,Nat.testBit_two_pow_sub_one,Bool.and_comm]

theorem byteAt_lt (u i : ℕ) : byteAt u i < 256 := by
  rw [byteAt,show 0xFF = 2 ^ 8 - 1 from rfl,Nat.and_two_pow_sub_one_eq_mod]
  exact Nat.mod_lt _ (by decide)

theorem byteAt_mask (u i : ℕ) : byteAt u i &&& 0xFF = byteAt u i := by
  rw [show 0xFF = 2 ^ 8 - 1 from rfl,Nat.and_two_pow_sub_one_of_lt_two_pow (byteAt_lt u i)]

theorem testBit_orRange (n : ℕ) (g : ℕ → ℕ) (k : ℕ) : (orRange n g).testBit k = true ↔ ∃ i < n, (g i).testBit k = true := by
  induction n with
  | zero => simp [orRange]
  | succ n ih =>
    rw [orRange] at ih ⊢
    rw [List.range_succ,List.foldl_append,List.foldl_cons,List.foldl_nil,Nat.testBit_or,Bool.or_eq_true,ih]
    constructor
    · rintro (⟨i,hi,h⟩ | h)
      · exact ⟨i,Nat.lt_succ_of_lt hi,h⟩
      · exact ⟨n,Nat.lt_succ_self n,h⟩
    · rintro ⟨i,hi,h⟩
      rcases Nat.lt_succ_iff_lt_or_eq.1 hi with hi | rfl
      · exact Or.inl ⟨i,hi,h⟩
      · exact Or.inr h

theorem orRange_congr (h : ∀ i < n, f i = g i) : orRange n f = orRange n g := by
  apply Nat.eq_of_testBit_eq
  intro k
  rw [Bool.eq_iff_iff,testBit_orRange,testBit_orRange]
  constructor
  · rintro ⟨i,hi,hb⟩
    exact ⟨i,hi,h i hi ▸ hb⟩
  · rintro ⟨i,hi,hb⟩
    exact ⟨i,hi,(h i hi).symm ▸ hb⟩

theorem orRange_reverse (n : ℕ) (g : ℕ → ℕ) : orRange n (fun i => g (n - 1 - i)) = orRange n g := by
  apply Nat.eq_of_testBit_eq
  intro k
  rw [Bool.eq_iff_iff,testBit_orRange,testBit_orRange]
  constructor
  · rintro ⟨i,hi,hb⟩
    exact ⟨n - 1 - i,by omega,hb⟩
  · rintro ⟨i,hi,hb⟩
    refine ⟨n - 1 - i,by omega,?_⟩
    rw [show n - 1 - (n - 1 - i) = i by omega]
    exact hb

theorem orRange_bytes (n u : ℕ) : orRange n (fun i => byteAt u i <<< (8 * i)) = u % 2 ^ (8 * n) := by
  apply Nat.eq_of_testBit_eq
  intro k
  rw [Bool.eq_iff_iff,testBit_orRange,Nat.testBit_mod_two_pow]
  simp only [Nat.testBit_shiftLeft, testBit_byteAt, Bool.and_eq_true, decide_eq_true_eq]
  constructor
  · rintro ⟨i,hi,h1,h2,h3⟩
    refine ⟨by omega,?_⟩
    rw [show 8 * i + (k - 8 * i) = k by omega] at h3
    exact h3
  · rintro ⟨hk,hb⟩
    refine ⟨k / 8,by omega,by omega,by omega,?_⟩
    rw [show 8 * (k / 8) + (k - 8 * (k / 8)) = k by omega]
    exact hb

theorem testBit_byte {b k : ℕ} (hb : b < 256) (hk : b.testBit k = true) : k < 8 := by
  by_contra hlt
  rw [Nat.testBit_eq_false_of_lt (lt_of_lt_of_le hb (Nat.pow_le_pow_right Nat.two_pos (not_lt.1 hlt)))] at hk
  cases hk

theorem orRange_lt (hg : ∀ i, g i < 256) : orRange n (fun i => g i <<< (8 * i)) < 2 ^ (8 * n) := by
  apply Nat.lt_pow_two_of_testBit
  intro k hk
  by_contra hb
  rw [Bool.not_eq_false,testBit_orRange] at hb
  obtain ⟨i,hi,hb⟩ := hb
  rw [Nat.testBit_shiftLeft,Bool.and_eq_true,decide_eq_true_eq] at hb
  have := testBit_byte (hg i) hb.2
  omega

theorem byteAt_orRange (hg : ∀ i, g i < 256) {j : ℕ} (hj : j < n) : byteAt (orRange n fun i => g i <<< (8 * i)) j = g j := by
  apply Nat.eq_of_testBit_eq
  intro k
  rw [testBit_byteAt,Bool.eq_iff_iff,Bool.and_eq_true,decide_eq_true_eq,testBit_orRange]
  constructor
  · rintro ⟨hk,i,hi,hb⟩
    rw [Nat.testBit_shiftLeft,Bool.and_eq_true,decide_eq_true_eq] at hb
    have := testBit_byte (hg i) hb.2
    obtain rfl : i = j := by omega
    rw [show 8 * i + k - 8 * i = k by omega] at hb
    exact hb.2
  · intro hb
    refine ⟨testBit_byte (hg j) hb,j,hj,?_⟩
    rw [Nat.testBit_shiftLeft,Bool.and_eq_true,decide_eq_true_eq]
    exact ⟨by omega,by rw [show 8 * j + k - 8 * j = k by omega]; exact hb⟩

/-! ## Sign extension -/

/-- `s |= -(s & 2^(k-1))` for an `s` of `w` bits. -/
def signFix (w k u : ℕ) : ℕ :=
  let s := BitVec.ofNat w u
  (s ||| -(s &&& BitVec.ofNat w (2 ^ (k - 1)))).toNat

/-- The two's complement of `k` bits. -/
def wrap (k : ℕ) (v : ℤ) : ℕ := (v % 2 ^ k).toNat

theorem wrap_lt (k : ℕ) (v : ℤ) : wrap k v < 2 ^ k := by
  have h1 := Int.emod_lt_of_pos v (show (0 : ℤ) < 2 ^ k by positivity)
  have h0 := Int.emod_nonneg v (show (2 : ℤ) ^ k ≠ 0 by positivity)
  rw [wrap,← Int.ofNat_lt,Int.toNat_of_nonneg h0]
  push_cast
  exact h1

theorem wrap_nonneg {k : ℕ} {v : ℤ} (h0 : 0 ≤ v) (h1 : v < 2 ^ k) : (wrap k v : ℤ) = v := by
  rw [wrap,Int.emod_eq_of_lt h0 h1,Int.toNat_of_nonneg h0]

theorem wrap_neg {k : ℕ} {v : ℤ} (h0 : v < 0) (h1 : -2 ^ k ≤ v) : (wrap k v : ℤ) = v + 2 ^ k := by
  have h : v % 2 ^ k = v + 2 ^ k := by
    rw [← Int.add_emod_right,Int.emod_eq_of_lt (by omega) (by omega)]
  rw [wrap,h,Int.toNat_of_nonneg (by omega)]

theorem or_high {c j r : ℕ} (hj : 0 < j) (hr : r < 2 ^ c) : (2 ^ c + r) ||| ((2 ^ j - 1) <<< c) = (2 ^ j - 1) * 2 ^ c + r := by
  have h1 : 2 ^ c + r = 1 <<< c ||| r := by
    rw [← Nat.shiftLeft_add_eq_or_of_lt hr,Nat.one_shiftLeft]
  have hodd : 1 ||| (2 ^ j - 1) = 2 ^ j - 1 := by
    apply Nat.eq_of_testBit_eq
    intro i
    rw [Nat.testBit_or,Nat.testBit_two_pow_sub_one]
    by_cases hi : i = 0
    · simp [hi, hj]
    · have : Nat.testBit 1 i = false := Nat.testBit_eq_false_of_lt (Nat.one_lt_two_pow hi)
      rw [this,Bool.false_or]
  rw [h1,Nat.or_assoc,Nat.or_comm r,← Nat.or_assoc,← Nat.shiftLeft_or_distrib,hodd,← Nat.shiftLeft_add_eq_or_of_lt hr,
    Nat.shiftLeft_eq]

theorem signFix_toInt {w k : ℕ} (hk : 0 < k) (hkw : k ≤ w) {v : ℤ} (h0 : -2 ^ (k - 1) ≤ v) (h1 : v < 2 ^ (k - 1)) :
    (BitVec.ofNat w (signFix w k (wrap k v))).toInt = v := by
  have hw : 2 ^ k ≤ 2 ^ w := Nat.pow_le_pow_right Nat.two_pos hkw
  have hdouble : 2 ^ k = 2 * 2 ^ (k - 1) := by
    rw [← Nat.pow_succ']
    congr 1
    lia
  have hdoublez : (2 : ℤ) ^ k = 2 * 2 ^ (k - 1) := by exact_mod_cast hdouble
  have hcast : ((2 ^ (k - 1) : ℕ) : ℤ) = 2 ^ (k - 1) := by push_cast; rfl
  have hcastw : ((2 ^ w : ℕ) : ℤ) = 2 ^ w := by push_cast; rfl
  have hu := wrap_lt k v
  have hs : (BitVec.ofNat w (wrap k v)).toNat = wrap k v := Nat.mod_eq_of_lt (lt_of_lt_of_le hu hw)
  have hm : (BitVec.ofNat w (2 ^ (k - 1))).toNat = 2 ^ (k - 1) := Nat.mod_eq_of_lt (by lia)
  rw [signFix,BitVec.ofNat_toNat,BitVec.setWidth_eq]
  by_cases hv : 0 ≤ v
  · -- the sign bit is clear
    have hval : (wrap k v : ℤ) = v := wrap_nonneg hv (by lia)
    have hlt : wrap k v < 2 ^ (k - 1) := by lia
    have hz : BitVec.ofNat w (wrap k v) &&& BitVec.ofNat w (2 ^ (k - 1)) = 0#w := by
      apply BitVec.eq_of_toNat_eq
      rw [BitVec.toNat_and,hs,hm,Nat.and_two_pow,Nat.testBit_eq_false_of_lt hlt]
      simp
    rw [hz,BitVec.neg_zero,BitVec.or_zero,BitVec.toInt_eq_toNat_of_lt (by rw [hs]; lia),hs]
    exact hval
  · -- the sign bit is set
    have hval : (wrap k v : ℤ) = v + 2 ^ k := wrap_neg (by lia) (by lia)
    have hge : 2 ^ (k - 1) ≤ wrap k v := by lia
    have hone : BitVec.ofNat w (wrap k v) &&& BitVec.ofNat w (2 ^ (k - 1)) = BitVec.ofNat w (2 ^ (k - 1)) := by
      apply BitVec.eq_of_toNat_eq
      have hbit : (wrap k v).testBit (k - 1) = true := by
        rw [Nat.testBit_eq_decide_div_mod_eq,decide_eq_true_eq,
          Nat.div_eq_of_lt_le (show 1 * 2 ^ (k - 1) ≤ wrap k v by lia) (by lia)]
      rw [BitVec.toNat_and,hs,hm,Nat.and_two_pow,hbit]
      simp
    have hneg : (-BitVec.ofNat w (2 ^ (k - 1))).toNat = (2 ^ (w - (k - 1)) - 1) <<< (k - 1) := by
      rw [BitVec.toNat_neg,hm,Nat.shiftLeft_eq,Nat.sub_mul,← Nat.pow_add,Nat.sub_add_cancel (by lia),one_mul]
      exact Nat.mod_eq_of_lt (by have := Nat.two_pow_pos (k - 1); lia)
    have hor : (BitVec.ofNat w (wrap k v) ||| -BitVec.ofNat w (2 ^ (k - 1))).toNat = wrap k v + 2 ^ w - 2 ^ k := by
      have hsplit : wrap k v = 2 ^ (k - 1) + (wrap k v - 2 ^ (k - 1)) := by lia
      rw [BitVec.toNat_or,hs,hneg,hsplit,or_high (by lia) (by lia),Nat.sub_mul,← Nat.pow_add,
        Nat.sub_add_cancel (by lia),one_mul]
      lia
    rw [hone,BitVec.toInt_eq_toNat_cond,hor,if_neg (by lia)]
    lia

end Catlib.Pack

/-! # pack and unpack of pack.c

A byte, a half, a word and a jumbo take 1, 2, 4 and 8 bytes in the packed buffer, but a word
is an unsigned long of 8 bytes in memory. The buffer is the list of bytes written so far, or
still to be read; a destination of `unpack` is the memory behind a pointer, in the byte order
of the host. An argument of the wrong kind, and a missing one, have no result.
-/
namespace Catlib.Pack

inductive Width where
  | byte
  | half
  | word
  | jumbo
  deriving DecidableEq

/-- `PSIZ_BYTE` and its like. -/
def psiz : Width → ℕ
  | .byte => 1
  | .half => 2
  | .word => 4
  | .jumbo => 8

/-- The size of the C type. -/
def csize : Width → ℕ
  | .byte => 1
  | .half => 2
  | .word => 8
  | .jumbo => 8

def psizMax : ℕ := 0x7fffffff

/-- `PSIZ_BYTE_OVERFLOW` and its like. -/
def overflow (w : Width) : ℕ := if psizMax % psiz w = 0 ∧ psiz w > 1 then psizMax / psiz w + 1 else psizMax / psiz w

/-- The letters of numbers, with their sign. -/
def letter : Char → Option (Width × Bool)
  | 'b' => some (.byte,false)
  | 'B' => some (.byte,true)
  | 'h' => some (.half,false)
  | 'H' => some (.half,true)
  | 'w' => some (.word,false)
  | 'W' => some (.word,true)
  | 'j' => some (.jumbo,false)
  | 'J' => some (.jumbo,true)
  | _ => none

/-- `toupper(*fmt) == 'E'`. -/
def isOrder (c : Char) : Bool := c = 'e' || c = 'E'

/-- `strtoul` in base 10: the value, capped at `ULONG_MAX`, and the rest. -/
def strtoul (s : List Char) : ℕ × List Char :=
  (min ((s.takeWhile Char.isDigit).foldl (fun n c => 10 * n + (c.toNat - 48)) 0) (2 ^ 64 - 1),s.dropWhile Char.isDigit)

/-- The count in front of an item; a count of zero is an error. -/
def parseCount (dflt : ℕ) : List Char → Option (ℕ × List Char)
  | [] => some (dflt,[])
  | c :: s => if c.isDigit then if (strtoul (c :: s)).1 = 0 then none else some (strtoul (c :: s)) else some (dflt,c :: s)

/-! ## Numbers -/

/-- The bytes of a number in the order of the buffer. -/
def packBytes (n : ℕ) (bigendian : Bool) (val : ℕ) : List ℕ :=
  (List.range n).map fun i => byteAt val (if bigendian then n - 1 - i else i)

def packHalf (val : ℕ) (bigendian : Bool) : List ℕ := packBytes 2 bigendian val
def packWord (val : ℕ) (bigendian : Bool) : List ℕ := packBytes 4 bigendian val
def packJumbo (val : ℕ) (bigendian : Bool) : List ℕ := packBytes 8 bigendian val

/-- One element of an item; the value is converted to its type. -/
def packVal (w : Width) (bigendian : Bool) (v : ℤ) : List ℕ :=
  let val := wrap (8 * csize w) v
  match w with
  | .byte => [val &&& 0xFF]
  | .half => packHalf val bigendian
  | .word => packWord val bigendian
  | .jumbo => packJumbo val bigendian

/-- The bytes at `p` joined. -/
def joinBytes (n : ℕ) (bigendian : Bool) (p : List ℕ) : ℕ :=
  orRange n fun i => (p.getD i 0 &&& 0xFF) <<< (8 * if bigendian then n - 1 - i else i)

/-- `unpack_half`; the last branch assigns the second byte over the first. -/
def unpackHalf (p : List ℕ) (bigendian issigned : Bool) : ℕ :=
  if bigendian then
    if issigned then signFix 16 16 (joinBytes 2 true p) else joinBytes 2 true p
  else
    if issigned then signFix 16 16 (joinBytes 2 false p) else (p.getD 1 0 &&& 0xFF) <<< 8

def unpackWord (p : List ℕ) (bigendian issigned : Bool) : ℕ :=
  if issigned then signFix 64 32 (joinBytes 4 bigendian p) else joinBytes 4 bigendian p

def unpackJumbo (p : List ℕ) (bigendian issigned : Bool) : ℕ :=
  if issigned then signFix 64 64 (joinBytes 8 bigendian p) else joinBytes 8 bigendian p

/-- One element of an item; a jumbo is never unpacked as signed. -/
def unpackVal (w : Width) (sgn bigendian : Bool) (p : List ℕ) : ℕ :=
  match w with
  | .byte => if sgn then signFix 8 8 (p.getD 0 0 &&& 0xFF) else p.getD 0 0
  | .half => unpackHalf p bigendian sgn
  | .word => unpackWord p bigendian sgn
  | .jumbo => unpackJumbo p bigendian false

/-! ## pack -/

inductive PackArg where
  | num (v : ℤ)
  | arr (vs : List ℤ)
  | raws (rs : List (List ℕ))

structure PackSt where
  fmt : List Char
  bigendian : Bool
  left : ℕ
  args : List PackArg
  out : List ℕ

/-- The number or the elements of an argument. -/
def argVals (nreps : ℕ) : PackArg → Option (List ℤ)
  | .num v => if nreps = 0 then some [v] else none
  | .arr vs => if nreps = 0 ∨ vs.length < nreps then none else some (vs.take nreps)
  | .raws _ => none

/-- The loop over the blocks of an `r` item: the bytes it wrote, and whether it got through. -/
def packRaws (left : ℕ) : ℕ → List (List ℕ) → Option (List ℕ × Bool)
  | 0, _ => some ([],true)
  | _ + 1, [] => none
  | n + 1, r :: rs =>
    if r.length > psizMax ∨ r.length > left then some ([],false)
    else (packRaws (left - r.length) n rs).map fun x => (r ++ x.1,x.2)

/-- The result of a turn that writes. -/
def PackSt.write (x : PackSt) (fmt : List Char) (bytes : List ℕ) : PackSt :=
  { x with fmt := fmt, left := x.left - bytes.length, args := x.args.tail, out := x.out ++ bytes }

/-- The body of the loop of `pack`; it leaves with the return value and the buffer. -/
def packBody (blen : ℕ) (x : PackSt) : Option (Turn PackSt (ℕ × List ℕ)) :=
  match x.fmt with
  | [] => some (.leave (blen - x.left,x.out))
  | c :: _ =>
    if isOrder c then some (.again { x with bigendian := c = 'E' })
    else
      match parseCount 0 x.fmt with
      | none => some (.leave (0,x.out))
      | some (_,[]) => some (.leave (0,x.out))
      | some (nreps,c :: s) =>
        match letter c with
        | some (w,_) =>
          if nreps > overflow w ∨ psiz w * max 1 nreps > x.left then some (.leave (0,x.out))
          else do
            let a ← x.args.head?
            let vs ← argVals nreps a
            return .again (x.write s (vs.flatMap (packVal w x.bigendian)))
        | none =>
          if c = 'r' then
            match x.args.head? with
            | some (.raws rs) => do
              let x' ← packRaws x.left (max 1 nreps) rs
              return if x'.2 then .again (x.write s x'.1) else .leave (0,x.out ++ x'.1)
            | _ => none
          else some (.leave (0,x.out))

def pack (fuel blen : ℕ) (fmt : List Char) (args : List PackArg) : Option (ℕ × List ℕ) :=
  if blen = 0 then some (0,[])
  else loop (packBody (min blen psizMax)) fuel ⟨fmt,true,min blen psizMax,args,[]⟩

/-! ## unpack -/

/-- The memory behind a pointer. -/
abbrev CMem := ℕ → ℕ

/-- The significance of the byte at an offset of a number of `n` bytes. -/
def significance (little : Bool) (n off : ℕ) : ℕ := if little then off else n - 1 - off

/-- A store of a number of `n` bytes. -/
def storeAt (little : Bool) (m : CMem) (p n x : ℕ) : CMem :=
  fun a => if p ≤ a ∧ a < p + n then byteAt x (significance little n (a - p)) else m a

/-- A load of a number of `n` bytes. -/
def loadAt (little : Bool) (m : CMem) (p n : ℕ) : ℕ :=
  orRange n fun j => m (p + significance little n j) <<< (8 * j)

structure UnpackSt where
  fmt : List Char
  bigendian : Bool
  pulled : ℕ
  p : List ℕ
  dests : List CMem
  done : List CMem

/-- The loop over the elements of an item: the input and the pointer both go on by the packed
size. -/
def unpackElems (little : Bool) (w : Width) (sgn bigendian : Bool) (p : List ℕ) (m : CMem) (nreps : ℕ) : CMem :=
  (List.range nreps).foldl
    (fun m i => storeAt little m (i * psiz w) (csize w) (unpackVal w sgn bigendian (p.drop (i * psiz w)))) m

/-- The body of the loop of `unpack`; it leaves with the return value and the destinations. -/
def unpackBody (little : Bool) (blen : ℕ) (x : UnpackSt) : Option (Turn UnpackSt (ℕ × List CMem)) :=
  match x.fmt with
  | [] => some (.leave (x.pulled,x.done ++ x.dests))
  | c :: _ =>
    if isOrder c then some (.again { x with bigendian := c = 'E' })
    else
      match parseCount 1 x.fmt with
      | none => some (.leave (0,x.done ++ x.dests))
      | some (_,[]) => some (.leave (0,x.done ++ x.dests))
      | some (nreps,c :: s) =>
        match letter c with
        | some (w,sgn) =>
          if nreps > overflow w ∨ blen < psiz w * nreps ∨ psiz w * nreps > blen - x.pulled then
            some (.leave (0,x.done ++ x.dests))
          else do
            let m ← x.dests.head?
            return .again { x with
              fmt := s
              pulled := x.pulled + psiz w * nreps
              p := x.p.drop (nreps * psiz w)
              dests := x.dests.tail
              done := x.done ++ [unpackElems little w sgn x.bigendian x.p m nreps] }
        | none => some (.leave (0,x.done ++ x.dests))

def unpack (little : Bool) (fuel : ℕ) (buf : List ℕ) (blen : ℕ) (fmt : List Char) (dests : List CMem) :
    Option (ℕ × List CMem) :=
  if blen > psizMax then none
  else if blen = 0 then some (0,dests)
  else loop (unpackBody little blen) fuel ⟨fmt,true,0,buf,dests,[]⟩

end Catlib.Pack
