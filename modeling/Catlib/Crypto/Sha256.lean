import Catlib.Crypto.Words

/-! # SHA-256 as FIPS 180-4 defines it

The functions and constants of section 4, the padding of section 5.1.1 and the
computation of section 6.2.2, on 32-bit words and messages of whole bytes.
-/
namespace Catlib.Crypto

/-! ## Functions and constants -/

def ch (x y z : Word) : Word := (x &&& y) ^^^ (~~~x &&& z)
def maj (x y z : Word) : Word := (x &&& y) ^^^ (x &&& z) ^^^ (y &&& z)
def bigSigma0 (x : Word) : Word := rotr 2 x ^^^ rotr 13 x ^^^ rotr 22 x
def bigSigma1 (x : Word) : Word := rotr 6 x ^^^ rotr 11 x ^^^ rotr 25 x
def smallSigma0 (x : Word) : Word := rotr 7 x ^^^ rotr 18 x ^^^ (x >>> 3)
def smallSigma1 (x : Word) : Word := rotr 17 x ^^^ rotr 19 x ^^^ (x >>> 10)

/-- The constants `K` of section 4.2.2. -/
def shaK : List Word := [
  0x428a2f98, 0x71374491, 0xb5c0fbcf, 0xe9b5dba5, 0x3956c25b, 0x59f111f1, 0x923f82a4, 0xab1c5ed5,
  0xd807aa98, 0x12835b01, 0x243185be, 0x550c7dc3, 0x72be5d74, 0x80deb1fe, 0x9bdc06a7, 0xc19bf174,
  0xe49b69c1, 0xefbe4786, 0x0fc19dc6, 0x240ca1cc, 0x2de92c6f, 0x4a7484aa, 0x5cb0a9dc, 0x76f988da,
  0x983e5152, 0xa831c66d, 0xb00327c8, 0xbf597fc7, 0xc6e00bf3, 0xd5a79147, 0x06ca6351, 0x14292967,
  0x27b70a85, 0x2e1b2138, 0x4d2c6dfc, 0x53380d13, 0x650a7354, 0x766a0abb, 0x81c2c92e, 0x92722c85,
  0xa2bfe8a1, 0xa81a664b, 0xc24b8b70, 0xc76c51a3, 0xd192e819, 0xd6990624, 0xf40e3585, 0x106aa070,
  0x19a4c116, 0x1e376c08, 0x2748774c, 0x34b0bcb5, 0x391c0cb3, 0x4ed8aa4a, 0x5b9cca4f, 0x682e6ff3,
  0x748f82ee, 0x78a5636f, 0x84c87814, 0x8cc70208, 0x90befffa, 0xa4506ceb, 0xbef9a3f7, 0xc67178f2]

/-- The eight working variables, or the eight words of a hash value. -/
@[ext] structure Regs (w : ℕ) where
  a : BitVec w
  b : BitVec w
  c : BitVec w
  d : BitVec w
  e : BitVec w
  f : BitVec w
  g : BitVec w
  h : BitVec w
  deriving DecidableEq

/-- The initial hash value of section 5.3.3. -/
def shaH0 : Regs 32 :=
  ⟨0x6a09e667,0xbb67ae85,0x3c6ef372,0xa54ff53a,0x510e527f,0x9b05688c,0x1f83d9ab,0x5be0cd19⟩

/-! ## One block -/

/-- The message schedule of a block of sixteen words. -/
def schedule (M : ℕ → Word) (t : ℕ) : Word :=
  if t < 16 then M t
  else smallSigma1 (schedule M (t - 2)) + schedule M (t - 7) + smallSigma0 (schedule M (t - 15)) +
    schedule M (t - 16)
termination_by t

/-- One round, with the constant and the schedule word of the round. -/
def shaRound (K W : Word) (r : Regs 32) : Regs 32 :=
  let t1 := r.h + bigSigma1 r.e + ch r.e r.f r.g + K + W
  let t2 := bigSigma0 r.a + maj r.a r.b r.c
  ⟨t1 + t2,r.a,r.b,r.c,r.d + t1,r.e,r.f,r.g⟩

def shaRounds (W : ℕ → Word) (r : Regs 32) : Regs 32 :=
  (List.range 64).foldl (fun r t => shaRound (shaK.getD t 0) (W t) r) r

/-- The next hash value. -/
def shaBlock (H : Regs 32) (M : ℕ → Word) : Regs 32 :=
  let r := shaRounds (schedule M) H
  ⟨H.a + r.a,H.b + r.b,H.c + r.c,H.d + r.d,H.e + r.e,H.f + r.f,H.g + r.g,H.h + r.h⟩

/-! ## Messages -/

/-- Four bytes as a big-endian word. -/
def be32 (b0 b1 b2 b3 : Byte) : Word :=
  b0.setWidth 32 <<< 24 ||| b1.setWidth 32 <<< 16 ||| b2.setWidth 32 <<< 8 ||| b3.setWidth 32

/-- Word `t` of a block given as bytes. -/
def blockWord (bs : List Byte) (t : ℕ) : Word :=
  be32 (bs.getD (4 * t) 0) (bs.getD (4 * t + 1) 0) (bs.getD (4 * t + 2) 0) (bs.getD (4 * t + 3) 0)

/-- A number as eight big-endian bytes. -/
def be64 (n : ℕ) : List Byte := (List.range 8).map fun i => BitVec.ofNat 8 (n >>> (8 * (7 - i)))

/-- The number of zero bytes between the byte of the one bit and the length field: with them
the padded length is the least multiple of the block size that has room for both. -/
def zeros (len : ℕ) : ℕ := (119 - len % 64) % 64

def shaPad (M : List Byte) : List Byte :=
  M ++ 0x80 :: List.replicate (zeros M.length) 0 ++ be64 (8 * M.length)

/-- The hash value after the first `n` blocks. -/
def shaBlocks : ℕ → Regs 32 → List Byte → Regs 32
  | 0, H, _ => H
  | n + 1, H, bs => shaBlocks n (shaBlock H (blockWord (bs.take 64))) (bs.drop 64)

def wordBytes (x : Word) : List Byte := [(x >>> 24).setWidth 8,(x >>> 16).setWidth 8,(x >>> 8).setWidth 8,x.setWidth 8]

def digestBytes (H : Regs 32) : List Byte :=
  wordBytes H.a ++ wordBytes H.b ++ wordBytes H.c ++ wordBytes H.d ++ wordBytes H.e ++ wordBytes H.f ++
    wordBytes H.g ++ wordBytes H.h

/-- The SHA-256 digest of a message. -/
def sha256Digest (M : List Byte) : List Byte :=
  digestBytes (shaBlocks ((shaPad M).length / 64) shaH0 (shaPad M))

theorem shaPad_length (M : List Byte) : (shaPad M).length = M.length + 9 + zeros M.length := by
  simp [shaPad, be64]
  omega

theorem shaPad_dvd (M : List Byte) : 64 ∣ (shaPad M).length := by
  rw [shaPad_length,zeros]
  omega

/-! ## Evaluation

The schedule is defined by recursion on the round; to compute a block, the rounds run over a
window of the sixteen words in use, and every new word is brought to a literal at once. -/

/-- `k x`, with `x` brought to a literal first. -/
def force {α : Type} (x : Word) (k : Word → α) : α :=
  Nat.rec (k 0) (fun n _ => k (BitVec.ofNat 32 (n + 1))) x.toNat

theorem force_eq {α : Type} (x : Word) (k : Word → α) : force x k = k x := by
  have h : x = BitVec.ofNat 32 x.toNat := by simp
  conv_rhs => rw [h]
  unfold force
  cases x.toNat <;> rfl

def windowNext (w : List Word) : Word :=
  smallSigma1 (w.getD 14 0) + w.getD 9 0 + smallSigma0 (w.getD 1 0) + w.getD 0 0

/-- The rounds with the constants `ks`, from the window `w` on. -/
def windowRounds : List Word → List Word → Regs 32 → Regs 32
  | [], _, r => r
  | k :: ks, w, r =>
    force (windowNext w) fun x => force (shaRound k (w.getD 0 0) r).a fun a =>
      force (shaRound k (w.getD 0 0) r).e fun e => windowRounds ks (w.tail ++ [x]) ⟨a,r.a,r.b,r.c,e,r.e,r.f,r.g⟩

def scheduleWindow (M : ℕ → Word) (t : ℕ) : List Word := (List.range 16).map fun i => schedule M (t + i)

theorem scheduleWindow_getD (M : ℕ → Word) (t : ℕ) {i : ℕ} (hi : i < 16) :
    (scheduleWindow M t).getD i 0 = schedule M (t + i) := by
  simp [scheduleWindow, List.getD_eq_getElem?_getD, hi]

theorem scheduleWindow_succ (M : ℕ → Word) (t : ℕ) :
    (scheduleWindow M t).tail ++ [windowNext (scheduleWindow M t)] = scheduleWindow M (t + 1) := by
  have h : windowNext (scheduleWindow M t) = schedule M (t + 16) := by
    conv_rhs => rw [schedule,if_neg (by omega)]
    rw [windowNext,scheduleWindow_getD _ _ (by decide),scheduleWindow_getD _ _ (by decide),
      scheduleWindow_getD _ _ (by decide),scheduleWindow_getD _ _ (by decide)]
    rfl
  rw [h]
  simp only [scheduleWindow, List.range_succ_eq_map, List.range_zero, List.map_cons, List.map_nil, List.tail_cons,
    Nat.succ_eq_add_one, List.cons_append, List.nil_append]

theorem windowRounds_eq (M : ℕ → Word) (ks : List Word) (t : ℕ) (r : Regs 32) :
    windowRounds ks (scheduleWindow M t) r =
      (List.range ks.length).foldl (fun r i => shaRound (ks.getD i 0) (schedule M (t + i)) r) r := by
  induction ks generalizing t r with
  | nil => rfl
  | cons k ks ih =>
    simp only [windowRounds, force_eq]
    rw [scheduleWindow_succ,scheduleWindow_getD _ _ (by decide),ih,List.length_cons,List.range_succ_eq_map,
      List.foldl_cons,List.foldl_map]
    simp only [Nat.add_zero, Nat.succ_eq_add_one, List.getD_cons_succ, List.getD_cons_zero, Nat.add_assoc,
      Nat.add_comm 1]
    rfl

/-- A block computed on a window. -/
def windowBlock (H : Regs 32) (w : List Word) : Regs 32 :=
  let r := windowRounds shaK w H
  ⟨H.a + r.a,H.b + r.b,H.c + r.c,H.d + r.d,H.e + r.e,H.f + r.f,H.g + r.g,H.h + r.h⟩

theorem shaBlock_eq_window (H : Regs 32) (M : ℕ → Word) : shaBlock H M = windowBlock H ((List.range 16).map M) := by
  have h : (List.range 16).map M = scheduleWindow M 0 := by
    refine List.map_congr_left fun i hi => ?_
    rw [schedule,if_pos (by have := List.mem_range.1 hi; omega),Nat.zero_add]
  have hr := windowRounds_eq M shaK 0 H
  simp only [Nat.zero_add] at hr
  rw [shaBlock,windowBlock,h,hr]
  rfl

end Catlib.Crypto

/-! # The SHA-256 of crypto.c

The context holds 32-bit values in unsigned longs; every sum and every rotation is masked.
A pointer into the message is the list of the bytes from there on.
-/
namespace Catlib.Crypto

structure Sha256ctx where
  llo : Ulong
  lhi : Ulong
  w : List Ulong
  h : Regs 64

def cRor (x : Ulong) (amt : ℕ) : Ulong := ((x >>> amt) ||| (x <<< (32 - amt))) &&& 0xFFFFFFFF
def cCh (x y z : Ulong) : Ulong := (x &&& y) ^^^ (~~~x &&& z)
def cMaj (x y z : Ulong) : Ulong := (x &&& y) ^^^ (x &&& z) ^^^ (y &&& z)
def cSigma0 (x : Ulong) : Ulong := cRor x 2 ^^^ cRor x 13 ^^^ cRor x 22
def cSigma1 (x : Ulong) : Ulong := cRor x 6 ^^^ cRor x 11 ^^^ cRor x 25
def csigma0 (x : Ulong) : Ulong := cRor x 7 ^^^ cRor x 18 ^^^ ((x >>> 3) &&& 0xFFFFFFFF)
def csigma1 (x : Ulong) : Ulong := cRor x 17 ^^^ cRor x 19 ^^^ ((x >>> 10) &&& 0xFFFFFFFF)

/-- The table `sha256_k`. -/
def sha256K : List Ulong := [
  0x428a2f98, 0x71374491, 0xb5c0fbcf, 0xe9b5dba5, 0x3956c25b, 0x59f111f1, 0x923f82a4, 0xab1c5ed5,
  0xd807aa98, 0x12835b01, 0x243185be, 0x550c7dc3, 0x72be5d74, 0x80deb1fe, 0x9bdc06a7, 0xc19bf174,
  0xe49b69c1, 0xefbe4786, 0x0fc19dc6, 0x240ca1cc, 0x2de92c6f, 0x4a7484aa, 0x5cb0a9dc, 0x76f988da,
  0x983e5152, 0xa831c66d, 0xb00327c8, 0xbf597fc7, 0xc6e00bf3, 0xd5a79147, 0x06ca6351, 0x14292967,
  0x27b70a85, 0x2e1b2138, 0x4d2c6dfc, 0x53380d13, 0x650a7354, 0x766a0abb, 0x81c2c92e, 0x92722c85,
  0xa2bfe8a1, 0xa81a664b, 0xc24b8b70, 0xc76c51a3, 0xd192e819, 0xd6990624, 0xf40e3585, 0x106aa070,
  0x19a4c116, 0x1e376c08, 0x2748774c, 0x34b0bcb5, 0x391c0cb3, 0x4ed8aa4a, 0x5b9cca4f, 0x682e6ff3,
  0x748f82ee, 0x78a5636f, 0x84c87814, 0x8cc70208, 0x90befffa, 0xa4506ceb, 0xbef9a3f7, 0xc67178f2]

def sha256Init : Sha256ctx where
  llo := 0
  lhi := 0
  w := List.replicate 64 0
  h := ⟨0x6a09e667,0xbb67ae85,0x3c6ef372,0xa54ff53a,0x510e527f,0x9b05688c,0x1f83d9ab,0x5be0cd19⟩

/-! ## Blocks -/

/-- One turn of the loop that extends the schedule. -/
def extend (w : List Ulong) (i : ℕ) : List Ulong :=
  w.set i ((csigma1 (w.getD (i - 2) 0) + w.getD (i - 7) 0 + csigma0 (w.getD (i - 15) 0) +
    w.getD (i - 16) 0) &&& 0xFFFFFFFF)

/-- One turn of the loop of hash rounds. -/
def hashRound (w : List Ulong) (r : Regs 64) (i : ℕ) : Regs 64 :=
  let t1 := (r.h + cSigma1 r.e + cCh r.e r.f r.g + sha256K.getD i 0 + w.getD i 0) &&& 0xFFFFFFFF
  let t2 := (cSigma0 r.a + cMaj r.a r.b r.c) &&& 0xFFFFFFFF
  ⟨(t1 + t2) &&& 0xFFFFFFFF,r.a,r.b,r.c,(r.d + t1) &&& 0xFFFFFFFF,r.e,r.f,r.g⟩

def sha256HashBlock (s : Sha256ctx) : Sha256ctx :=
  let w := (List.range' 16 48).foldl extend s.w
  let r := (List.range 64).foldl (hashRound w) s.h
  { s with
    w := w
    h := ⟨(s.h.a + r.a) &&& 0xFFFFFFFF,(s.h.b + r.b) &&& 0xFFFFFFFF,(s.h.c + r.c) &&& 0xFFFFFFFF,
      (s.h.d + r.d) &&& 0xFFFFFFFF,(s.h.e + r.e) &&& 0xFFFFFFFF,(s.h.f + r.f) &&& 0xFFFFFFFF,
      (s.h.g + r.g) &&& 0xFFFFFFFF,(s.h.h + r.h) &&& 0xFFFFFFFF⟩ }

/-! ## Bytes -/

/-- The switch that stores the byte at index `idx` of the block. -/
def storeByte (w : List Ulong) (idx : ℕ) (b : Byte) : List Ulong :=
  match idx % 4 with
  | 0 => w.set (idx / 4) (b.setWidth 64 <<< 24)
  | 1 => w.set (idx / 4) (w.getD (idx / 4) 0 ||| b.setWidth 64 <<< 16)
  | 2 => w.set (idx / 4) (w.getD (idx / 4) 0 ||| b.setWidth 64 <<< 8)
  | _ => w.set (idx / 4) (w.getD (idx / 4) 0 ||| b.setWidth 64)

/-- Where the next byte goes in the current block. -/
def blockIdx (s : Sha256ctx) : ℕ := (s.llo &&& 63).toNat

/-- How many bytes `sha256_add_bytes` takes. -/
def toadd (s : Sha256ctx) (p : List Byte) : ℕ := min (64 - blockIdx s) p.length

/-- `sha256_add_bytes`: whether the block is full, the context, and the rest of the bytes. -/
def sha256AddBytes (s : Sha256ctx) (p : List Byte) : Bool × Sha256ctx × List Byte :=
  let n := toadd s p
  let llo := (s.llo + BitVec.ofNat 64 n) &&& 0xFFFFFFFF
  (decide (blockIdx s + n = 64),
    { s with
      w := (List.range n).foldl (fun w i => storeByte w (blockIdx s + i) (p.getD i 0)) s.w
      llo := llo
      lhi := if llo < s.llo then s.lhi + 1 else s.lhi },
    p.drop n)

theorem blockIdx_eq (s : Sha256ctx) : blockIdx s = s.llo.toNat % 64 := by
  rw [blockIdx,BitVec.toNat_and]
  exact Nat.and_two_pow_sub_one_eq_mod s.llo.toNat 6

theorem addBytes_shorter (s : Sha256ctx) {p : List Byte} (hp : p ≠ []) :
    (sha256AddBytes s p).2.2.length < p.length := by
  have := List.length_pos_iff.2 hp
  simp only [sha256AddBytes, toadd, blockIdx_eq, List.length_drop]
  omega

def sha256Add (s : Sha256ctx) (p : List Byte) : Sha256ctx :=
  if _hp : p = [] then s
  else
    let r := sha256AddBytes s p
    sha256Add (if r.1 then sha256HashBlock r.2.1 else r.2.1) r.2.2
termination_by p.length
decreasing_by exact addBytes_shorter s _hp

/-! ## The end of the message -/

/-- The pad bytes: the one bit, and the length in bits at the end of the first `plen` bytes. -/
def padBytes (s : Sha256ctx) (plen : ℕ) : List Byte :=
  let lhi := (s.lhi <<< 3) + (s.llo >>> 29)
  let llo := (s.llo <<< 3) &&& 0xFFFFFFFF
  let p := plen - 8
  let byte := fun x : Ulong => (x &&& 0xFF).setWidth 8
  (((((((((List.replicate 72 0).set 0 0x80).set p (byte (lhi >>> 24))).set (p + 1) (byte (lhi >>> 16))).set
    (p + 2) (byte (lhi >>> 8))).set (p + 3) (byte (lhi >>> 0))).set (p + 4) (byte (llo >>> 24))).set
    (p + 5) (byte (llo >>> 16))).set (p + 6) (byte (llo >>> 8))).set (p + 7) (byte (llo >>> 0))

/-- How many pad bytes are added. -/
def padLen (s : Sha256ctx) : ℕ :=
  let plen := 64 - s.llo.toNat % 63
  if plen < 9 then plen + 64 else plen

/-- The loop over the pad bytes; it hashes after every turn. -/
def padLoop (s : Sha256ctx) (p : List Byte) : Sha256ctx :=
  if _hp : p = [] then s
  else
    let r := sha256AddBytes s p
    padLoop (sha256HashBlock r.2.1) r.2.2
termination_by p.length
decreasing_by exact addBytes_shorter s _hp

/-- The digest bytes in the order of the hash words. -/
def hashBytes (h : Regs 64) : List Byte :=
  (List.range 32).map fun i =>
    (([h.a,h.b,h.c,h.d,h.e,h.f,h.g,h.h].getD (i / 4) 0 >>> ((3 - i % 4) * 8)) &&& 0xFF).setWidth 8

def sha256Fini (s : Sha256ctx) : List Byte :=
  hashBytes (padLoop s ((padBytes s (padLen s)).take (padLen s))).h

def sha256 (M : List Byte) : List Byte := sha256Fini (sha256Add sha256Init M)

end Catlib.Crypto
