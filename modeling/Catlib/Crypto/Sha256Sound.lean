import Catlib.Crypto.Sha256
import Mathlib.Data.List.GetD
import Mathlib.Tactic.IntervalCases

/-! # What the SHA-256 of crypto.c computes

A block of the code is a block of the standard on widened words. The bytes given so far
are whole blocks that went into the hash value and a rest that stands in the buffer. The
number of pad bytes is taken from the length modulo 63, so the result is the digest of
the standard for the lengths that leave the same rest modulo 63 and modulo 64.
-/
namespace Catlib.Crypto

/-! ## Words of the code -/

theorem cRor_wide (x : Word) (n : ℕ) : cRor (wide x) n = wide (rotr n x) :=
  mask_rotate x n (32 - n)

theorem cCh_wide (x y z : Word) : cCh (wide x) (wide y) (wide z) = wide (ch x y z) := by
  rw [cCh,wide_and,wide_not_and,wide_xor,ch]

theorem cMaj_wide (x y z : Word) : cMaj (wide x) (wide y) (wide z) = wide (maj x y z) := by
  simp only [cMaj, wide_and, wide_xor, maj]

theorem cSigma0_wide (x : Word) : cSigma0 (wide x) = wide (bigSigma0 x) := by
  simp only [cSigma0, cRor_wide, wide_xor, bigSigma0]

theorem cSigma1_wide (x : Word) : cSigma1 (wide x) = wide (bigSigma1 x) := by
  simp only [cSigma1, cRor_wide, wide_xor, bigSigma1]

theorem csigma0_wide (x : Word) : csigma0 (wide x) = wide (smallSigma0 x) := by
  simp only [csigma0, cRor_wide, wide_ushiftRight, mask_wide, wide_xor, smallSigma0]

theorem csigma1_wide (x : Word) : csigma1 (wide x) = wide (smallSigma1 x) := by
  simp only [csigma1, cRor_wide, wide_ushiftRight, mask_wide, wide_xor, smallSigma1]

def Regs.wide (r : Regs 32) : Regs 64 :=
  ⟨Crypto.wide r.a,Crypto.wide r.b,Crypto.wide r.c,Crypto.wide r.d,Crypto.wide r.e,Crypto.wide r.f,
    Crypto.wide r.g,Crypto.wide r.h⟩

theorem sha256K_wide (i : ℕ) : sha256K.getD i 0 = wide (shaK.getD i 0) := by
  have h : sha256K = shaK.map wide := by decide
  rw [h,List.getD_eq_getElem?_getD,List.getElem?_map,List.getD_eq_getElem?_getD]
  cases shaK[i]? <;> rfl

/-! ## Blocks -/

theorem getD_set (w : List Ulong) (i j : ℕ) (v : Ulong) (hi : i < w.length) :
    (w.set i v).getD j 0 = if j = i then v else w.getD j 0 := by
  rw [List.getD_eq_getElem?_getD,List.getElem?_set,List.getD_eq_getElem?_getD]
  by_cases h : j = i
  · simp [h, hi]
  · simp [h, Ne.symm h]

/-- The buffer holds the words of the block `M`. -/
def Schedule (w : List Ulong) (M : ℕ → Word) (n : ℕ) : Prop :=
  w.length = 64 ∧ ∀ j < n, w.getD j 0 = wide (schedule M j)

theorem extend_schedule {w : List Ulong} {M : ℕ → Word} {n : ℕ} (hw : Schedule w M n) (hn : 16 ≤ n)
    (hn' : n < 64) : Schedule (extend w n) M (n + 1) := by
  obtain ⟨hl,hw⟩ := hw
  refine ⟨by simp [extend, hl],fun j hj => ?_⟩
  rw [extend,getD_set _ _ _ _ (by omega)]
  by_cases h : j = n
  · subst h
    rw [if_pos rfl,hw (j - 2) (by omega),hw (j - 7) (by omega),hw (j - 15) (by omega),hw (j - 16) (by omega),
      csigma1_wide,csigma0_wide,mask_eq]
    conv_rhs => rw [schedule,if_neg (by omega)]
    simp only [narrow_add, narrow_wide]
  · rw [if_neg h]
    exact hw j (by omega)

theorem extend_all {w : List Ulong} {M : ℕ → Word} (hl : w.length = 64)
    (hw : ∀ j < 16, w.getD j 0 = wide (M j)) (n : ℕ) (hn : n ≤ 48) :
    Schedule ((List.range' 16 n).foldl extend w) M (16 + n) := by
  induction n with
  | zero =>
    refine ⟨hl,fun j hj => ?_⟩
    rw [schedule,if_pos (by omega)]
    exact hw j (by omega)
  | succ n ih =>
    rw [List.range'_concat,List.foldl_append]
    simpa [Nat.add_assoc] using extend_schedule (ih (by omega)) (by omega) (by omega)

theorem hashRound_wide {w : List Ulong} {M : ℕ → Word} {i : ℕ} (hw : w.getD i 0 = wide (schedule M i))
    (r : Regs 32) : hashRound w r.wide i = (shaRound (shaK.getD i 0) (schedule M i) r).wide := by
  simp only [hashRound, Regs.wide, shaRound, cSigma0_wide, cSigma1_wide, cCh_wide, cMaj_wide, sha256K_wide, hw,
    mask_eq, narrow_add, narrow_wide]

theorem hashRounds_wide {w : List Ulong} {M : ℕ → Word} (hw : ∀ j < 64, w.getD j 0 = wide (schedule M j))
    (r : Regs 32) : (List.range 64).foldl (hashRound w) r.wide = (shaRounds (schedule M) r).wide := by
  suffices ∀ n ≤ 64, (List.range n).foldl (hashRound w) r.wide =
      ((List.range n).foldl (fun r t => shaRound (shaK.getD t 0) (schedule M t) r) r).wide from this 64 le_rfl
  intro n hn
  induction n with
  | zero => rfl
  | succ n ih =>
    rw [List.range_succ,List.foldl_append,List.foldl_append,ih (by omega)]
    exact hashRound_wide (hw n (by omega)) _

theorem hashBlock_wide {s : Sha256ctx} {H : Regs 32} {M : ℕ → Word} (hh : s.h = H.wide) (hl : s.w.length = 64)
    (hw : ∀ j < 16, s.w.getD j 0 = wide (M j)) :
    (sha256HashBlock s).h = (shaBlock H M).wide ∧ (sha256HashBlock s).w.length = 64 := by
  have he := extend_all hl hw 48 le_rfl
  constructor
  · simp only [sha256HashBlock, hh, hashRounds_wide he.2, shaBlock]
    simp only [Regs.wide, mask_eq, narrow_add, narrow_wide]
  · simp only [sha256HashBlock]
    exact he.1

/-! ## The buffer -/

theorem wide_be32 (b0 b1 b2 b3 : Byte) : wide (be32 b0 b1 b2 b3) =
    b0.setWidth 64 <<< 24 ||| b1.setWidth 64 <<< 16 ||| b2.setWidth 64 <<< 8 ||| b3.setWidth 64 := by
  ext i hi
  simp [wide, be32]
  grind

/-- The words that the bytes of the current block reached hold these bytes, then zeros. -/
def Buffer (w : List Ulong) (bs : List Byte) : Prop :=
  w.length = 64 ∧ ∀ j, 4 * j < bs.length → w.getD j 0 = wide (blockWord bs j)

theorem getD_concat (bs : List Byte) (b : Byte) (k : ℕ) :
    (bs ++ [b]).getD k 0 = if k < bs.length then bs.getD k 0 else if k = bs.length then b else 0 := by
  split
  · exact List.getD_append _ _ _ _ (by assumption)
  · rw [List.getD_append_right _ _ _ _ (by omega)]
    split
    · simp [*]
    · exact List.getD_eq_default _ _ (by simp; omega)

theorem getD_past (bs : List Byte) {k : ℕ} (hk : bs.length ≤ k) : bs.getD k 0 = 0 := List.getD_eq_default _ _ hk

theorem storeByte_length (w : List Ulong) (idx : ℕ) (b : Byte) : (storeByte w idx b).length = w.length := by
  unfold storeByte
  split <;> simp

theorem storeByte_other {w : List Ulong} {idx j : ℕ} {b : Byte} (hi : idx / 4 < w.length) (hj : j ≠ idx / 4) :
    (storeByte w idx b).getD j 0 = w.getD j 0 := by
  unfold storeByte
  split <;> rw [getD_set _ _ _ _ hi,if_neg hj]

theorem storeByte_here {w : List Ulong} {bs : List Byte} {b : Byte} (hb : Buffer w bs) (hn : bs.length < 64) :
    (storeByte w bs.length b).getD (bs.length / 4) 0 = wide (blockWord (bs ++ [b]) (bs.length / 4)) := by
  obtain ⟨hl,hw⟩ := hb
  have hw := hw (bs.length / 4)
  have hi : bs.length / 4 < w.length := by lia
  rw [blockWord,wide_be32] at hw ⊢
  simp only [getD_concat]
  obtain h | h | h | h : bs.length % 4 = 0 ∨ bs.length % 4 = 1 ∨ bs.length % 4 = 2 ∨ bs.length % 4 = 3 := by lia
  · simp only [storeByte, h]
    rw [getD_set _ _ _ _ hi,if_pos rfl]
    rw [if_neg (by lia),if_pos (by lia),if_neg (by lia),if_neg (by lia),if_neg (by lia),
      if_neg (by lia),if_neg (by lia),if_neg (by lia)]
    simp
  · simp only [storeByte, h]
    rw [getD_set _ _ _ _ hi,if_pos rfl,hw (by lia)]
    rw [getD_past bs (k := 4 * (bs.length / 4) + 1) (by lia),getD_past bs (k := 4 * (bs.length / 4) + 2) (by lia),
      getD_past bs (k := 4 * (bs.length / 4) + 3) (by lia)]
    rw [if_pos (by lia),if_neg (by lia),if_pos (by lia),if_neg (by lia),if_neg (by lia),
      if_neg (by lia),if_neg (by lia)]
    simp
  · simp only [storeByte, h]
    rw [getD_set _ _ _ _ hi,if_pos rfl,hw (by lia)]
    rw [getD_past bs (k := 4 * (bs.length / 4) + 2) (by lia),
      getD_past bs (k := 4 * (bs.length / 4) + 3) (by lia)]
    rw [if_pos (by lia),if_pos (by lia),if_neg (by lia),if_pos (by lia),if_neg (by lia),
      if_neg (by lia)]
    simp
  · simp only [storeByte, h]
    rw [getD_set _ _ _ _ hi,if_pos rfl,hw (by lia)]
    rw [getD_past bs (k := 4 * (bs.length / 4) + 3) (by lia)]
    rw [if_pos (by lia),if_pos (by lia),if_pos (by lia),if_neg (by lia),if_pos (by lia)]
    simp

theorem blockWord_append {bs cs : List Byte} {j : ℕ} (hj : 4 * j + 3 < bs.length) :
    blockWord (bs ++ cs) j = blockWord bs j := by
  simp only [blockWord]
  rw [List.getD_append _ _ _ _ (by omega),List.getD_append _ _ _ _ (by omega),List.getD_append _ _ _ _ (by omega),
    List.getD_append _ _ _ _ (by omega)]

theorem storeByte_buffer {w : List Ulong} {bs : List Byte} (b : Byte) (hb : Buffer w bs) (hn : bs.length < 64) :
    Buffer (storeByte w bs.length b) (bs ++ [b]) := by
  refine ⟨(storeByte_length w _ b).trans hb.1,fun j hj => ?_⟩
  have hl := hb.1
  rw [List.length_append,List.length_singleton] at hj
  by_cases h : j = bs.length / 4
  · subst h
    exact storeByte_here hb hn
  · rw [storeByte_other (by omega) h,hb.2 j (by omega),blockWord_append (by omega)]

theorem storeBytes_buffer {w : List Ulong} {bs p : List Byte} (hb : Buffer w bs) {n : ℕ} (hn : bs.length + n ≤ 64)
    (hp : n ≤ p.length) :
    Buffer ((List.range n).foldl (fun w i => storeByte w (bs.length + i) (p.getD i 0)) w) (bs ++ p.take n) := by
  induction n with
  | zero => simpa using hb
  | succ n ih =>
    have ih := storeByte_buffer (p.getD n 0) (ih (by omega) (by omega))
      (by rw [List.length_append,List.length_take]; omega)
    rw [List.range_succ,List.foldl_append]
    rw [List.length_append,List.length_take,Nat.min_eq_left (by omega),List.append_assoc] at ih
    rw [List.take_succ_eq_append_getElem (by omega)]
    simp only [List.foldl_cons, List.foldl_nil]
    rwa [List.getD_eq_getElem _ _ (show n < p.length by omega)] at ih ⊢

/-! ## The context after some bytes -/

/-- `L` bytes are in: the blocks that made `H`, and `bs`, which stands in the buffer. -/
structure Holds (s : Sha256ctx) (H : Regs 32) (bs : List Byte) (L : ℕ) : Prop where
  hash : s.h = H.wide
  buf : Buffer s.w bs
  low : s.llo.toNat = L % 2 ^ 32
  high : s.lhi.toNat = L / 2 ^ 32

theorem Holds.idx {s : Sha256ctx} {H : Regs 32} {bs : List Byte} {L : ℕ} (hs : Holds s H bs L) :
    blockIdx s = L % 64 := by
  rw [blockIdx_eq,hs.low]
  omega

theorem addBytes_holds {s : Sha256ctx} {H : Regs 32} {bs p : List Byte} {L : ℕ} (hs : Holds s H bs L)
    (hr : L % 64 = bs.length) (hL : L + p.length < 2 ^ 62) :
    (sha256AddBytes s p).1 = decide (bs.length + toadd s p = 64) ∧
      (sha256AddBytes s p).2.2 = p.drop (toadd s p) ∧
      Holds (sha256AddBytes s p).2.1 H (bs ++ p.take (toadd s p)) (L + toadd s p) := by
  have hi : blockIdx s = bs.length := hs.idx.trans hr
  have hn : toadd s p ≤ 64 - bs.length ∧ toadd s p ≤ p.length := by
    rw [toadd,hi]
    lia
  refine ⟨by rw [sha256AddBytes,hi],rfl,hs.hash,?_,?_,?_⟩
  · simp only [sha256AddBytes, hi]
    exact storeBytes_buffer hs.buf (by lia) hn.2
  · simp only [sha256AddBytes]
    rw [BitVec.toNat_and,show (0xFFFFFFFF : Ulong).toNat = 2 ^ 32 - 1 from rfl,Nat.and_two_pow_sub_one_eq_mod,
      BitVec.toNat_add,hs.low,BitVec.toNat_ofNat]
    lia
  · have hlow : ((s.llo + BitVec.ofNat 64 (toadd s p)) &&& 0xFFFFFFFF).toNat = (L + toadd s p) % 2 ^ 32 := by
      rw [BitVec.toNat_and,show (0xFFFFFFFF : Ulong).toNat = 2 ^ 32 - 1 from rfl,Nat.and_two_pow_sub_one_eq_mod,
        BitVec.toNat_add,hs.low,BitVec.toNat_ofNat]
      lia
    have hhigh := hs.high
    simp only [sha256AddBytes, BitVec.lt_def, hlow, hs.low]
    split
    · rw [BitVec.toNat_add,hhigh,show (1 : Ulong).toNat = 1 from rfl]
      lia
    · lia

theorem Holds.hashBlock {s : Sha256ctx} {H : Regs 32} {bs : List Byte} {L : ℕ} (hs : Holds s H bs L)
    (hb : 60 < bs.length) : Holds (sha256HashBlock s) (shaBlock H (blockWord bs)) [] L := by
  obtain ⟨hh,hw⟩ := hashBlock_wide hs.hash hs.buf.1 (M := blockWord bs) fun j hj => hs.buf.2 j (by omega)
  refine ⟨hh,⟨hw,fun j hj => by simp at hj⟩,?_,?_⟩
  · simpa only [sha256HashBlock] using hs.low
  · simpa only [sha256HashBlock] using hs.high

theorem shaBlocks_cons {H : Regs 32} {bs p : List Byte} (hb : bs.length = 64) :
    shaBlocks ((bs ++ p).length / 64) H (bs ++ p) = shaBlocks (p.length / 64) (shaBlock H (blockWord bs)) p := by
  have h : (bs ++ p).length / 64 = p.length / 64 + 1 := by
    rw [List.length_append]
    omega
  rw [h,shaBlocks,← hb,List.take_left,List.drop_left]

theorem add_holds {s : Sha256ctx} {H : Regs 32} {bs p : List Byte} {L : ℕ} (hs : Holds s H bs L)
    (hr : L % 64 = bs.length) (hL : L + p.length < 2 ^ 62) :
    Holds (sha256Add s p) (shaBlocks ((bs ++ p).length / 64) H (bs ++ p))
      ((bs ++ p).drop (64 * ((bs ++ p).length / 64))) (L + p.length) := by
  induction hk : p.length using Nat.strong_induction_on generalizing s H bs p L with
  | _ k ih =>
    subst hk
    rw [sha256Add]
    have hi : blockIdx s = bs.length := hs.idx.trans hr
    have hbs : bs.length < 64 := by lia
    split
    · next hp =>
      subst hp
      rw [List.append_nil,Nat.div_eq_of_lt hbs]
      simpa [shaBlocks] using hs
    · next hp =>
      have hpos := List.length_pos_iff.2 hp
      obtain ⟨hfull,hrest,hs'⟩ := addBytes_holds (p := p) hs hr hL
      have hn : toadd s p = min (64 - bs.length) p.length := by rw [toadd,hi]
      have hsplit : bs ++ p = (bs ++ p.take (toadd s p)) ++ p.drop (toadd s p) := by simp
      have hlen : (bs ++ p.take (toadd s p)).length = bs.length + toadd s p := by
        rw [List.length_append,List.length_take]
        lia
      by_cases hf : bs.length + toadd s p = 64
      · -- the block is full
        have hs'' := hs'.hashBlock (by lia)
        have := ih (p.drop (toadd s p)).length (by rw [List.length_drop]; lia) hs'' (p := p.drop (toadd s p))
          (by rw [List.length_nil]; lia) (by rw [List.length_drop]; lia) rfl
        rw [List.nil_append,List.length_drop] at this
        simp only [hfull, hf, decide_true, if_true, hrest]
        rw [hsplit,shaBlocks_cons (hlen.trans hf)]
        have hd : 64 * (((bs ++ p.take (toadd s p)) ++ p.drop (toadd s p)).length / 64) =
            (bs ++ p.take (toadd s p)).length + 64 * ((p.length - toadd s p) / 64) := by
          rw [List.length_append,hlen,List.length_drop]
          lia
        rw [hd,List.drop_length_add_append]
        have hadd : L + toadd s p + (p.length - toadd s p) = L + p.length := by lia
        rw [hadd] at this
        simpa only [List.length_drop] using this
      · have he : toadd s p = p.length := by lia
        rw [he,List.take_length] at hs'
        rw [he] at hf
        simp only [hfull, he, hf, decide_false, Bool.false_eq_true, if_false, hrest, List.drop_length]
        rw [sha256Add,dif_pos rfl]
        have hlt : (bs ++ p).length / 64 = 0 := by
          rw [List.length_append]
          lia
        rw [hlt]
        simpa [shaBlocks] using hs'

theorem init_holds : Holds sha256Init shaH0 [] 0 :=
  ⟨by decide,⟨by decide,fun j hj => by simp at hj⟩,by decide,by decide⟩

/-! ## Padding -/

theorem padLoop_hash {s : Sha256ctx} {H : Regs 32} {bs p : List Byte} {L : ℕ} (hs : Holds s H bs L)
    (hr : L % 64 = bs.length) (hL : L + p.length < 2 ^ 62) (hd : (bs ++ p).length % 64 = 0) :
    (padLoop s p).h = (shaBlocks ((bs ++ p).length / 64) H (bs ++ p)).wide := by
  induction hk : p.length using Nat.strong_induction_on generalizing s H bs p L with
  | _ k ih =>
    subst hk
    rw [padLoop]
    have hi : blockIdx s = bs.length := hs.idx.trans hr
    rw [List.length_append] at hd
    split
    · next hp =>
      subst hp
      have hb : bs = [] := List.length_eq_zero_iff.1 (by simp at hd; lia)
      simpa [hb, shaBlocks] using hs.hash
    · next hp =>
      have hpos := List.length_pos_iff.2 hp
      obtain ⟨-,hrest,hs'⟩ := addBytes_holds (p := p) hs hr hL
      have hn : toadd s p = 64 - bs.length := by
        rw [toadd,hi]
        lia
      have hlen : (bs ++ p.take (toadd s p)).length = 64 := by
        rw [List.length_append,List.length_take]
        lia
      have hs'' := hs'.hashBlock (by lia)
      have := ih (p.drop (toadd s p)).length (by rw [List.length_drop]; lia) hs'' (p := p.drop (toadd s p))
        (by rw [List.length_nil]; lia) (by rw [List.length_drop]; lia)
        (by rw [List.nil_append,List.length_drop]; lia) rfl
      have hsplit : bs ++ p = (bs ++ p.take (toadd s p)) ++ p.drop (toadd s p) := by simp
      dsimp only
      rw [hrest,this,hsplit,shaBlocks_cons hlen,List.nil_append]

theorem lenByte {L : ℕ} {x : Ulong} {k j : ℕ} (hx : x.toNat = 8 * L / 2 ^ k % 2 ^ 32) (hj : j ≤ 24) :
    ((x >>> j) &&& 0xFF).setWidth 8 = BitVec.ofNat 8 (8 * L / 2 ^ (k + j)) := by
  apply BitVec.eq_of_toNat_eq
  rw [BitVec.toNat_setWidth,BitVec.toNat_and,show (0xFF : Ulong).toNat = 2 ^ 8 - 1 from rfl,
    Nat.and_two_pow_sub_one_eq_mod,BitVec.toNat_ushiftRight,Nat.shiftRight_eq_div_pow,hx,BitVec.toNat_ofNat,
    Nat.pow_add,← Nat.div_div_eq_div_mul]
  generalize 8 * L / 2 ^ k = y
  have h : 2 ^ 32 = 2 ^ j * 2 ^ (32 - j) := by rw [← Nat.pow_add]; congr 1; omega
  rw [h,Nat.mod_mul_right_div_self]
  have h' : 2 ^ (32 - j) = 2 ^ 8 * 2 ^ (24 - j) := by rw [← Nat.pow_add]; congr 1; omega
  rw [h',Nat.mod_mul_right_mod]
  omega

theorem set_bytes (b : ℕ → Byte) {plen : ℕ} (h : 9 ≤ plen) (h' : plen ≤ 72) :
    (((((((((((List.replicate 72 (0 : Byte)).set 0 0x80).set (plen - 8) (b 0)).set (plen - 8 + 1) (b 1)).set
      (plen - 8 + 2) (b 2)).set (plen - 8 + 3) (b 3)).set (plen - 8 + 4) (b 4)).set (plen - 8 + 5) (b 5)).set
      (plen - 8 + 6) (b 6)).set (plen - 8 + 7) (b 7)).take plen) =
      0x80 :: List.replicate (plen - 9) 0 ++ (List.range 8).map b := by
  refine List.ext_getElem (by simp; lia) fun i hi hi' => ?_
  simp only [List.length_take, List.length_set, List.length_replicate] at hi
  simp only [List.getElem_take, List.getElem_set, List.getElem_replicate]
  by_cases h0 : i = 0
  · subst h0
    simp
    lia
  · by_cases h1 : i < plen - 8
    · rw [List.getElem_append_left (by simp; lia),List.getElem_cons,dif_neg h0,List.getElem_replicate]
      repeat rw [if_neg (by lia)]
    · obtain ⟨j,rfl⟩ : ∃ j, i = plen - 8 + j := ⟨i - (plen - 8),by lia⟩
      rw [List.getElem_append_right (by simp; lia)]
      simp only [List.length_cons, List.length_replicate, List.getElem_map, List.getElem_range]
      have hj : j < 8 := by lia
      have he : plen - 8 + j - (plen - 9 + 1) = j := by lia
      rw [he]
      interval_cases j <;> simp

theorem padBytes_take {s : Sha256ctx} {H : Regs 32} {bs : List Byte} {L plen : ℕ} (hs : Holds s H bs L)
    (hL : L < 2 ^ 61) (h : 9 ≤ plen) (h' : plen ≤ 72) :
    (padBytes s plen).take plen = 0x80 :: List.replicate (plen - 9) 0 ++ be64 (8 * L) := by
  have hlo : ((s.llo <<< 3) &&& 0xFFFFFFFF).toNat = 8 * L / 2 ^ 0 % 2 ^ 32 := by
    rw [BitVec.toNat_and,show (0xFFFFFFFF : Ulong).toNat = 2 ^ 32 - 1 from rfl,Nat.and_two_pow_sub_one_eq_mod,
      BitVec.toNat_shiftLeft,Nat.shiftLeft_eq,hs.low]
    lia
  have hhi : ((s.lhi <<< 3) + (s.llo >>> 29)).toNat = 8 * L / 2 ^ 32 % 2 ^ 32 := by
    rw [BitVec.toNat_add,BitVec.toNat_shiftLeft,BitVec.toNat_ushiftRight,Nat.shiftLeft_eq,
      Nat.shiftRight_eq_div_pow,hs.low,hs.high]
    have h : 8 * L / 2 ^ 32 = L / 2 ^ 32 * 2 ^ 3 + L % 2 ^ 32 / 2 ^ 29 := by lia
    have h' : 8 * L / 2 ^ 32 < 2 ^ 32 := by lia
    rw [h] at h' ⊢
    rw [Nat.mod_eq_of_lt (show L / 2 ^ 32 * 2 ^ 3 < 2 ^ 64 by lia),Nat.mod_eq_of_lt h',Nat.mod_eq_of_lt (by lia)]
  have hset := set_bytes (fun i => BitVec.ofNat 8 (8 * L / 2 ^ (8 * (7 - i)))) h h'
  have hb : be64 (8 * L) = (List.range 8).map fun i => BitVec.ofNat 8 (8 * L / 2 ^ (8 * (7 - i))) := by
    simp only [be64, Nat.shiftRight_eq_div_pow]
  rw [hb,← hset]
  simp only [padBytes, lenByte hhi (show 24 ≤ 24 by decide), lenByte hhi (show 16 ≤ 24 by decide),
    lenByte hhi (show 8 ≤ 24 by decide), lenByte hhi (show 0 ≤ 24 by decide), lenByte hlo (show 24 ≤ 24 by decide),
    lenByte hlo (show 16 ≤ 24 by decide), lenByte hlo (show 8 ≤ 24 by decide), lenByte hlo (show 0 ≤ 24 by decide)]

theorem pad_eq {s : Sha256ctx} {H : Regs 32} {bs : List Byte} {L : ℕ} (hs : Holds s H bs L) (hL : L < 2 ^ 61)
    (hc : L % 2 ^ 32 % 63 = L % 64) :
    (padBytes s (padLen s)).take (padLen s) = 0x80 :: List.replicate (zeros L) 0 ++ be64 (8 * L) := by
  have hlen : padLen s = zeros L + 9 := by
    rw [padLen,hs.low,hc,zeros]
    split <;> lia
  have hz : zeros L < 64 := Nat.mod_lt _ (by decide)
  rw [hlen,padBytes_take hs hL (by lia) (by lia),Nat.add_sub_cancel]

theorem wordByte (x : Word) (k : ℕ) : ((wide x >>> k) &&& 0xFF).setWidth 8 = (x >>> k).setWidth 8 := by
  apply BitVec.eq_of_toNat_eq
  rw [wide_ushiftRight,BitVec.toNat_setWidth,BitVec.toNat_and,show (0xFF : Ulong).toNat = 2 ^ 8 - 1 from rfl,
    Nat.and_two_pow_sub_one_eq_mod,wide,BitVec.toNat_setWidth,BitVec.toNat_setWidth]
  omega

theorem hashBytes_wide (H : Regs 32) : hashBytes H.wide = digestBytes H := by
  have h : ∀ i < 32, ([H.wide.a,H.wide.b,H.wide.c,H.wide.d,H.wide.e,H.wide.f,H.wide.g,H.wide.h].getD (i / 4) 0) =
      wide ([H.a,H.b,H.c,H.d,H.e,H.f,H.g,H.h].getD (i / 4) 0) := by
    intro i hi
    have : i / 4 < 8 := by omega
    interval_cases i / 4 <;> rfl
  rw [hashBytes]
  rw [List.map_congr_left fun i hi => by rw [h i (List.mem_range.1 hi),wordByte]]
  simp [List.range_succ, digestBytes, wordBytes]

theorem shaBlocks_add (a b : ℕ) (H : Regs 32) (bs : List Byte) :
    shaBlocks (a + b) H bs = shaBlocks b (shaBlocks a H bs) (bs.drop (64 * a)) := by
  induction a generalizing H bs with
  | zero => simp [shaBlocks]
  | succ a ih =>
    rw [Nat.add_right_comm,shaBlocks,ih,shaBlocks,List.drop_drop]
    congr 2
    omega

theorem shaBlocks_append {a : ℕ} {bs : List Byte} (h : 64 * a ≤ bs.length) (H : Regs 32) (p : List Byte) :
    shaBlocks a H (bs ++ p) = shaBlocks a H bs := by
  induction a generalizing H bs with
  | zero => rfl
  | succ a ih =>
    rw [shaBlocks,shaBlocks,List.take_append_of_le_length (by omega),List.drop_append_of_le_length (by omega)]
    exact ih (by rw [List.length_drop]; omega) _

/-- The digest of the standard comes out for every length with the same rest modulo 63 and 64. -/
theorem sha256_eq {M : List Byte} (hM : M.length < 2 ^ 61) (hc : M.length % 2 ^ 32 % 63 = M.length % 64) :
    sha256 M = sha256Digest M := by
  have hs := add_holds (p := M) init_holds rfl (by omega)
  rw [List.nil_append,Nat.zero_add] at hs
  have hpad := pad_eq hs hM hc
  obtain ⟨p,hp⟩ : ∃ p, p = 0x80 :: List.replicate (zeros M.length) 0 ++ be64 (8 * M.length) := ⟨_,rfl⟩
  have hshape : shaPad M = M ++ p := by rw [shaPad,hp,List.append_assoc]
  have hpl : M.length + p.length = M.length + 9 + zeros M.length := by
    rw [← shaPad_length,hshape,List.length_append]
  have hz : zeros M.length < 64 := Nat.mod_lt _ (by decide)
  have hdvd := shaPad_dvd M
  rw [shaPad_length] at hdvd
  have hdrop : (M.drop (64 * (M.length / 64))).length = M.length % 64 := by
    rw [List.length_drop]
    omega
  have hloop := padLoop_hash (p := p) hs hdrop.symm (by omega) (by rw [List.length_append,hdrop]; clear hc; omega)
  have hcount : (shaPad M).length / 64 = M.length / 64 + (M.drop (64 * (M.length / 64)) ++ p).length / 64 := by
    rw [shaPad_length,List.length_append,hdrop]
    clear hc
    omega
  rw [sha256,sha256Fini,hpad,← hp,hloop,hashBytes_wide,sha256Digest,hcount,hshape,shaBlocks_add,
    shaBlocks_append (a := M.length / 64) (show 64 * (M.length / 64) ≤ M.length by omega),List.drop_append_of_le_length (by omega)]

theorem sha256_eq_sample : sha256 [1,2,3,4,5] = sha256Digest [1,2,3,4,5] :=
  sha256_eq (M := [1,2,3,4,5]) (by decide) (by decide)

/-! ## A length that goes wrong

Sixty-three bytes leave the rest 0 modulo 63. The code adds 64 pad bytes where 65 are due, and
hashes a last block that is one byte short. -/

theorem padLoop_cons {s : Sha256ctx} {H : Regs 32} {bs p q : List Byte} {L : ℕ} (hs : Holds s H bs L)
    (hr : L % 64 = bs.length) (hL : L + p.length + q.length < 2 ^ 62) (hb : 60 < (bs ++ p).length) (hp : p ≠ [])
    (hq : (bs ++ p).length = 64 ∨ (bs ++ p).length < 64 ∧ q = []) :
    ∃ s', Holds s' (shaBlock H (blockWord (bs ++ p))) [] (L + p.length) ∧ padLoop s (p ++ q) = padLoop s' q := by
  have hpos := List.length_pos_iff.2 hp
  obtain ⟨-,hrest,hs'⟩ := addBytes_holds (p := p ++ q) hs hr (by rw [List.length_append]; omega)
  have hn : toadd s (p ++ q) = p.length := by
    rw [toadd,hs.idx.trans hr]
    rw [List.length_append] at hq ⊢
    rcases hq with hq | ⟨hq,rfl⟩
    · omega
    · rw [List.length_nil]
      omega
  rw [hn,List.take_left] at hs'
  rw [hn,List.drop_left] at hrest
  refine ⟨_,hs'.hashBlock hb,?_⟩
  rw [padLoop,dif_neg (by simp [hp])]
  dsimp only
  rw [hrest]

theorem sha256_sixtyThree : sha256 (List.replicate 63 0) ≠ sha256Digest (List.replicate 63 0) := by
  have hs := add_holds (p := List.replicate 63 0) init_holds rfl (by simp)
  have hs : Holds (sha256Add sha256Init (List.replicate 63 0)) shaH0 (List.replicate 63 0) 63 := by
    simpa [shaBlocks] using hs
  have hlen : padLen (sha256Add sha256Init (List.replicate 63 0)) = 64 := by
    rw [padLen,hs.low]
    rfl
  have hpad := padBytes_take hs (by decide) (show 9 ≤ 64 by decide) (by decide)
  have h1 : shaBlock shaH0 (blockWord (List.replicate 63 0 ++ [0x80])) =
      ⟨3066367811,4088153387,3147943441,834434781,1158656875,3853657271,944958979,770255529⟩ := by
    rw [shaBlock_eq_window]
    decide +kernel
  have h2 : shaBlock ⟨3066367811,4088153387,3147943441,834434781,1158656875,3853657271,944958979,770255529⟩
      (blockWord (List.replicate 55 0 ++ be64 504)) =
      ⟨2752072678,1631115171,3681527869,3312933417,1185587463,2352027317,2932897898,3476063906⟩ := by
    rw [shaBlock_eq_window]
    decide +kernel
  have h3 : shaBlock ⟨3066367811,4088153387,3147943441,834434781,1158656875,3853657271,944958979,770255529⟩
      (blockWord (List.replicate 56 0 ++ be64 504)) =
      ⟨3346153377,3759307125,3835585255,1406882706,1276893259,2327948296,3749236882,1895029105⟩ := by
    rw [shaBlock_eq_window]
    decide +kernel
  -- the code: the pad byte fills the first block, the other 63 make the second
  obtain ⟨s₁,hs₁,e₁⟩ := padLoop_cons (p := [0x80]) (q := List.replicate 55 0 ++ be64 504) hs rfl (by simp [be64])
    (by simp) (by simp) (by simp)
  obtain ⟨s₂,hs₂,e₂⟩ := padLoop_cons (p := List.replicate 55 0 ++ be64 504) (q := []) hs₁ rfl (by simp [be64])
    (by simp [be64]) (by simp) (by simp [be64])
  have hc : sha256 (List.replicate 63 0) =
      digestBytes ⟨2752072678,1631115171,3681527869,3312933417,1185587463,2352027317,2932897898,3476063906⟩ := by
    rw [sha256,sha256Fini,hlen,hpad]
    have hl : 0x80 :: List.replicate (64 - 9) 0 ++ be64 (8 * 63) = [0x80] ++ (List.replicate 55 0 ++ be64 504) := rfl
    rw [hl,e₁]
    rw [List.append_nil] at e₂
    rw [e₂,padLoop,dif_pos rfl,hs₂.hash,hashBytes_wide,h1,List.nil_append,h2]
  -- the standard: the same first block, and one zero more before the length
  have hd : sha256Digest (List.replicate 63 0) =
      digestBytes ⟨3346153377,3759307125,3835585255,1406882706,1276893259,2327948296,3749236882,1895029105⟩ := by
    have hl : shaPad (List.replicate 63 0) =
        (List.replicate 63 0 ++ [0x80]) ++ (List.replicate 56 0 ++ be64 504) := by decide
    rw [sha256Digest,hl,shaBlocks_cons (by decide),h1]
    have hl' : (List.replicate 56 0 ++ be64 504 : List Byte) = (List.replicate 56 0 ++ be64 504) ++ [] := by simp
    rw [hl',shaBlocks_cons (by decide),h3]
    rfl
  rw [hc,hd]
  decide

end Catlib.Crypto
