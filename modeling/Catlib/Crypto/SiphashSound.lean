import Catlib.Crypto.Siphash

/-! # What the siphash24 of crypto.c computes

A pair of the code holds the halves of a 64-bit word, and the macros are the operations on
such words. Joining bytes as ints agrees with this as long as no byte that lands on top of
an int has its high bit set; then the result is the one of the reference.
-/
namespace Catlib.Crypto

/-! ## Pairs -/

/-- The halves of a word. -/
def halves (x : BitVec 64) : Pair := ⟨x &&& 0xFFFFFFFF,x >>> 32⟩

theorem toNat_high (x : Ulong) : (x >>> 32).toNat = x.toNat / 2 ^ 32 := by
  rw [BitVec.toNat_ushiftRight,Nat.shiftRight_eq_div_pow]

theorem getLsbD_mask (x : Ulong) (i : ℕ) : (x &&& 0xFFFFFFFF).getLsbD i = (decide (i < 32) && x.getLsbD i) := by
  rw [mask_eq,wide]
  simp
  grind

theorem halves_lo (x : BitVec 64) : (halves x).lo.toNat = x.toNat % 2 ^ 32 := toNat_mask x

theorem halves_hi (x : BitVec 64) : (halves x).hi.toNat = x.toNat / 2 ^ 32 := toNat_high x

theorem add64_lo (a b : Pair) : (add64 a b).lo.toNat = (a.lo.toNat + b.lo.toNat) % 2 ^ 64 % 2 ^ 32 := by
  rw [add64,toNat_mask,BitVec.toNat_add]

theorem add64_hi (a b : Pair) : (add64 a b).hi.toNat = (a.hi.toNat + (b.hi.toNat +
    if (add64 a b).lo.toNat < a.lo.toNat then 1 else 0) % 2 ^ 64) % 2 ^ 64 % 2 ^ 32 := by
  have h : ∀ u v : Ulong, (if u < v then (1 : Ulong) else 0).toNat = if u.toNat < v.toNat then 1 else 0 := by
    intro u v
    simp only [BitVec.lt_def]
    split <;> rfl
  rw [add64,toNat_mask,BitVec.toNat_add,BitVec.toNat_add,h]

theorem Pair.eq_of_toNat {a b : Pair} (hl : a.lo.toNat = b.lo.toNat) (hh : a.hi.toNat = b.hi.toNat) : a = b :=
  Pair.ext (BitVec.eq_of_toNat_eq hl) (BitVec.eq_of_toNat_eq hh)

theorem add64_halves (x y : BitVec 64) : add64 (halves x) (halves y) = halves (x + y) := by
  have hx := x.isLt
  have hy := y.isLt
  apply Pair.eq_of_toNat
  · rw [add64_lo,halves_lo,halves_lo,halves_lo,BitVec.toNat_add]
    lia
  · rw [add64_hi,add64_lo,halves_lo,halves_lo,halves_hi,halves_hi,halves_hi,BitVec.toNat_add]
    split <;> omega

theorem xor64_halves (x y : BitVec 64) : xor64 (halves x) (halves y) = halves (x ^^^ y) := by
  apply Pair.ext
  · simp only [xor64, halves]
    ext i hi
    simp only [← BitVec.getLsbD_eq_getElem, BitVec.getLsbD_xor, getLsbD_mask]
    cases decide (i < 32) <;> simp
  · simp only [xor64, halves, BitVec.ushiftRight_xor_distrib]

theorem rotl64_halves (x : BitVec 64) {n : ℕ} (h0 : 0 < n) (hn : n < 32) :
    rotl64 (halves x) n = halves (rotl x n) := by
  apply Pair.ext
  · simp only [rotl64, halves, rotl]
    ext i hi
    simp only [← BitVec.getLsbD_eq_getElem, getLsbD_mask, BitVec.getLsbD_or, BitVec.getLsbD_shiftLeft,
      BitVec.getLsbD_ushiftRight]
    grind
  · simp only [rotl64, halves, rotl]
    ext i hi
    simp only [← BitVec.getLsbD_eq_getElem, getLsbD_mask, BitVec.getLsbD_or, BitVec.getLsbD_shiftLeft,
      BitVec.getLsbD_ushiftRight]
    grind

theorem rotl64_32_halves (x : BitVec 64) : rotl64_32 (halves x) = halves (rotl x 32) := by
  apply Pair.ext
  · simp only [rotl64_32, halves, rotl]
    ext i hi
    simp only [← BitVec.getLsbD_eq_getElem, getLsbD_mask, BitVec.getLsbD_or, BitVec.getLsbD_shiftLeft,
      BitVec.getLsbD_ushiftRight]
    grind
  · simp only [rotl64_32, halves, rotl]
    ext i hi
    simp only [← BitVec.getLsbD_eq_getElem, getLsbD_mask, BitVec.getLsbD_or, BitVec.getLsbD_shiftLeft,
      BitVec.getLsbD_ushiftRight]
    grind

/-! ## Rounds -/

/-- The context holds the state of the reference. -/
structure SipHolds (c : Siphashctx) (s : SipState) : Prop where
  v0 : c.v0 = halves s.v0
  v1 : c.v1 = halves s.v1
  v2 : c.v2 = halves s.v2
  v3 : c.v3 = halves s.v3

theorem siphashRound_holds {c : Siphashctx} {s : SipState} (hc : SipHolds c s) : SipHolds (siphashRound c) (sipRound s) := by
  obtain ⟨h0,h1,h2,h3⟩ := hc
  constructor <;>
    simp only [siphashRound, sipRound, h0, h1, h2, h3, add64_halves, xor64_halves, rotl64_32_halves,
      rotl64_halves _ (show 0 < 13 by decide) (by decide), rotl64_halves _ (show 0 < 16 by decide) (by decide),
      rotl64_halves _ (show 0 < 17 by decide) (by decide), rotl64_halves _ (show 0 < 21 by decide) (by decide)]

theorem siphashRound_nbytes (c : Siphashctx) : (siphashRound c).nbytes = c.nbytes ∧ (siphashRound c).state = c.state :=
  ⟨rfl,rfl⟩

theorem siphashAbsorb_holds {c : Siphashctx} {s : SipState} {m : BitVec 64} (hc : SipHolds c s)
    (hm : c.state = halves m) : SipHolds (siphashAbsorb c) (sipCompress s m) := by
  have h := siphashRound_holds (siphashRound_holds (c := { c with v3 := xor64 c.v3 c.state })
    (s := { s with v3 := s.v3 ^^^ m }) ⟨hc.v0,hc.v1,hc.v2,by rw [hc.v3,hm,xor64_halves]⟩)
  refine ⟨?_,h.v1,h.v2,h.v3⟩
  simp only [siphashAbsorb, sipCompress]
  rw [h.v0,(siphashRound_nbytes _).2,(siphashRound_nbytes _).2,hm,xor64_halves]

/-! ## Bytes -/

theorem le64_eq (bs : List Byte) : le64 bs = (bs.getD 0 0).setWidth 64 ||| (bs.getD 1 0).setWidth 64 <<< 8 |||
    (bs.getD 2 0).setWidth 64 <<< 16 ||| (bs.getD 3 0).setWidth 64 <<< 24 ||| (bs.getD 4 0).setWidth 64 <<< 32 |||
    (bs.getD 5 0).setWidth 64 <<< 40 ||| (bs.getD 6 0).setWidth 64 <<< 48 ||| (bs.getD 7 0).setWidth 64 <<< 56 := by
  simp [le64, List.range_succ]

theorem byte_past (b : Byte) {i : ℕ} (h : 8 ≤ i) : b.getLsbD i = false := BitVec.getLsbD_of_ge b i h

theorem le64_halves (bs : List Byte) : halves (le64 bs) = ⟨u8tou32le bs 0,u8tou32le bs 4⟩ := by
  rw [le64_eq]
  apply Pair.ext
  · simp only [halves, u8tou32le]
    ext i hi
    simp only [← BitVec.getLsbD_eq_getElem, getLsbD_mask, BitVec.getLsbD_or, BitVec.getLsbD_shiftLeft,
      BitVec.getLsbD_setWidth]
    by_cases h : i < 32
    · simp [h, hi, show i < 40 by lia, show i < 48 by lia, show i < 56 by lia]
    · simp [h, hi, byte_past _ (show 8 ≤ i by lia), byte_past _ (show 8 ≤ i - 8 by lia),
        byte_past _ (show 8 ≤ i - 16 by lia), byte_past _ (show 8 ≤ i - 24 by lia)]
  · simp only [halves, u8tou32le]
    ext i hi
    simp only [← BitVec.getLsbD_eq_getElem, BitVec.getLsbD_ushiftRight, BitVec.getLsbD_or, BitVec.getLsbD_shiftLeft,
      BitVec.getLsbD_setWidth]
    by_cases h : i < 32
    · have hlt : ∀ k, decide (32 + i < 32 + k) = decide (i < k) := fun k => by simp
      have h40 := hlt 8
      have h48 := hlt 16
      have h56 := hlt 24
      simp [hi, byte_past _ (show 8 ≤ 32 + i by lia), byte_past _ (show 8 ≤ 32 + i - 8 by lia),
        byte_past _ (show 8 ≤ 32 + i - 16 by lia), byte_past _ (show 8 ≤ 32 + i - 24 by lia),
        show 32 + i < 64 by lia, show 32 + i - 40 = i - 8 by lia, show 32 + i - 48 = i - 16 by lia,
        show 32 + i - 56 = i - 24 by lia, h40, h48, h56]
    · simp [hi, byte_past _ (show 8 ≤ i by lia), byte_past _ (show 8 ≤ i - 8 by lia),
        byte_past _ (show 8 ≤ i - 16 by lia), byte_past _ (show 8 ≤ i - 24 by lia),
        show ¬32 + i < 64 by lia]

theorem intShift_eq {b : Byte} {k : ℕ} (hk : k ≤ 24) (hb : k = 24 → b.msb = false) :
    (intShift b k).signExtend 64 = b.setWidth 64 <<< k := by
  have hm : (intShift b k).msb = false := by
    rw [BitVec.msb_eq_getLsbD_last,intShift,BitVec.getLsbD_shiftLeft,BitVec.getLsbD_setWidth]
    by_cases h : k = 24
    · subst h
      have := hb rfl
      rw [BitVec.msb_eq_getLsbD_last] at this
      simpa using this
    · simp [byte_past b (show 8 ≤ 31 - k by omega)]
  rw [BitVec.signExtend_eq_setWidth_of_msb_false hm,intShift]
  ext i hi
  simp only [← BitVec.getLsbD_eq_getElem, BitVec.getLsbD_shiftLeft, BitVec.getLsbD_setWidth]
  by_cases h : i < 32
  · simp [h, hi, show i - k < 64 by omega, show i - k < 32 by omega]
  · simp [h, hi, byte_past b (show 8 ≤ i - k by omega)]

theorem joinInts_eq {p : List Byte} {o : ℕ} (h : (p.getD (o + 3) 0).msb = false) : joinInts p o = u8tou32le p o := by
  have hor : ∀ {x y : BitVec 32}, (x ||| y).signExtend 64 = x.signExtend 64 ||| y.signExtend 64 := by
    intro x y
    ext i hi
    simp [← BitVec.getLsbD_eq_getElem, BitVec.getLsbD_signExtend, hi]
  rw [joinInts,hor,hor,hor,intShift_eq (by decide) (by omega),intShift_eq (by decide) (by omega),
    intShift_eq (by decide) (by omega),intShift_eq (by decide) (fun _ => h),u8tou32le]
  simp

/-- No byte that is joined on top of an int has its high bit set. -/
def TopsClear (p : List Byte) : Prop := ∀ i, i % 4 = 3 → (p.getD i 0).msb = false

theorem TopsClear.drop {p : List Byte} (hp : TopsClear p) : TopsClear (p.drop 8) := by
  intro i hi
  have := hp (8 + i) (by omega)
  simpa using this

theorem orByte_zero (st : Pair) (off : ℕ) : orByte st off 0 = st := by
  have : ∀ k, (intShift 0 k).signExtend 64 = 0 := fun k => by simp [intShift]
  rw [orByte,this,this]
  simp

theorem orBytes_eq {p : List Byte} (hp : TopsClear p) (hl : p.length ≤ 8) :
    (List.range p.length).foldl (fun st i => orByte st (0 + i) (p.getD i 0)) ⟨0,0⟩ = halves (le64 p) := by
  have hall : (List.range 8).foldl (fun st i => orByte st (0 + i) (p.getD i 0)) ⟨0,0⟩ = halves (le64 p) := by
    rw [le64_halves]
    simp only [List.range_succ, List.range_zero, List.nil_append, List.foldl_append, List.foldl_cons, List.foldl_nil, orByte]
    have h : ∀ i k, k ≤ 24 → (k = 24 → i % 4 = 3) →
        (intShift (p.getD i 0) k).signExtend 64 = (p.getD i 0).setWidth 64 <<< k :=
      fun i k hk hi => intShift_eq hk fun e => hp i (hi e)
    norm_num only [if_true, if_false]
    rw [h 0 0 (by decide) (by omega),h 1 8 (by decide) (by omega),h 2 16 (by decide) (by omega),
      h 3 24 (by decide) (by omega),h 4 0 (by decide) (by omega),h 5 8 (by decide) (by omega),
      h 6 16 (by decide) (by omega),h 7 24 (by decide) (by omega)]
    simp [u8tou32le]
  have hrest : ∀ n st, (List.range n).foldl (fun st i => orByte st (0 + (p.length + i)) (p.getD (p.length + i) 0)) st = st := by
    intro n
    induction n with
    | zero => exact fun _ => rfl
    | succ n ih =>
      intro st
      rw [List.range_succ,List.foldl_append,ih]
      have : p.getD (p.length + n) 0 = 0 := by simp
      rw [List.foldl_cons,List.foldl_nil,this,orByte_zero]
  obtain ⟨n,hn⟩ := Nat.exists_eq_add_of_le hl
  have hsplit : List.range 8 = List.range p.length ++ (List.range n).map (p.length + ·) := by
    rw [hn,List.range_add]
  rw [← hall,hsplit,List.foldl_append,List.foldl_map,hrest]

/-! ## Whole messages -/

theorem ofNat_rest (L : ℕ) : (BitVec.ofNat 32 L % 8).toNat = L % 8 := by
  rw [BitVec.toNat_umod,BitVec.toNat_ofNat]
  change L % 2 ^ 32 % 8 = _
  omega

/-- What `siphash24_add` leaves: the whole words are absorbed, the rest is gathered. -/
structure SipAdded (c : Siphashctx) (s : SipState) (L : ℕ) (p : List Byte) : Prop where
  holds : SipHolds c (sipWords (p.length / 8) s p)
  nbytes : c.nbytes = BitVec.ofNat 32 (L + p.length)
  state : p.length % 8 ≠ 0 → c.state = halves (le64 (p.drop (8 * (p.length / 8))))

theorem sipWords_cons {p : List Byte} (h : 8 ≤ p.length) (s : SipState) : sipWords (p.length / 8) s p =
    sipWords ((p.drop 8).length / 8) (sipCompress s (le64 p)) (p.drop 8) := by
  rw [List.length_drop,show p.length / 8 = (p.length - 8) / 8 + 1 by omega,sipWords]

theorem siphash24Add_holds {c : Siphashctx} {s : SipState} {L : ℕ} {p : List Byte} (hc : SipHolds c s)
    (hn : c.nbytes = BitVec.ofNat 32 L) (hL : L % 8 = 0) (hp : TopsClear p) : SipAdded (siphash24Add c p) s L p := by
  induction hlen : p.length using Nat.strong_induction_on generalizing c s L p with
  | _ n ih =>
    subst hlen
    have hoff : (c.nbytes % 8).toNat = 0 := by rw [hn,ofNat_rest,hL]
    rw [siphash24Add]
    by_cases hnil : p = []
    · subst hnil
      rw [dif_pos rfl]
      exact ⟨hc,hn,fun h => absurd rfl h⟩
    · rw [dif_neg hnil]
      have hpos := List.length_pos_iff.2 hnil
      dsimp only
      by_cases h8 : 8 ≤ p.length
      · -- a whole word
        have hfast : siphashAddBytes c p =
            (true,{ c with state := ⟨joinInts p 0,joinInts p 4⟩, nbytes := c.nbytes + 8 },p.drop 8) := by
          rw [siphashAddBytes]
          dsimp only
          rw [if_pos ⟨hoff,h8⟩]
        rw [hfast]
        dsimp only
        rw [if_pos rfl]
        have hst : (⟨joinInts p 0,joinInts p 4⟩ : Pair) = halves (le64 p) := by
          rw [le64_halves,joinInts_eq (hp 3 rfl),joinInts_eq (hp 7 rfl)]
        have hw := siphashAbsorb_holds (c := { c with state := ⟨joinInts p 0,joinInts p 4⟩, nbytes := c.nbytes + 8 })
          (s := s) ⟨hc.v0,hc.v1,hc.v2,hc.v3⟩ hst
        have h := ih (p.drop 8).length (by rw [List.length_drop]; lia) (L := L + 8) hw
          (show c.nbytes + 8 = _ by rw [hn,BitVec.ofNat_add]; rfl) (by lia) hp.drop rfl
        refine ⟨?_,?_,fun hr => ?_⟩
        · rw [sipWords_cons h8]
          exact h.holds
        · rw [h.nbytes,List.length_drop]
          congr 1
          lia
        · rw [h.state (by rw [List.length_drop]; lia),List.drop_drop,List.length_drop]
          congr 3
          lia
      · -- the rest of the message
        have hslow : siphashAddBytes c p = (decide ((c.nbytes + BitVec.ofNat 32 p.length) % 8 = 0),
            { c with state := halves (le64 p), nbytes := c.nbytes + BitVec.ofNat 32 p.length },[]) := by
          rw [siphashAddBytes]
          dsimp only
          rw [if_neg (by lia)]
          rw [hoff,if_pos rfl,show min (8 - 0) p.length = p.length by lia,orBytes_eq hp (by lia),List.drop_length]
        have hr : ¬(c.nbytes + BitVec.ofNat 32 p.length) % 8 = 0 := by
          intro h
          have := congrArg BitVec.toNat h
          rw [hn,← BitVec.ofNat_add,ofNat_rest] at this
          change _ = 0 at this
          lia
        rw [hslow]
        dsimp only
        rw [if_neg (by simpa using hr),siphash24Add,dif_pos rfl]
        have h0 : p.length / 8 = 0 := by lia
        refine ⟨?_,?_,fun _ => ?_⟩
        · rw [h0]
          exact ⟨hc.v0,hc.v1,hc.v2,hc.v3⟩
        · change c.nbytes + _ = _
          rw [hn,BitVec.ofNat_add]
        · rw [h0]
          rfl

theorem siphashInit_holds (key : List Byte) : SipHolds (siphashInit key) (sipInit key) := by
  have hdrop : halves (le64 (key.drop 8)) = ⟨u8tou32le key 8,u8tou32le key 12⟩ := by
    rw [le64_halves]
    simp [u8tou32le]
  have h : ∀ (x : BitVec 64) (k : Pair) (c : BitVec 64), halves x = k →
      (⟨(halves c).lo ^^^ k.lo,(halves c).hi ^^^ k.hi⟩ : Pair) = halves (x ^^^ c) := by
    intro x k c hx
    rw [← xor64_halves,hx,xor64,BitVec.xor_comm (halves c).lo,BitVec.xor_comm (halves c).hi]
  exact ⟨h _ _ 0x736f6d6570736575 (le64_halves key),h _ _ 0x646f72616e646f6d hdrop,
    h _ _ 0x6c7967656e657261 (le64_halves key),h _ _ 0x7465646279746573 hdrop⟩

theorem halves_or (x y : BitVec 64) :
    halves (x ||| y) = ⟨(halves x).lo ||| (halves y).lo,(halves x).hi ||| (halves y).hi⟩ := by
  apply Pair.ext
  · simp only [halves]
    ext i hi
    simp only [← BitVec.getLsbD_eq_getElem, BitVec.getLsbD_or, getLsbD_mask]
    cases decide (i < 32) <;> simp
  · simp only [halves, BitVec.ushiftRight_or_distrib]

theorem halves_length (n : ℕ) : halves (BitVec.ofNat 64 (n % 256) <<< 56) =
    ⟨0,((BitVec.ofNat 32 n % 256) <<< 24).setWidth 64⟩ := by
  have hb : n % 256 * 2 ^ 56 < 2 ^ 64 := by lia
  have hw : (BitVec.ofNat 64 (n % 256) <<< 56).toNat = n % 256 * 2 ^ 56 := by
    rw [BitVec.toNat_shiftLeft,Nat.shiftLeft_eq,BitVec.toNat_ofNat]
    lia
  apply Pair.eq_of_toNat
  · rw [halves_lo,hw]
    change _ = 0
    lia
  · rw [halves_hi,hw,BitVec.toNat_setWidth,BitVec.toNat_shiftLeft,Nat.shiftLeft_eq,BitVec.toNat_umod,BitVec.toNat_ofNat]
    change _ = n % 2 ^ 32 % 256 * 2 ^ 24 % 2 ^ 32 % 2 ^ 64
    lia

theorem outBytes_halves (x : BitVec 64) (st : Pair) (hst : st = halves x) :
    [st.lo &&& 0xff,(st.lo >>> 8) &&& 0xff,(st.lo >>> 16) &&& 0xff,(st.lo >>> 24) &&& 0xff,
      st.hi &&& 0xff,(st.hi >>> 8) &&& 0xff,(st.hi >>> 16) &&& 0xff,(st.hi >>> 24) &&& 0xff].map
        (fun b : BitVec 64 => b.setWidth 8) = leBytes x := by
  have hmask : ∀ y : BitVec 64, (y &&& 0xff).setWidth 8 = y.setWidth 8 := by
    intro y
    apply BitVec.eq_of_toNat_eq
    rw [BitVec.toNat_setWidth,BitVec.toNat_setWidth,BitVec.toNat_and,show (0xff : BitVec 64).toNat = 2 ^ 8 - 1 from rfl,
      Nat.and_two_pow_sub_one_eq_mod,Nat.mod_mod]
  have hlo : ∀ k, k ≤ 24 → (st.lo >>> k).setWidth 8 = (x >>> k).setWidth 8 := by
    intro k hk
    rw [hst,halves]
    ext i hi
    simp only [← BitVec.getLsbD_eq_getElem, BitVec.getLsbD_setWidth, BitVec.getLsbD_ushiftRight, getLsbD_mask]
    simp [show k + i < 32 by omega]
  have hhi : ∀ k, (st.hi >>> k).setWidth 8 = (x >>> (32 + k)).setWidth 8 := by
    intro k
    rw [hst,halves,← BitVec.shiftRight_add]
  have hlo0 := hlo 0 (by decide)
  have hhi0 := hhi 0
  rw [BitVec.ushiftRight_zero] at hlo0 hhi0
  simp only [List.map_cons, List.map_nil, hmask, hlo0, hhi0, hlo 8 (by decide), hlo 16 (by decide), hlo 24 (by decide), hhi]
  rfl

theorem siphash24Fini_eq {c : Siphashctx} {s : SipState} {M : List Byte} (h : SipAdded c s 0 M) :
    siphash24Fini c = leBytes (sipFinish (sipCompress (sipWords (M.length / 8) s M) (sipLast M))) := by
  have hn := h.nbytes
  rw [Nat.zero_add] at hn
  have hz : c.nbytes % 8 = 0 ↔ M.length % 8 = 0 := by
    rw [← BitVec.toNat_inj,hn,ofNat_rest]
    rfl
  -- the last word
  have hst : (if c.nbytes % 8 = 0 then { c with state := ⟨0,0⟩ } else c).state =
      halves (le64 (M.drop (8 * (M.length / 8)))) := by
    by_cases h8 : M.length % 8 = 0
    · rw [if_pos (hz.2 h8),show 8 * (M.length / 8) = M.length by omega,List.drop_length]
      change (⟨0,0⟩ : Pair) = _
      decide
    · rw [if_neg (fun e => h8 (hz.1 e)),h.state h8]
  generalize hc₀ : (if c.nbytes % 8 = 0 then { c with state := (⟨0,0⟩ : Pair) } else c) = c₀ at hst
  have hc₁ : SipHolds c₀ (sipWords (M.length / 8) s M) ∧ c₀.nbytes = c.nbytes := by
    rw [← hc₀]
    split
    · exact ⟨⟨h.holds.v0,h.holds.v1,h.holds.v2,h.holds.v3⟩,rfl⟩
    · exact ⟨h.holds,rfl⟩
  have hlast : ({ c₀.state with hi := c₀.state.hi ||| ((c₀.nbytes % 256) <<< 24).setWidth 64 } : Pair) =
      halves (sipLast M) := by
    rw [sipLast,halves_or,hst,halves_length,hc₁.2,hn]
    simp
  have ha := siphashAbsorb_holds (c := { c₀ with state :=
    { c₀.state with hi := c₀.state.hi ||| ((c₀.nbytes % 256) <<< 24).setWidth 64 } })
    ⟨hc₁.1.v0,hc₁.1.v1,hc₁.1.v2,hc₁.1.v3⟩ hlast
  rw [siphash24Fini]
  dsimp only
  rw [hc₀]
  generalize siphashAbsorb { c₀ with state :=
    { c₀.state with hi := c₀.state.hi ||| ((c₀.nbytes % 256) <<< 24).setWidth 64 } } = c₂ at ha ⊢
  generalize sipCompress (sipWords (M.length / 8) s M) (sipLast M) = s₂ at ha ⊢
  have hv : (⟨c₂.v2.lo ^^^ 0xff,c₂.v2.hi⟩ : Pair) = halves (s₂.v2 ^^^ 0xff) := by
    rw [← xor64_halves,← ha.v2]
    apply Pair.ext
    · rfl
    · exact BitVec.xor_zero.symm
  have hr := siphashRound_holds (siphashRound_holds (siphashRound_holds (siphashRound_holds
    (c := { c₂ with v2 := ⟨c₂.v2.lo ^^^ 0xff,c₂.v2.hi⟩ }) (s := { s₂ with v2 := s₂.v2 ^^^ 0xff })
    ⟨ha.v0,ha.v1,hv,ha.v3⟩)))
  rw [sipFinish]
  generalize siphashRound (siphashRound (siphashRound (siphashRound _))) = c₃ at hr ⊢
  generalize sipRound (sipRound (sipRound (sipRound _))) = s₃ at hr ⊢
  refine outBytes_halves (s₃.v0 ^^^ s₃.v1 ^^^ s₃.v2 ^^^ s₃.v3) ⟨c₃.v0.lo ^^^ c₃.v1.lo ^^^ c₃.v2.lo ^^^ c₃.v3.lo,
    c₃.v0.hi ^^^ c₃.v1.hi ^^^ c₃.v2.hi ^^^ c₃.v3.hi⟩ ?_
  rw [← xor64_halves,← xor64_halves,← xor64_halves,← hr.v0,← hr.v1,← hr.v2,← hr.v3]
  rfl

/-- **The siphash24 of crypto.c is SipHash-2-4 on messages whose bytes at offsets 3 modulo 4 are
below 128.** -/
theorem siphash24_eq {M : List Byte} (hM : TopsClear M) (key : List Byte) : siphash24 key M = sipHash24 key M :=
  siphash24Fini_eq (siphash24Add_holds (siphashInit_holds key) rfl rfl hM)

theorem siphash24_eq_sample : siphash24 (List.replicate 16 0xa5) [0xff,0xfe,0xfd,0x7c,0xfb] =
    sipHash24 (List.replicate 16 0xa5) [0xff,0xfe,0xfd,0x7c,0xfb] := by
  refine siphash24_eq (fun i hi => ?_) _
  by_cases h : i < 5
  · interval_cases i
    all_goals simp at hi
    decide
  · rw [List.getD_eq_default _ _ (by simpa using h)]
    rfl

/-- The sign of the byte 128 at offset 3 reaches the upper half of the word. -/
theorem siphash24_tops : siphash24 (List.replicate 16 0) [0,0,0,0x80] ≠ sipHash24 (List.replicate 16 0) [0,0,0,0x80] := by
  decide +kernel

end Catlib.Crypto
