import Catlib.Bits.Rank
import Catlib.Bits.Bitops

/-! # Compressing a word by a mask

The parity prefix of the holes below a bit is the next binary digit of their number, so after `i`
turns every marked bit has moved by its number of holes modulo `2 ^ i`. The compression to the
left is the one to the right of the reversed words.
-/
namespace Catlib.Bits
open BitVec

variable {w n i : ℕ} {x m mp b src : BitVec w}

/-- The number of unmarked bits below a position. -/
abbrev holes (m : BitVec w) (k : ℕ) : ℕ := rank m.getLsbD false k

section Parity

theorem parity_window (mk : BitVec w) (i : ℕ) : ∀ j < w, (parity BitVec.shiftLeft mk i).getLsbD j =
    decide ((rank mk.getLsbD true (j + 1) - rank mk.getLsbD true (j + 1 - 2 ^ i)) % 2 = 1) := by
  induction i with
  | zero =>
    intro j _
    have hone := @rank_succ mk.getLsbD true j
    cases hb : mk.getLsbD j <;> simp [parity, hb, hone]
  | succ i ih =>
    intro j hj
    have hlow := rank_mono (s := mk.getLsbD) (b := true) (Nat.sub_le (j + 1) (2 ^ i))
    have htwo := Nat.pow_succ 2 i
    simp only [parity, getLsbD_xor, BitVec.shiftLeft_eq, getLsbD_shiftLeft, ih j hj, hj, decide_true,
      Bool.true_and]
    by_cases hi : j < 2 ^ i
    · have h1 : j + 1 - 2 ^ i = 0 := by lia
      have h2 : j + 1 - 2 ^ (i + 1) = 0 := by lia
      simp [hi, h1, h2]
    · rw [ih (j - 2 ^ i) (by lia)]
      have h1 : j - 2 ^ i + 1 = j + 1 - 2 ^ i := by lia
      have h2 : j + 1 - 2 ^ i - 2 ^ i = j + 1 - 2 ^ (i + 1) := by lia
      have hlower := rank_mono (s := mk.getLsbD) (b := true) (a := j + 1 - 2 ^ (i + 1)) (k := j + 1 - 2 ^ i)
        (by lia)
      rw [h1,h2]
      simp only [hi, decide_false, Bool.not_false, Bool.true_and]
      -- the two halves of the stretch
      obtain ⟨c,hc⟩ := Nat.exists_eq_add_of_le hlow
      obtain ⟨d,hd⟩ := Nat.exists_eq_add_of_le hlower
      have hwhole : rank mk.getLsbD true (j + 1) - rank mk.getLsbD true (j + 1 - 2 ^ (i + 1)) = c + d := by lia
      rw [hwhole,show rank mk.getLsbD true (j + 1) - rank mk.getLsbD true (j + 1 - 2 ^ i) = c by lia,
        show rank mk.getLsbD true (j + 1 - 2 ^ i) - rank mk.getLsbD true (j + 1 - 2 ^ (i + 1)) = d by lia]
      rcases Nat.mod_two_eq_zero_or_one c with h | h <;> rcases Nat.mod_two_eq_zero_or_one d with h' | h' <;>
        simp [Nat.add_mod, h, h']

theorem parity_all (hw : w ≤ 2 ^ n) (mk : BitVec w) {j : ℕ} (hj : j < w) :
    (parity BitVec.shiftLeft mk n).getLsbD j = (rank mk.getLsbD true (j + 1)).testBit 0 := by
  rw [parity_window mk n j hj,show j + 1 - 2 ^ n = 0 by omega,rank_zero,Nat.sub_zero,Nat.testBit_zero]

end Parity

/-- The unmarked bits whose number from the right is a multiple of `2 ^ i`, each kept one place
further to the left. -/
def EveryHole (m : BitVec w) (i : ℕ) (mk : BitVec w) : Prop :=
  ∀ j < w, mk.getLsbD j = decide (0 < j ∧ m.getLsbD (j - 1) = false ∧ 2 ^ i ∣ holes m j)

/-- The bits of `b` are the marked ones of `src`, each moved by its holes modulo `2 ^ i`. -/
def Spread (m src : BitVec w) (i : ℕ) (b : BitVec w) : Prop :=
  ∀ j, b.getLsbD j = true ↔
    ∃ k, m.getLsbD k = true ∧ src.getLsbD k = true ∧ k - holes m k % 2 ^ i = j

theorem EveryHole.start (m : BitVec w) : EveryHole m 0 (BitVec.shiftLeft (~~~m) 1) := by
  intro j hj
  rw [BitVec.shiftLeft_eq,getLsbD_shiftLeft,getLsbD_not]
  cases j with
  | zero => simp
  | succ j =>
    have hj' : j < w := by omega
    simp [hj, hj']

theorem EveryHole.count {mk : BitVec w} (h : EveryHole m i mk) :
    ∀ j < w, rank mk.getLsbD true (j + 1) = holes m j / 2 ^ i := by
  intro j
  induction j with
  | zero =>
    intro hw
    rw [rank_succ,h 0 hw]
    simp
  | succ j ih =>
    intro hj
    have hnext := h (j + 1) hj
    have hcount := @rank_succ m.getLsbD false j
    rw [rank_succ,ih (by omega),hnext]
    cases hm : m.getLsbD j with
    | false =>
      rw [hm] at hcount
      simp only [if_true] at hcount
      simp only [holes, hcount, Nat.succ_div, Nat.add_sub_cancel, hm, Nat.succ_pos, true_and,
        decide_eq_true_eq]
    | true =>
      rw [hm] at hcount
      simp only [Bool.true_eq_false, if_false, Nat.add_zero] at hcount
      simp [holes, hcount, hm]

theorem EveryHole.parity (hw : w ≤ 2 ^ n) {mk : BitVec w} (h : EveryHole m i mk) {j : ℕ} (hj : j < w) :
    (Bits.parity BitVec.shiftLeft mk n).getLsbD j = (holes m j).testBit i := by
  rw [parity_all hw mk hj,h.count j hj,Nat.testBit_zero,Nat.testBit_eq_decide_div_mod_eq]

theorem EveryHole.next {mk : BitVec w} (h : EveryHole m i mk)
    (hmp : ∀ j < w, mp.getLsbD j = (holes m j).testBit i) : EveryHole m (i + 1) (mk &&& ~~~mp) := by
  intro j hj
  rw [getLsbD_and,getLsbD_not,h j hj,hmp j hj]
  have hmod := mod_two_pow_succ (holes m j) i
  have hpos := Nat.two_pow_pos i
  cases hbit : (holes m j).testBit i with
  | false =>
    rw [hbit] at hmod
    simp [hj, Nat.dvd_iff_mod_eq_zero, hmod]
  | true =>
    rw [hbit] at hmod
    simp [hj, Nat.dvd_iff_mod_eq_zero, hmod]

theorem Spread.start (m src : BitVec w) : Spread m src 0 (src &&& m) := by
  intro j
  rw [getLsbD_and,Bool.and_eq_true]
  constructor
  · rintro ⟨hs,hm⟩
    exact ⟨j,hm,hs,by simp [Nat.mod_one]⟩
  · rintro ⟨k,hm,hs,rfl⟩
    simpa [Nat.mod_one] using ⟨hs,hm⟩

theorem holes_moved (m : BitVec w) (i k : ℕ) :
    holes m (k - holes m k % 2 ^ i) / 2 ^ i = holes m k / 2 ^ i := by
  have hle : holes m k % 2 ^ i ≤ k := (Nat.mod_le _ _).trans rank_le
  have hlow : holes m k ≤ holes m (k - holes m k % 2 ^ i) + holes m k % 2 ^ i := rank_sub _ hle
  have hmono : holes m (k - holes m k % 2 ^ i) ≤ holes m k := rank_mono (Nat.sub_le _ _)
  apply le_antisymm (Nat.div_le_div_right hmono)
  have hdiv := Nat.div_add_mod (holes m k) (2 ^ i)
  rw [Nat.le_div_iff_mul_le (Nat.two_pow_pos i),Nat.mul_comm]
  omega

theorem testBit_moved (m : BitVec w) (i k : ℕ) :
    (holes m (k - holes m k % 2 ^ i)).testBit i = (holes m k).testBit i := by
  rw [Nat.testBit_eq_decide_div_mod_eq,Nat.testBit_eq_decide_div_mod_eq,holes_moved]

theorem Spread.next (h : Spread m src i b) (hmp : ∀ j < w, mp.getLsbD j = (holes m j).testBit i) :
    Spread m src (i + 1) ((b ^^^ (b &&& mp)) ||| BitVec.ushiftRight (b &&& mp) (2 ^ i)) := by
  have hbit : ∀ k, m.getLsbD k = true →
      mp.getLsbD (k - holes m k % 2 ^ i) = (holes m k).testBit i := by
    intro k hk
    have hkw := BitVec.lt_of_getLsbD hk
    rw [hmp _ (by omega),testBit_moved]
  have hstep : ∀ k, k - holes m k % 2 ^ (i + 1) =
      k - holes m k % 2 ^ i - 2 ^ i * ((holes m k).testBit i).toNat := by
    intro k
    rw [mod_two_pow_succ,Nat.sub_add_eq]
  have hroom : ∀ k, holes m k % 2 ^ i + 2 ^ i * ((holes m k).testBit i).toNat ≤ k := by
    intro k
    rw [← mod_two_pow_succ]
    exact (Nat.mod_le _ _).trans rank_le
  intro j
  have hread : ((b ^^^ (b &&& mp)) ||| BitVec.ushiftRight (b &&& mp) (2 ^ i)).getLsbD j = true ↔
      (b.getLsbD j = true ∧ mp.getLsbD j = false) ∨
        (b.getLsbD (2 ^ i + j) = true ∧ mp.getLsbD (2 ^ i + j) = true) := by
    rw [BitVec.ushiftRight_eq,getLsbD_or,getLsbD_xor,getLsbD_ushiftRight,getLsbD_and,getLsbD_and]
    cases b.getLsbD j <;> cases mp.getLsbD j <;> simp
  rw [hread]
  constructor
  · rintro (⟨hb,hp⟩ | ⟨hb,hp⟩)
    · obtain ⟨k,hm,hs,rfl⟩ := (h j).1 hb
      rw [hbit k hm] at hp
      exact ⟨k,hm,hs,by rw [hstep,hp]; simp⟩
    · obtain ⟨k,hm,hs,hk⟩ := (h _).1 hb
      rw [← hk,hbit k hm] at hp
      exact ⟨k,hm,hs,by rw [hstep,hp,hk]; simp⟩
  · rintro ⟨k,hm,hs,hk⟩
    have hkroom := hroom k
    rw [hstep] at hk
    cases hp : (holes m k).testBit i with
    | false =>
      rw [hp] at hk
      have hj : k - holes m k % 2 ^ i = j := by simpa using hk
      exact Or.inl ⟨(h j).2 ⟨k,hm,hs,hj⟩,by rw [← hj,hbit k hm,hp]⟩
    | true =>
      rw [hp] at hk hkroom
      simp only [Bool.toNat_true, Nat.mul_one] at hk hkroom
      have hj : k - holes m k % 2 ^ i = 2 ^ i + j := by omega
      exact Or.inr ⟨(h _).2 ⟨k,hm,hs,hj⟩,by rw [← hj,hbit k hm,hp]⟩

theorem Spread.sub (hx : Spread m src i x) (hm : Spread m m i b) {j : ℕ} (h : x.getLsbD j = true) :
    b.getLsbD j = true := by
  obtain ⟨k,hmk,_,hk⟩ := (hx j).1 h
  exact (hm j).2 ⟨k,hmk,hmk,hk⟩

theorem compressLoop_spread (hw : w ≤ 2 ^ n) (x m : BitVec w) (i : ℕ) :
    let s := compressLoop BitVec.ushiftRight BitVec.shiftLeft n i ⟨x &&& m,m,BitVec.shiftLeft (~~~m) 1⟩
    Spread m x i s.x ∧ Spread m m i s.m ∧ EveryHole m i s.mk := by
  induction i with
  | zero =>
    have hm := Spread.start m m
    rw [BitVec.and_self] at hm
    exact ⟨Spread.start m x,hm,EveryHole.start m⟩
  | succ i ih =>
    obtain ⟨hx,hm,hk⟩ := ih
    simp only [compressLoop]
    generalize compressLoop BitVec.ushiftRight BitVec.shiftLeft n i ⟨x &&& m,m,BitVec.shiftLeft (~~~m) 1⟩ = s at hx hm hk
    have hmp : ∀ j < w, (parity BitVec.shiftLeft s.mk n).getLsbD j = (holes m j).testBit i := fun j hj => hk.parity hw hj
    have ht : s.x &&& (s.m &&& parity BitVec.shiftLeft s.mk n) = s.x &&& parity BitVec.shiftLeft s.mk n := by
      apply BitVec.eq_of_getLsbD_eq
      intro j _
      rw [getLsbD_and,getLsbD_and,getLsbD_and]
      cases hxj : s.x.getLsbD j with
      | false => simp
      | true => simp [hx.sub hm hxj]
    simp only [compressStep]
    rw [ht]
    exact ⟨hx.next hmp,hm.next hmp,hk.next hmp⟩

theorem compressR_bit (hw : w ≤ 2 ^ n) (x m : BitVec w) (j : ℕ) : (compressR n x m).getLsbD j = true ↔
    ∃ k, m.getLsbD k = true ∧ x.getLsbD k = true ∧ rank m.getLsbD true k = j := by
  have hend : ∀ k, m.getLsbD k = true → k - holes m k % 2 ^ n = rank m.getLsbD true k := by
    intro k hk
    have hkw := BitVec.lt_of_getLsbD hk
    have hsum := rank_add_rank m.getLsbD k
    rw [Nat.mod_eq_of_lt (by change rank _ _ _ < _; omega)]
    change k - rank _ _ _ = _
    omega
  refine ((compressLoop_spread hw x m n).1 j).trans ⟨?_,?_⟩
  · rintro ⟨k,hm,hx,hk⟩
    exact ⟨k,hm,hx,(hend k hm).symm.trans hk⟩
  · rintro ⟨k,hm,hx,hk⟩
    exact ⟨k,hm,hx,(hend k hm).trans hk⟩

section Reverse

theorem getLsbD_reverse_of_lt {j : ℕ} (hj : j < w) (v : BitVec w) : v.reverse.getLsbD j = v.getLsbD (w - 1 - j) := by
  rw [getLsbD_reverse,getMsbD_eq_getLsbD]
  simp [hj]

theorem reverse_and' (u v : BitVec w) : (u &&& v).reverse = u.reverse &&& v.reverse := by
  apply BitVec.eq_of_getLsbD_eq
  intro j hj
  simp [getLsbD_reverse_of_lt hj]

theorem reverse_or' (u v : BitVec w) : (u ||| v).reverse = u.reverse ||| v.reverse := by
  apply BitVec.eq_of_getLsbD_eq
  intro j hj
  simp [getLsbD_reverse_of_lt hj]

theorem reverse_xor' (u v : BitVec w) : (u ^^^ v).reverse = u.reverse ^^^ v.reverse := by
  apply BitVec.eq_of_getLsbD_eq
  intro j hj
  simp [getLsbD_reverse_of_lt hj]

theorem reverse_not' (v : BitVec w) : (~~~v).reverse = ~~~v.reverse := by
  apply BitVec.eq_of_getLsbD_eq
  intro j hj
  rw [getLsbD_reverse_of_lt hj,getLsbD_not,getLsbD_not,getLsbD_reverse_of_lt hj]
  simp [hj, show w - 1 - j < w by omega]

theorem reverse_shiftLeft (v : BitVec w) (d : ℕ) : (BitVec.shiftLeft v d).reverse = BitVec.ushiftRight v.reverse d := by
  apply BitVec.eq_of_getLsbD_eq
  intro j hj
  rw [getLsbD_reverse_of_lt hj,BitVec.shiftLeft_eq,BitVec.ushiftRight_eq,getLsbD_shiftLeft,getLsbD_ushiftRight,
    getLsbD_reverse,getMsbD_eq_getLsbD]
  by_cases hd : d + j < w
  · simp [hd, show w - 1 - j < w by omega, show ¬ w - 1 - j < d by omega, show w - 1 - j - d = w - 1 - (d + j) by omega]
  · simp [hd, show w - 1 - j < d by omega]

theorem reverse_ushiftRight (v : BitVec w) (d : ℕ) : (BitVec.ushiftRight v d).reverse = BitVec.shiftLeft v.reverse d := by
  rw [← @reverse_reverse_eq _ (BitVec.shiftLeft v.reverse d),reverse_shiftLeft,reverse_reverse_eq]

theorem compressLoop_reverse (n i : ℕ) (s : CompressVars w) :
    let t := compressLoop BitVec.shiftLeft BitVec.ushiftRight n i s
    compressLoop BitVec.ushiftRight BitVec.shiftLeft n i ⟨s.x.reverse,s.m.reverse,s.mk.reverse⟩ =
      ⟨t.x.reverse,t.m.reverse,t.mk.reverse⟩ := by
  have hparity : ∀ (v : BitVec w) (k : ℕ), (parity BitVec.ushiftRight v k).reverse = parity BitVec.shiftLeft v.reverse k := by
    intro v k
    induction k with
    | zero => rfl
    | succ k ih => rw [parity,parity,reverse_xor',reverse_ushiftRight,ih]
  induction i with
  | zero => rfl
  | succ i ih =>
    simp only [compressLoop] at ih ⊢
    rw [ih]
    simp only [compressStep, reverse_and', reverse_or', reverse_xor', reverse_not', reverse_shiftLeft, hparity]

theorem compressL_reverse (n : ℕ) (x m : BitVec w) :
    (compressL n x m).reverse = compressR n x.reverse m.reverse := by
  have h := compressLoop_reverse n n ⟨x &&& m,m,BitVec.ushiftRight (~~~m) 1⟩
  simp only [reverse_and', reverse_ushiftRight, reverse_not'] at h
  simp only [compressL, compressR, compress, h]

end Reverse

theorem compressL_bit (hw : w ≤ 2 ^ n) (x m : BitVec w) (j : ℕ) : (compressL n x m).getLsbD j = true ↔
    ∃ k, m.getLsbD k = true ∧ x.getLsbD k = true ∧ holes m w + rank m.getLsbD true k = j := by
  have hback : ∀ k < w, m.getLsbD k = true →
      w - 1 - rank m.reverse.getLsbD true (w - 1 - k) = holes m w + rank m.getLsbD true k := by
    intro k hk hm
    have hrev := rank_reverse (s := m.getLsbD) (t := m.reverse.getLsbD) (b := true) (w := w) (k := w - 1 - k)
      (fun j hj => getLsbD_reverse_of_lt hj m) (by lia)
    rw [show w - (w - 1 - k) = k + 1 by lia,rank_succ,hm,if_pos rfl] at hrev
    have hsum := rank_add_rank m.getLsbD w
    change _ = rank _ _ _ + _
    lia
  constructor
  · intro hj
    have hjw := BitVec.lt_of_getLsbD hj
    rw [← @reverse_reverse_eq _ (compressL n x m),compressL_reverse,getLsbD_reverse_of_lt hjw,compressR_bit hw] at hj
    obtain ⟨k,hm,hx,hk⟩ := hj
    have hkw := BitVec.lt_of_getLsbD hm
    rw [getLsbD_reverse_of_lt hkw] at hm hx
    refine ⟨w - 1 - k,hm,hx,?_⟩
    rw [← hback _ (by lia) hm,show w - 1 - (w - 1 - k) = k by lia,hk]
    lia
  · rintro ⟨k,hm,hx,rfl⟩
    have hkw := BitVec.lt_of_getLsbD hm
    rw [← hback k hkw hm]
    have hlt : rank m.reverse.getLsbD true (w - 1 - k) ≤ w - 1 - k := rank_le
    rw [← @reverse_reverse_eq _ (compressL n x m),compressL_reverse,getLsbD_reverse_of_lt (by lia),compressR_bit hw]
    refine ⟨w - 1 - k,?_,?_,by lia⟩
    · rw [getLsbD_reverse_of_lt (by lia),show w - 1 - (w - 1 - k) = k by lia,hm]
    · rw [getLsbD_reverse_of_lt (by lia),show w - 1 - (w - 1 - k) = k by lia,hx]

end Catlib.Bits
