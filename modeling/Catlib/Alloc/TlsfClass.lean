import Catlib.Alloc.Tlsf

/-! # The size classes of the two-level heap

A level is an interval between two powers of two, and its lists share the interval evenly. A length
is filed in the class that it lies in; an amount is looked for from the first class on all of whose
lengths are enough.
-/
namespace Catlib.Alloc

open Function

variable {n m i j k lists : ℕ} {t : Tlsf}

/-- The number of lists of a level. -/
def nbl (i : ℕ) : ℕ := if i < numsmall then 1 <<< i else fullbllen

/-- The number of lists of the levels below. -/
def offset : ℕ → ℕ
  | 0 => 0
  | i + 1 => offset i + nbl i

theorem initLevels_eq (lists k : ℕ) : (initLevels lists k).1 = lists + 16 * offset k ∧
    ∀ i < k, (initLevels lists k).2 i = ⟨0,nbl i,lists + 16 * offset i⟩ := by
  induction k with
  | zero => exact ⟨rfl,nofun⟩
  | succ k ih =>
    obtain ⟨hp,hl⟩ := ih
    refine ⟨?_,fun i hi => ?_⟩
    · rw [initLevels,offset,hp,nbl]
      omega
    · rw [initLevels]
      dsimp only
      by_cases hik : i = k
      · subst hik
        rw [update_self,hp]
        rfl
      · rw [update_of_ne hik]
        exact hl i (by omega)

theorem tlsfInit_l1 (m : Mem) (tlsf : ℕ) (hi : i < numl2) :
    (tlsfInit m tlsf).l1 i = ⟨0,nbl i,tlsf + listsOffset + 16 * offset i⟩ := (initLevels_eq _ _).2 i hi

theorem offset_numl2 : offset numl2 = numheads := by decide

theorem offset_le (h : i + 1 ≤ k) : offset i + nbl i ≤ offset k := by
  induction k with
  | zero => cases h
  | succ k ih =>
    rw [offset]
    by_cases hik : i = k
    · rw [hik]
    · exact (ih (by omega)).trans (Nat.le_add_right _ _)

/-- The length of the interval of one list. -/
def width (i : ℕ) : ℕ := 2 ^ (i + 3) / nbl i

theorem nbl_small (h : i < 6) : nbl i = 2 ^ i := by
  rw [nbl,if_pos (show i < numsmall from h),Nat.one_shiftLeft]

theorem nbl_full (h : 6 ≤ i) : nbl i = 64 := if_neg (not_lt.2 h)

theorem nbl_le (i : ℕ) : 0 < nbl i ∧ nbl i ≤ 64 := by
  by_cases h : i < 6
  · rw [nbl_small h]
    exact ⟨Nat.two_pow_pos i,Nat.pow_le_pow_right (n := 2) (i := i) (j := 6) (by decide) h.le⟩
  · rw [nbl_full (not_lt.1 h)]
    decide

theorem width_small (h : i ≤ 6) : width i = 8 := by
  by_cases h6 : i < 6
  · rw [width,nbl_small h6]
    exact Nat.div_eq_of_eq_mul_left (Nat.two_pow_pos i) ((Nat.pow_add 2 i 3).trans (Nat.mul_comm _ _))
  · rw [width,nbl_full (not_lt.1 h6),show i = 6 by omega]
    exact Nat.div_eq_of_eq_mul_left (by decide) (by decide)

theorem width_full (h : 6 ≤ i) : width i = 2 ^ (i - 3) := by
  rw [width,nbl_full h,show i + 3 = i - 3 + 6 by omega,Nat.pow_add]
  exact Nat.mul_div_cancel _ (by decide)

theorem width_mul (i : ℕ) : width i * nbl i = 2 ^ (i + 3) := by
  by_cases h : i < 6
  · rw [width_small h.le,nbl_small h,Nat.pow_add,Nat.mul_comm]
  · rw [width_full (not_lt.1 h),nbl_full (not_lt.1 h),show i + 3 = i - 3 + 6 by omega,Nat.pow_add]

theorem eight_dvd_width (i : ℕ) : 8 ∣ width i := by
  by_cases h : i ≤ 6
  · rw [width_small h]
  · rw [width_full (by omega)]
    exact Nat.pow_dvd_pow (m := 3) 2 (by omega)

theorem width_pos (i : ℕ) : 0 < width i := by
  have h := width_mul i
  have hp := Nat.two_pow_pos (i + 3)
  by_contra h0
  rw [Nat.eq_zero_of_not_pos h0,Nat.zero_mul] at h
  omega

/-- A list of free blocks: its level, and its position there. -/
@[ext] structure Cls where
  l1 : ℕ
  l2 : ℕ
  l1_lt : l1 < numl2
  l2_lt : l2 < nbl l1
  deriving DecidableEq

namespace Cls

/-- What `calc_tlsf_indices` gives for it. -/
def index (c : Cls) : ℕ := c.l1 <<< 8 + c.l2

/-- The least length of the class. -/
def lower (c : Cls) : ℕ := 2 ^ (c.l1 + 3) + width c.l1 * c.l2

variable {c d : Cls}

theorem index_eq (c : Cls) : c.index = 256 * c.l1 + c.l2 := by
  rw [index,Nat.shiftLeft_eq,Nat.mul_comm]

theorem l2_le (c : Cls) : c.l2 < 64 := c.l2_lt.trans_le (nbl_le _).2

@[simp] theorem index_shift (c : Cls) : c.index >>> 8 = c.l1 := by
  have := c.l2_le
  rw [index_eq,Nat.shiftRight_eq_div_pow]
  omega

@[simp] theorem index_mask (c : Cls) : c.index &&& 0xFF = c.l2 := by
  have := c.l2_le
  rw [index_eq,and_low (v := 256 * c.l1 + c.l2) (m := 0xFF) (n := 8) rfl]
  omega

theorem index_inj (h : c.index = d.index) : c = d := by
  have h1 := congrArg (· >>> 8) h
  have h2 := congrArg (· &&& 0xFF) h
  simp only [index_shift, index_mask] at h1 h2
  exact Cls.ext h1 h2

theorem index_lt_iff : c.index < d.index ↔ c.l1 < d.l1 ∨ c.l1 = d.l1 ∧ c.l2 < d.l2 := by
  have := c.l2_le
  have := d.l2_le
  rw [index_eq,index_eq]
  omega

theorem lower_add_le (c : Cls) : c.lower + width c.l1 ≤ 2 ^ (c.l1 + 4) := by
  have hlt := Nat.mul_le_mul_left (width c.l1) (Nat.succ_le_of_lt c.l2_lt)
  rw [width_mul,Nat.mul_succ] at hlt
  have hpow : 2 ^ (c.l1 + 4) = 2 ^ (c.l1 + 3) * 2 := Nat.pow_succ 2 (c.l1 + 3)
  rw [lower]
  omega

theorem lower_of_index (h : c.index < d.index) : c.lower + width c.l1 ≤ d.lower := by
  rcases index_lt_iff.1 h with h | ⟨h1,h2⟩
  · have hd : 2 ^ (c.l1 + 4) ≤ d.lower := (Nat.pow_le_pow_right (by decide) (by omega)).trans (Nat.le_add_right _ _)
    exact c.lower_add_le.trans hd
  · have hmul := Nat.mul_le_mul_left (width c.l1) (Nat.succ_le_of_lt h2)
    rw [Nat.mul_succ] at hmul
    rw [lower,lower,← h1]
    omega

theorem index_le_of_lower (h : c.lower < d.lower + width d.l1) : c.index ≤ d.index := by
  by_contra hlt
  have := lower_of_index (not_le.1 hlt)
  omega

theorem eight_dvd_lower (c : Cls) : 8 ∣ c.lower :=
  Nat.dvd_add (Nat.pow_dvd_pow (m := 3) 2 (by omega)) (Dvd.dvd.mul_right (eight_dvd_width _) _)

theorem lower_pos (c : Cls) : 8 ≤ c.lower :=
  Nat.le_of_dvd (Nat.lt_of_lt_of_le (Nat.two_pow_pos (c.l1 + 3)) (Nat.le_add_right _ _)) c.eight_dvd_lower

end Cls

theorem level_lt (h : n < 2 ^ 63) : Nat.log 2 n - 3 < numl2 := by
  have := Nat.log_lt_of_lt_pow' (b := 2) (x := 63) (by decide) h
  change _ < 60
  omega

theorem position_lt (h8 : 8 ≤ n) : (n - 2 ^ Nat.log 2 n) / width (Nat.log 2 n - 3) < nbl (Nat.log 2 n - 3) := by
  have h3 : 3 ≤ Nat.log 2 n := Nat.le_log_of_pow_le (by decide) h8
  have hlt : n < 2 ^ (Nat.log 2 n + 1) := Nat.lt_pow_succ_log_self (by decide) n
  apply Nat.div_lt_of_lt_mul
  rw [width_mul,Nat.sub_add_cancel h3]
  rw [Nat.pow_succ] at hlt
  omega

/-- The class of a length. -/
def clsOf (n : ℕ) : Cls :=
  if h : 8 ≤ n ∧ n < 2 ^ 63 then
    ⟨Nat.log 2 n - 3,(n - 2 ^ Nat.log 2 n) / width (Nat.log 2 n - 3),level_lt h.2,position_lt h.1⟩
  else ⟨0,0,by decide,by decide⟩

theorem clsOf_range (h8 : 8 ≤ n) (hn : n < 2 ^ 63) : (clsOf n).lower ≤ n ∧ n < (clsOf n).lower + width (clsOf n).l1 := by
  have h3 : 3 ≤ Nat.log 2 n := Nat.le_log_of_pow_le (by decide) h8
  have hle : 2 ^ Nat.log 2 n ≤ n := Nat.pow_log_le_self 2 (by omega)
  have hdiv := Nat.div_add_mod (n - 2 ^ Nat.log 2 n) (width (Nat.log 2 n - 3))
  have hmod := Nat.mod_lt (n - 2 ^ Nat.log 2 n) (width_pos (Nat.log 2 n - 3))
  rw [clsOf,dif_pos ⟨h8,hn⟩]
  simp only [Cls.lower, Nat.sub_add_cancel h3]
  omega

theorem clsOf_unique {c : Cls} (h1 : c.lower ≤ n) (h2 : n < c.lower + width c.l1) : clsOf n = c := by
  have h8 : 8 ≤ n := c.lower_pos.trans h1
  have hup := c.lower_add_le
  have h63 : n < 2 ^ 63 := by
    have hl1 : c.l1 + 4 ≤ 63 := Nat.add_le_add_right (Nat.le_of_lt_succ c.l1_lt) 4
    exact (h2.trans_le hup).trans_le (Nat.pow_le_pow_right (by decide) hl1)
  obtain ⟨hr1,hr2⟩ := clsOf_range h8 h63
  exact Cls.index_inj (le_antisymm (Cls.index_le_of_lower (by omega)) (Cls.index_le_of_lower (by omega)))

theorem clsOf_lower (c : Cls) : clsOf c.lower = c :=
  clsOf_unique (Nat.le_refl _) (Nat.lt_add_of_pos_right (width_pos _))

/-! ## calc_tlsf_indices -/

theorem diff_of_le {a b : ℕ} (h : b ≤ a) (ha : a < 2 ^ 64) : diff a b = a - b := by
  rw [diff,show a + 2 ^ 64 - b = a - b + 2 ^ 64 by omega,Nat.add_mod_right,Nat.mod_eq_of_lt (by omega)]

theorem calcTlsfIndices_eq (h8 : 8 ≤ n) (hn : n < 2 ^ 31) : calcTlsfIndices n = some (clsOf n).index := by
  have h3 : 3 ≤ Nat.log 2 n := Nat.le_log_of_pow_le (by decide) h8
  have h31 : Nat.log 2 n < 31 := Nat.log_lt_of_lt_pow' (by decide) hn
  have hle : 2 ^ Nat.log 2 n ≤ n := Nat.pow_log_le_self 2 (by lia)
  have hpos := Nat.two_pow_pos (Nat.log 2 n)
  have hnlz : Bits.nlz64 n = 63 - Nat.log 2 n := by
    have := Bits.nlz64_eq (x := n) (by lia) (by lia)
    lia
  have hi : szBits - 1 - lg2Unitsize - Bits.nlz64 n = Nat.log 2 n - 3 := by
    rw [hnlz]
    change 60 - _ = _
    lia
  rw [calcTlsfIndices]
  dsimp only
  rw [if_neg (by rw [hnlz]; change ¬ 60 < _; lia),hi,show Nat.log 2 n - 3 + lg2Unitsize = Nat.log 2 n from Nat.sub_add_cancel h3,
    intShl,if_pos h31,Option.bind_some,Nat.one_shiftLeft,diff_of_le hle (by lia),toInt,if_pos (by lia),Option.map_some,
    clsOf,dif_pos ⟨h8,by lia⟩,Cls.index]
  -- both formulas divide by the width of the level
  have hpos : (if n < fullbllen * unitsize then (n - 2 ^ Nat.log 2 n) / unitsize
      else (n - 2 ^ Nat.log 2 n) >>> (Nat.log 2 n - 3 - (l2Len - lg2Unitsize))) =
        (n - 2 ^ Nat.log 2 n) / width (Nat.log 2 n - 3) := by
    by_cases hsmall : n < fullbllen * unitsize
    · have hlog : Nat.log 2 n < 9 := Nat.log_lt_of_lt_pow' (by decide) hsmall
      rw [if_pos hsmall,width_small (by lia)]
      rfl
    · have hlog : 9 ≤ Nat.log 2 n := Nat.le_log_of_pow_le (by decide) (not_lt.1 hsmall)
      rw [if_neg hsmall,width_full (by lia),Nat.shiftRight_eq_div_pow]
      rfl
  rw [hpos]

theorem calcTlsfIndices_none (hn : 2 ^ 31 ≤ n) (hlt : n < 2 ^ 64) : calcTlsfIndices n = none := by
  have h31 : 31 ≤ Nat.log 2 n := Nat.le_log_of_pow_le (by decide) hn
  have h64 : Nat.log 2 n < 64 := Nat.log_lt_of_lt_pow' (by decide) hlt
  have hnlz : Bits.nlz64 n = 63 - Nat.log 2 n := by
    have := Bits.nlz64_eq (x := n) (by omega) hlt
    omega
  rw [calcTlsfIndices]
  dsimp only
  rw [if_neg (by rw [hnlz]; change ¬ 60 < _; omega),intShl,if_neg (by rw [hnlz]; change ¬ 60 - _ + 3 < 31; omega)]
  rfl

/-! ## round_next_tlsf_size -/

theorem roundNext_spec (ht : ∀ i < numl2, (t.l1 i).nblists = nbl i) (h8 : 8 ≤ n) (hd : 8 ∣ n) (hn : n < 2 ^ 31) :
    ∃ c : Cls, roundNextTlsfSize t n (clsOf n).index = some (c.index : ℤ) ∧ n ≤ c.lower ∧ ∀ p : Cls, p.index < c.index → p.lower < n := by
  obtain ⟨hr1,hr2⟩ := clsOf_range h8 (by lia)
  have hlevel : (clsOf n).l1 ≤ 27 := by
    have h31 : Nat.log 2 n < 31 := Nat.log_lt_of_lt_pow' (by decide) hn
    rw [clsOf,dif_pos ⟨h8,by lia⟩]
    dsimp only
    lia
  obtain ⟨c,hc⟩ : ∃ c, clsOf n = c := ⟨_,rfl⟩
  rw [hc] at hr1 hr2 hlevel ⊢
  rw [roundNextTlsfSize,Cls.index_shift,Cls.index_mask]
  dsimp only
  by_cases hsmall : c.l1 ≤ l2Len
  · -- a list holds one length only
    rw [if_pos hsmall]
    rw [width_small hsmall] at hr2
    obtain ⟨a,ha⟩ := c.eight_dvd_lower
    obtain ⟨b,hb⟩ := hd
    exact ⟨c,rfl,by lia,fun p hp => by have := Cls.lower_of_index hp; have := width_pos p.l1; lia⟩
  · have h6 : 6 < c.l1 := not_le.1 hsmall
    have hbkt : 1 <<< (c.l1 + lg2Unitsize) + 1 <<< (c.l1 + lg2Unitsize) / fullbllen * c.l2 = c.lower := by
      rw [Nat.one_shiftLeft,Cls.lower,width,nbl_full h6.le]
      rfl
    have hshift : c.l1 + lg2Unitsize < 31 := by
      change c.l1 + 3 < 31
      lia
    rw [if_neg hsmall,intShl,if_pos hshift,Option.map_some,hbkt]
    by_cases hfit : n ≤ c.lower
    · rw [if_pos hfit]
      exact ⟨c,rfl,hfit,fun p hp => by have := Cls.lower_of_index hp; have := width_pos p.l1; lia⟩
    rw [if_neg hfit,ht _ c.l1_lt]
    -- the next list, on the next level if there is none
    have hnext : ∀ d : Cls, d.lower = c.lower + width c.l1 → n ≤ d.lower ∧ ∀ p : Cls, p.index < d.index → p.lower < n := by
      intro d hd
      refine ⟨by lia,fun p hp => ?_⟩
      have hle : p.lower ≤ c.lower := by
        by_contra hlt
        have hpc : c.index < p.index := by
          by_contra hge
          rcases Nat.lt_or_eq_of_le (not_lt.1 hge) with h | h
          · have := Cls.lower_of_index h
            lia
          · rw [Cls.index_inj h] at hlt
            exact hlt (Nat.le_refl _)
        have := Cls.lower_of_index hpc
        have := Cls.lower_of_index hp
        have := width_pos p.l1
        lia
      lia
    by_cases hlast : c.l2 + 1 ≥ nbl c.l1
    · rw [if_pos hlast,if_neg (by unfold lg2Alim lg2Unitsize; dsimp only; lia)]
      have hlt : c.l1 + 1 < numl2 := by
        change _ < 60
        lia
      refine ⟨⟨c.l1 + 1,0,hlt,(nbl_le _).1⟩,rfl,hnext _ ?_⟩
      have hl2 : c.l2 + 1 = nbl c.l1 := le_antisymm (Nat.succ_le_of_lt c.l2_lt) hlast
      have hmul := width_mul c.l1
      rw [← hl2,Nat.mul_succ] at hmul
      have hpow : 2 ^ (c.l1 + 1 + 3) = 2 ^ (c.l1 + 3) * 2 := Nat.pow_succ 2 (c.l1 + 3)
      simp only [Cls.lower, Nat.mul_zero, Nat.add_zero]
      lia
    · rw [if_neg hlast,if_neg (by unfold lg2Alim lg2Unitsize; dsimp only; lia)]
      refine ⟨⟨c.l1,c.l2 + 1,c.l1_lt,not_le.1 hlast⟩,rfl,hnext _ ?_⟩
      simp only [Cls.lower, Nat.mul_succ]
      lia

/-! ## The promise of the classes -/

/-- A block length: the index is that of a list of the heap, and the length is one of the list's. -/
def Filed (tlsf : ℕ) (t : Tlsf) (len : ℕ) : Prop :=
  ∃ c : Cls, calcTlsfIndices len = some c.index ∧ c.lower ≤ len ∧ len < c.lower + width c.l1 ∧ c.l2 < (t.l1 c.l1).nblists ∧
    tlsf + listsOffset ≤ (t.l1 c.l1).blists ∧ (t.l1 c.l1).blists + 16 * (c.l2 + 1) ≤ tlsf + listsOffset + 16 * numheads

/-- A request: from the class on that it is given, all blocks are large enough, and in the class before
there is a length that is not. -/
def Rounded (t : Tlsf) (amt : ℕ) : Prop :=
  ∃ idx r, calcTlsfIndices amt = some idx ∧ roundNextTlsfSize t amt idx = some r ∧ (r = -1 ∨ ∃ c : Cls, r = c.index ∧
    (∀ len (d : Cls), 8 ∣ len → calcTlsfIndices len = some d.index → c.index ≤ d.index → amt ≤ len) ∧
    ∀ d : Cls, d.index < c.index → (∀ e : Cls, e.index ≤ d.index ∨ c.index ≤ e.index) →
      ∃ len, 8 ∣ len ∧ 0 < len ∧ calcTlsfIndices len = some d.index ∧ len < amt)

/-- The indices of lengths and requests are what they should be below `2 ^ 31`, and from there on there
is none, since an int overflows. -/
theorem classes_iff (m : Mem) (tlsf len : ℕ) (h8 : 8 ∣ len) (h0 : 0 < len) (hlt : len < alim) :
    Filed tlsf (tlsfInit m tlsf) len ∧ Rounded (tlsfInit m tlsf) len ↔ len < 2 ^ 31 := by
  have hlt : len < 2 ^ 63 := hlt
  have hle : 8 ≤ len := Nat.le_of_dvd h0 h8
  constructor
  · rintro ⟨⟨c,hc,-⟩,-⟩
    by_contra hge
    rw [calcTlsfIndices_none (not_lt.1 hge) (by omega)] at hc
    cases hc
  · intro h31
    obtain ⟨hr1,hr2⟩ := clsOf_range hle hlt
    have hl1 := tlsfInit_l1 m tlsf (clsOf len).l1_lt
    refine ⟨⟨clsOf len,calcTlsfIndices_eq hle h31,hr1,hr2,?_,?_,?_⟩,?_⟩
    · rw [hl1]
      exact (clsOf len).l2_lt
    · rw [hl1]
      exact Nat.le_add_right _ _
    · rw [hl1,← offset_numl2]
      have := offset_le (k := numl2) (clsOf len).l1_lt
      have := (clsOf len).l2_lt
      dsimp only
      omega
    · obtain ⟨c,hc,hge,hlow⟩ := roundNext_spec (t := tlsfInit m tlsf) (fun i hi => by rw [tlsfInit_l1 m tlsf hi]) hle h8 h31
      refine ⟨_,_,calcTlsfIndices_eq hle h31,hc,.inr ⟨c,rfl,fun n d _ hn hcd => ?_,fun d hd _ => ?_⟩⟩
      · by_contra hlt'
        have hsmall : n < 2 ^ 31 := by omega
        by_cases hn8 : 8 ≤ n
        · rw [calcTlsfIndices_eq hn8 hsmall,Option.some.injEq] at hn
          have hrange := clsOf_range hn8 (by omega)
          have := hlow (clsOf n)
          rcases Nat.lt_or_eq_of_le hcd with h | h
          · have := Cls.lower_of_index h
            have := width_pos c.l1
            rw [Cls.index_inj hn] at hrange
            omega
          · rw [← Cls.index_inj h] at hn
            rw [Cls.index_inj hn] at hrange
            omega
        · obtain ⟨e,he⟩ : ∃ e, calcTlsfIndices n = e := ⟨_,rfl⟩
          have hnone : ∀ n < 8, calcTlsfIndices n = none := by decide +kernel
          rw [hnone n (by omega)] at hn
          cases hn
      · have hlow := hlow d hd
        refine ⟨d.lower,d.eight_dvd_lower,by have := d.lower_pos; omega,?_,hlow⟩
        rw [calcTlsfIndices_eq d.lower_pos (by omega),clsOf_lower]

theorem classes_iff_48 : Filed 8 (tlsfInit (fun _ => 0) 8) 48 ∧ Rounded (tlsfInit (fun _ => 0) 8) 48 :=
  (classes_iff (fun _ => 0) 8 48 (by decide) (by decide) (by decide)).2 (by decide)

/-- A block of two gigabytes has no index. -/
theorem classes_overflow : ¬∀ len, 8 ∣ len → 0 < len → len < alim → Filed 8 (tlsfInit (fun _ => 0) 8) len := by
  intro h
  obtain ⟨c,hc,-⟩ := h (2 ^ 31) (by decide) (by decide) (by decide)
  have hnone : calcTlsfIndices (2 ^ 31) = none := by decide +kernel
  rw [hnone] at hc
  cases hc

end Catlib.Alloc
