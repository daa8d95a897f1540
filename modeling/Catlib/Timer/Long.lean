import Catlib.Timer.Time
import Mathlib.Algebra.Order.Group.Abs

/-! # What tm_normalize makes of any time

The result depends on the value of the time and on one bit more: a loop that comes by a
multiple of 10⁹ nanoseconds stops there, one step before 0, if the seconds allow it.
-/
namespace Catlib.Timer
variable {t c : CatTime}

/-- The times that `tm_normalize` leaves with a full second of nanoseconds. -/
def CatTime.Full (t : CatTime) : Prop :=
  giga ∣ t.nsec ∧ (0 < t.nsec ∧ giga ≤ t.value ∨ t.nsec < 0 ∧ t.value ≤ -giga)

instance : Decidable t.Full := inferInstanceAs (Decidable (_ ∧ (_ ∨ _)))

/-- The nanoseconds of the normal form. -/
def CatTime.nanos (t : CatTime) : ℤ :=
  if t.Full then if 0 < t.nsec then giga else -giga else t.value.tmod giga

/-- The seconds of the normal form. -/
def CatTime.seconds (t : CatTime) : ℤ :=
  if t.Full then if 0 < t.nsec then t.value.tdiv giga - 1 else t.value.tdiv giga + 1
  else t.value.tdiv giga

/-- A time whose parts do not disagree in sign and that has less than a second in nanoseconds. -/
structure CatTime.Normalised (t : CatTime) : Prop where
  lt : t.nsec < giga
  gt : -giga < t.nsec
  pos : 0 < t.sec → 0 ≤ t.nsec
  neg : t.sec < 0 → t.nsec ≤ 0

instance : Decidable t.Normalised :=
  decidable_of_iff (t.nsec < giga ∧ -giga < t.nsec ∧ (0 < t.sec → 0 ≤ t.nsec) ∧ (t.sec < 0 → t.nsec ≤ 0))
    ⟨fun ⟨h1,h2,h3,h4⟩ => ⟨h1,h2,h3,h4⟩,fun ⟨h1,h2,h3,h4⟩ => ⟨h1,h2,h3,h4⟩⟩

theorem tmod_of_nonneg {v : ℤ} (h : 0 ≤ v) : v.tdiv giga = v / giga ∧ v.tmod giga = v % giga :=
  ⟨Int.tdiv_eq_ediv_of_nonneg h,Int.tmod_eq_emod_of_nonneg h⟩

theorem tmod_of_nonpos {v : ℤ} (h : v ≤ 0) : v.tdiv giga = -(-v / giga) ∧ v.tmod giga = -(-v % giga) := by
  obtain ⟨hd,hm⟩ := tmod_of_nonneg (v := -v) (by omega)
  rw [Int.neg_tdiv] at hd
  rw [Int.neg_tmod] at hm
  exact ⟨by rw [← hd,neg_neg],by rw [← hm,neg_neg]⟩

/-! ## The two loops -/

def CatTime.opp (t : CatTime) : CatTime := ⟨-t.sec,-t.nsec⟩

@[simp] theorem CatTime.opp_opp (t : CatTime) : t.opp.opp = t := by simp [CatTime.opp]

theorem CatTime.value_opp (t : CatTime) : t.opp.value = -t.value := by
  simp only [CatTime.value, CatTime.opp]
  ring

theorem CatTime.full_opp : t.opp.Full ↔ t.Full := by
  simp only [CatTime.Full, CatTime.value_opp]
  simp only [CatTime.opp, giga]
  omega

theorem borrow_eq_carry (t : CatTime) : borrow t = (carry t.opp).opp := by
  induction t using borrow.induct with
  | case1 t h ih =>
    have hc : carry t.opp = carry ⟨t.opp.sec + 1,t.opp.nsec - giga⟩ := by
      rw [carry,dif_pos]
      simp only [CatTime.opp]
      omega
    have ho : CatTime.opp ⟨t.sec - 1,t.nsec + giga⟩ = ⟨t.opp.sec + 1,t.opp.nsec - giga⟩ := by
      simp only [CatTime.opp, CatTime.mk.injEq]
      omega
    rw [borrow,dif_pos h,ih,hc,ho]
  | case2 t h =>
    have hc : carry t.opp = t.opp := by
      rw [carry,dif_neg]
      simp only [CatTime.opp]
      omega
    rw [borrow,dif_neg h,hc,CatTime.opp_opp]

/-- What the first loop makes of a time with nanoseconds to carry. -/
structure Carried (t c : CatTime) : Prop where
  value : c.value = t.value
  dvd : giga ∣ t.nsec - c.nsec
  le : c.nsec ≤ giga
  gt : -giga < c.nsec
  neg : c.sec < 0 → c.nsec ≤ 0
  nonpos : c.nsec ≤ 0 → c.sec ≤ 0

theorem carry_carried (h : 0 < t.nsec) : Carried t (carry t) := by
  induction t using carry.induct with
  | case1 t hc ih =>
    rw [carry,dif_pos hc]
    by_cases hn : 0 < t.nsec - giga
    · obtain ⟨hv,hd,hle,hgt,hneg,hnon⟩ := ih hn
      refine ⟨hv.trans ?_,?_,hle,hgt,hneg,hnon⟩
      · simp only [CatTime.value]
        ring
      · simp only [giga] at *
        omega
    · -- the seconds were negative, and the loop ends here
      have hs : t.sec < 0 := by unfold giga at *; omega
      rw [carry_of (show t.nsec - giga ≤ giga by unfold giga at *; omega) (Or.inr (not_lt.mp hn))]
      refine ⟨?_,?_,?_,?_,fun _ => not_lt.mp hn,fun _ => hs⟩
      · simp only [CatTime.value]
        ring
      · simp
      · exact (not_lt.mp hn).trans (by decide)
      · show -giga < t.nsec - giga
        omega
  | case2 t hc =>
    rw [carry,dif_neg hc]
    refine ⟨rfl,by simp,?_,?_,?_,?_⟩ <;> unfold giga at * <;> omega

theorem Carried.nsec_eq (h : Carried t c) (ht : 0 < t.nsec) : c.nsec = giga ↔ t.Full := by
  obtain ⟨hv,hd,hle,hgt,hneg,hnon⟩ := h
  simp only [CatTime.Full, CatTime.value, giga] at *
  omega

theorem Carried.eq (h : Carried t c) (ht : 0 < t.nsec) : c = ⟨t.seconds,t.nanos⟩ := by
  have hfull := h.nsec_eq ht
  obtain ⟨hv,hd,hle,hgt,hneg,hnon⟩ := h
  obtain ⟨s,n⟩ := c
  simp only [CatTime.seconds, CatTime.nanos, if_pos ht] at hfull ⊢
  by_cases hf : t.Full
  · have hn : n = giga := hfull.mpr hf
    obtain ⟨htd,-⟩ := tmod_of_nonneg (v := t.value) (by simp only [CatTime.Full, giga] at *; lia)
    simp only [if_pos hf, htd, CatTime.mk.injEq]
    simp only [CatTime.value, giga] at *
    lia
  · have hn : n ≠ giga := fun h => hf (hfull.mp h)
    simp only [if_neg hf, CatTime.mk.injEq]
    rcases le_total 0 t.value with hs | hs
    · obtain ⟨htd,htm⟩ := tmod_of_nonneg hs
      rw [htd,htm]
      simp only [CatTime.value, giga] at *
      lia
    · obtain ⟨htd,htm⟩ := tmod_of_nonpos hs
      rw [htd,htm]
      simp only [CatTime.value, giga] at *
      lia

theorem CatTime.seconds_opp : t.opp.seconds = -t.seconds := by
  simp only [CatTime.seconds, CatTime.full_opp, CatTime.value_opp, Int.neg_tdiv]
  by_cases hf : t.Full
  · have : ¬ 0 < t.opp.nsec ↔ 0 < t.nsec := by
      simp only [CatTime.Full, CatTime.opp, giga] at *
      omega
    simp only [if_pos hf, ← this]
    split <;> simp_all <;> ring
  · simp only [if_neg hf]

theorem CatTime.nanos_opp : t.opp.nanos = -t.nanos := by
  simp only [CatTime.nanos, CatTime.full_opp, CatTime.value_opp, Int.neg_tmod]
  by_cases hf : t.Full
  · have : ¬ 0 < t.opp.nsec ↔ 0 < t.nsec := by
      simp only [CatTime.Full, CatTime.opp, giga] at *
      omega
    simp only [if_pos hf, ← this]
    split <;> simp_all
  · simp only [if_neg hf]

theorem tmNormalize_eq (t : CatTime) : tmNormalize t = ⟨t.seconds,t.nanos⟩ := by
  rcases lt_trichotomy t.nsec 0 with hn | hn | hn
  · -- nothing is carried, and the second loop is the first on the opposite time
    rw [tmNormalize,carry_of (by unfold giga; omega) (Or.inr hn.le),borrow_eq_carry]
    have ho : 0 < t.opp.nsec := by simp only [CatTime.opp]; omega
    rw [(carry_carried ho).eq ho,CatTime.seconds_opp,CatTime.nanos_opp]
    simp [CatTime.opp]
  · rw [tmNormalize,carry_of (by unfold giga; omega) (Or.inr hn.le),borrow_of hn.ge]
    have hf : ¬ t.Full := by
      rintro ⟨-,h | h⟩ <;> omega
    have hv : t.value = giga * t.sec := by
      rw [CatTime.value,hn]
      ring
    have hg : giga ≠ 0 := by decide
    obtain ⟨s,n⟩ := t
    simp only [CatTime.seconds, CatTime.nanos, if_neg hf, hv, Int.mul_tmod_right, Int.mul_tdiv_cancel_left _ hg,
      CatTime.mk.injEq, true_and]
    exact hn
  · have hc := carry_carried hn
    have hb : borrow (carry t) = carry t := by
      rw [borrow,dif_neg]
      have := hc.gt
      have := hc.nonpos
      omega
    rw [tmNormalize,hb,hc.eq hn]

/-! ## The normal form -/

/-- What the parts of a normal form satisfy. -/
structure Form (t : CatTime) (s n : ℤ) : Prop where
  value : s * giga + n = t.value
  le : n ≤ giga
  ge : -giga ≤ n
  pos : 0 < s → 0 ≤ n
  neg : s < 0 → n ≤ 0
  full : t.Full ↔ n = giga ∨ n = -giga

theorem CatTime.form (t : CatTime) : Form t t.seconds t.nanos := by
  by_cases hf : t.Full
  · have h2 := hf.2
    simp only [CatTime.seconds, CatTime.nanos, if_pos hf]
    by_cases hn : 0 < t.nsec
    · obtain ⟨htd,htm⟩ := tmod_of_nonneg (v := t.value) (by unfold giga at *; lia)
      have hv : t.value % giga = 0 := by
        have := hf.1
        simp only [CatTime.value, giga] at *
        omega
      simp only [if_pos hn, htd]
      refine ⟨?_,?_,?_,?_,?_,iff_of_true hf (Or.inl rfl)⟩ <;> simp only [giga] at * <;> lia
    · obtain ⟨htd,htm⟩ := tmod_of_nonpos (v := t.value) (by unfold giga at *; lia)
      have hv : -t.value % giga = 0 := by
        have := hf.1
        simp only [CatTime.value, giga] at *
        omega
      simp only [if_neg hn, htd]
      refine ⟨?_,?_,?_,?_,?_,iff_of_true hf (Or.inr rfl)⟩ <;> simp only [giga] at * <;> lia
  · simp only [CatTime.seconds, CatTime.nanos, if_neg hf]
    rcases le_total 0 t.value with hs | hs
    · obtain ⟨htd,htm⟩ := tmod_of_nonneg hs
      rw [htd,htm]
      refine ⟨?_,?_,?_,?_,?_,iff_of_false hf ?_⟩ <;> simp only [giga] at * <;> lia
    · obtain ⟨htd,htm⟩ := tmod_of_nonpos hs
      rw [htd,htm]
      refine ⟨?_,?_,?_,?_,?_,iff_of_false hf ?_⟩ <;> simp only [giga] at * <;> lia

theorem CatTime.normalised_iff (t : CatTime) : CatTime.Normalised ⟨t.seconds,t.nanos⟩ ↔ ¬ t.Full := by
  obtain ⟨-,hle,hge,hpos,hneg,hfull⟩ := t.form
  rw [hfull]
  constructor
  · rintro ⟨h1,h2,-,-⟩ (h | h)
    · exact absurd h1 (by simp [h])
    · exact absurd h2 (by simp [h])
  · intro h
    refine ⟨?_,?_,hpos,hneg⟩ <;> simp only [giga] at * <;> omega

theorem Form.lt {t t' : CatTime} {s n s' n' : ℤ} (h : Form t s n) (h' : Form t' s' n') (hlt : s < s') :
    t.value ≤ t'.value ∧ (t.value = t'.value → ¬(t.Full ↔ t'.Full)) := by
  obtain ⟨hv,hl,hg,hp,hn,hf⟩ := h
  obtain ⟨hv',hl',hg',hp',hn',hf'⟩ := h'
  rw [← hv,← hv',hf,hf']
  simp only [giga] at *
  lia

end Catlib.Timer

/-! # The times of time.h in longs of 64 bits

Here the seconds and nanoseconds are machine words. As long as the value of a time fits, its
normalisation is the one of the integers; what `tm_cmp`, `tm_add` and `tm_sub` then return is
right on the times that keep clear of three edges: a full second left in the nanoseconds, the
carry that `tm_add` never makes, and a difference of seconds that leaves the long.
-/
namespace Catlib.Timer.Long

/-- `cat_time_t`. -/
structure Time where
  sec : Int64
  nsec : Int64
  deriving DecidableEq

theorem toInt_giga : (1000000000 : Int64).toInt = giga := rfl

theorem sub_giga {x : Int64} (h : 0 < x.toInt) : (x - 1000000000).toInt = x.toInt - giga := by
  have hx := x.toInt_lt
  rw [Int64.toInt_sub,toInt_giga,Int.bmod_eq_of_le] <;> unfold giga <;> omega

theorem add_giga {x : Int64} (h : x.toInt < 0) : (x + 1000000000).toInt = x.toInt + giga := by
  have hx := x.le_toInt
  rw [Int64.toInt_add,toInt_giga,Int.bmod_eq_of_le] <;> unfold giga <;> omega

/-- The integers behind the words. -/
def Time.toCat (t : Time) : CatTime := ⟨t.sec.toInt,t.nsec.toInt⟩

theorem Time.carry_iff (t : Time) : (t.nsec > 1000000000 ∨ t.sec < 0 ∧ t.nsec > 0) ↔
    t.toCat.nsec > giga ∨ t.toCat.sec < 0 ∧ t.toCat.nsec > 0 := by
  simp only [gt_iff_lt, Int64.lt_iff_toInt_lt, toInt_giga, Int64.toInt_zero, Time.toCat]

theorem Time.borrow_iff (t : Time) : (t.nsec < -1000000000 ∨ t.sec > 0 ∧ t.nsec < 0) ↔
    t.toCat.nsec < -giga ∨ t.toCat.sec > 0 ∧ t.toCat.nsec < 0 := by
  simp only [gt_iff_lt, Int64.lt_iff_toInt_lt, Int64.toInt_zero, Time.toCat]
  rfl

/-- The first loop of `tm_normalize`. -/
def carry (t : Time) : Time :=
  if _h : t.nsec > 1000000000 ∨ t.sec < 0 ∧ t.nsec > 0 then carry ⟨t.sec + 1,t.nsec - 1000000000⟩ else t
termination_by t.nsec.toInt.toNat
decreasing_by
  have h := t.carry_iff.mp _h
  simp only [Time.toCat, giga] at h
  rw [sub_giga (by omega),giga]
  omega

/-- The second loop of `tm_normalize`. -/
def borrow (t : Time) : Time :=
  if _h : t.nsec < -1000000000 ∨ t.sec > 0 ∧ t.nsec < 0 then borrow ⟨t.sec - 1,t.nsec + 1000000000⟩ else t
termination_by (-t.nsec.toInt).toNat
decreasing_by
  have h := t.borrow_iff.mp _h
  simp only [Time.toCat, giga] at h
  rw [add_giga (by omega),giga]
  omega

def tmNormalize (t : Time) : Time := borrow (carry t)

/-- `tm_add`, which normalises its second argument once more and never the sum. -/
def tmAdd (t1 t2 : Time) : Time :=
  ⟨(tmNormalize t1).sec + (tmNormalize t2).sec,(tmNormalize t1).nsec + (tmNormalize t2).nsec⟩

def tmSub (t1 t2 : Time) : Time :=
  tmNormalize ⟨(tmNormalize t1).sec - (tmNormalize t2).sec,(tmNormalize t1).nsec - (tmNormalize t2).nsec⟩

def tmCmp (t1 t2 : Time) : ℤ :=
  let d := (tmNormalize t1).sec - (tmNormalize t2).sec
  let d := if d = 0 then (tmNormalize t1).nsec - (tmNormalize t2).nsec else d
  if d < 0 then -1 else if d > 0 then 1 else 0

/-! ## Values that fit -/

def InLong (x : ℤ) : Prop := -2 ^ 63 ≤ x ∧ x < 2 ^ 63

instance {x : ℤ} : Decidable (InLong x) := inferInstanceAs (Decidable (_ ∧ _))

/-- The values of the normalised times. -/
def Fits (v : ℤ) : Prop := -(2 ^ 63 + 1) * giga < v ∧ v < 2 ^ 63 * giga

instance {v : ℤ} : Decidable (Fits v) := inferInstanceAs (Decidable (_ ∧ _))

/-- The values at which the two loops stay in the long. -/
def Room (v : ℤ) : Prop := -(2 ^ 63 + 1) * giga ≤ v ∧ v ≤ 2 ^ 63 * giga

def Time.value (t : Time) : ℤ := t.toCat.value

variable {t a b : Time} {v : ℤ}

theorem Fits.room (h : Fits v) : Room v := ⟨h.1.le,h.2.le⟩

theorem toInt_add_of {x y : Int64} (h : InLong (x.toInt + y.toInt)) : (x + y).toInt = x.toInt + y.toInt := by
  obtain ⟨h1,h2⟩ := h
  rw [Int64.toInt_add,Int.bmod_eq_of_le] <;> omega

theorem toInt_sub_of {x y : Int64} (h : InLong (x.toInt - y.toInt)) : (x - y).toInt = x.toInt - y.toInt := by
  obtain ⟨h1,h2⟩ := h
  rw [Int64.toInt_sub,Int.bmod_eq_of_le] <;> omega

theorem Time.inLong (t : Time) : InLong t.toCat.sec ∧ InLong t.toCat.nsec :=
  ⟨⟨t.sec.le_toInt,t.sec.toInt_lt⟩,⟨t.nsec.le_toInt,t.nsec.toInt_lt⟩⟩

theorem Time.fits (h : t.toCat.Normalised) : Fits t.value := by
  obtain ⟨h1,h2,h3,h4⟩ := h
  obtain ⟨⟨h5,h6⟩,-⟩ := t.inLong
  simp only [Fits, Time.value, CatTime.value, giga] at *
  omega

theorem carry_toCat (h : t.value ≤ 2 ^ 63 * giga) : (carry t).toCat = Timer.carry t.toCat := by
  induction t using carry.induct with
  | case1 t hc ih =>
    have hi := t.carry_iff.mp hc
    have hsec : (t.sec + 1).toInt = t.sec.toInt + 1 := by
      refine toInt_add_of ?_
      have := t.sec.le_toInt
      have := t.sec.toInt_lt
      have : (1 : Int64).toInt = 1 := rfl
      simp only [InLong, Time.value, CatTime.value, Time.toCat, giga] at *
      omega
    have hnsec : (t.nsec - 1000000000).toInt = t.nsec.toInt - giga := by
      refine sub_giga ?_
      simp only [Time.toCat, giga] at hi
      omega
    have ht : Time.toCat ⟨t.sec + 1,t.nsec - 1000000000⟩ = ⟨t.toCat.sec + 1,t.toCat.nsec - giga⟩ := by
      simp only [Time.toCat, hsec, hnsec]
    rw [carry,dif_pos hc,Timer.carry,dif_pos hi,ih (by simp only [Time.value, CatTime.value, ht, giga] at h ⊢; omega),ht]
  | case2 t hc => rw [carry,dif_neg hc,Timer.carry,dif_neg (mt t.carry_iff.mpr hc)]

theorem borrow_toCat (h : -(2 ^ 63 + 1) * giga ≤ t.value) : (borrow t).toCat = Timer.borrow t.toCat := by
  induction t using borrow.induct with
  | case1 t hc ih =>
    have hi := t.borrow_iff.mp hc
    have hsec : (t.sec - 1).toInt = t.sec.toInt - 1 := by
      refine toInt_sub_of ?_
      have := t.sec.le_toInt
      have := t.sec.toInt_lt
      have : (1 : Int64).toInt = 1 := rfl
      simp only [InLong, Time.value, CatTime.value, Time.toCat, giga] at *
      omega
    have hnsec : (t.nsec + 1000000000).toInt = t.nsec.toInt + giga := by
      refine add_giga ?_
      simp only [Time.toCat, giga] at hi
      omega
    have ht : Time.toCat ⟨t.sec - 1,t.nsec + 1000000000⟩ = ⟨t.toCat.sec - 1,t.toCat.nsec + giga⟩ := by
      simp only [Time.toCat, hsec, hnsec]
    rw [borrow,dif_pos hc,Timer.borrow,dif_pos hi,ih (by simp only [Time.value, CatTime.value, ht, giga] at h ⊢; omega),ht]
  | case2 t hc => rw [borrow,dif_neg hc,Timer.borrow,dif_neg (mt t.borrow_iff.mpr hc)]

theorem carry_value (c : CatTime) : (Timer.carry c).value = c.value := by
  induction c using Timer.carry.induct with
  | case1 c hc ih =>
    rw [Timer.carry,dif_pos hc,ih]
    simp only [CatTime.value]
    ring
  | case2 c hc => rw [Timer.carry,dif_neg hc]

theorem tmNormalize_toCat (h : Room t.value) :
    (tmNormalize t).toCat = ⟨t.toCat.seconds,t.toCat.nanos⟩ := by
  have hc := carry_toCat h.2
  have hv : (carry t).value = t.value := by rw [Time.value,hc,carry_value,Time.value]
  rw [tmNormalize,borrow_toCat (hv ▸ h.1),hc,← tmNormalize_eq,Timer.tmNormalize]

/-! ## Comparison, sum and difference -/

theorem Time.form (t : Time) : Form t.toCat t.toCat.seconds t.toCat.nanos := t.toCat.form

/-- A difference of words against that of the integers. -/
def Wrapped (x d : ℤ) : Prop :=
  InLong x ∧ d = x ∨ 2 ^ 63 ≤ x ∧ d = x - 2 ^ 64 ∨ x < -2 ^ 63 ∧ d = x + 2 ^ 64

theorem toInt_sub_cases (x y : Int64) : Wrapped (x.toInt - y.toInt) (x - y).toInt := by
  unfold Wrapped
  have hx := x.le_toInt
  have hx' := x.toInt_lt
  have hy := y.le_toInt
  have hy' := y.toInt_lt
  by_cases h : InLong (x.toInt - y.toInt)
  · exact Or.inl ⟨h,toInt_sub_of h⟩
  rw [Int64.toInt_sub]
  by_cases hp : 2 ^ 63 ≤ x.toInt - y.toInt
  · refine Or.inr (Or.inl ⟨hp,?_⟩)
    rw [← Int.sub_bmod_right,Int.bmod_eq_of_le] <;> omega
  · have hn : x.toInt - y.toInt < -2 ^ 63 := by unfold InLong at h; omega
    refine Or.inr (Or.inr ⟨hn,?_⟩)
    rw [← Int.add_bmod_right,Int.bmod_eq_of_le] <;> omega

theorem tmCmp_sign (t1 t2 : Time) : tmCmp t1 t2 =
    if (tmNormalize t1).sec = (tmNormalize t2).sec then
      ((tmNormalize t1).nsec - (tmNormalize t2).nsec).toInt.sign
    else ((tmNormalize t1).sec - (tmNormalize t2).sec).toInt.sign := by
  have hsign : ∀ x : Int64, (if x < 0 then (-1 : ℤ) else if x > 0 then 1 else 0) = x.toInt.sign := by
    intro x
    simp only [gt_iff_lt, Int64.lt_iff_toInt_lt, Int64.toInt_zero]
    rcases lt_trichotomy x.toInt 0 with h | h | h
    · rw [if_pos h,Int.sign_eq_neg_one_of_neg h]
    · simp [h]
    · rw [if_neg (by omega),if_pos h,Int.sign_eq_one_of_pos h]
  unfold tmCmp
  simp only [hsign]
  by_cases h : (tmNormalize t1).sec = (tmNormalize t2).sec
  · rw [if_pos h,if_pos (by rw [h,Int64.sub_self])]
  · rw [if_neg h,if_neg (fun he => h (by rw [← Int64.sub_add_cancel (tmNormalize t1).sec (tmNormalize t2).sec,he,Int64.zero_add]))]

theorem sign_ite (x : ℤ) : x.sign = if x < 0 then -1 else if 0 < x then 1 else 0 := by
  rcases lt_trichotomy x 0 with h | h | h
  · rw [if_pos h,Int.sign_eq_neg_one_of_neg h]
  · simp [h]
  · rw [if_neg (by omega),if_pos h,Int.sign_eq_one_of_pos h]

theorem Wrapped.sign_iff {x d v : ℤ} (h : Wrapped x d) (hx : -2 ^ 64 < x ∧ x < 2 ^ 64)
    (hv : 0 < x ∧ 0 ≤ v ∨ x < 0 ∧ v ≤ 0) : d.sign = v.sign ↔ InLong x ∧ v ≠ 0 := by
  rw [sign_ite,sign_ite]
  unfold Wrapped InLong at *
  constructor
  · intro he
    split_ifs at he <;> lia
  · intro hi
    split_ifs <;> lia

theorem form_sign_iff {t t' : CatTime} {s n s' n' d : ℤ} (h : Form t s n) (h' : Form t' s' n')
    (hs : InLong s) (hs' : InLong s') (hd : Wrapped (s - s') d) :
    (if s = s' then (n - n').sign else d.sign) = (t.value - t'.value).sign ↔
      InLong (s - s') ∧ (t.value = t'.value → (t.Full ↔ t'.Full)) := by
  have hr : -2 ^ 64 < s - s' ∧ s - s' < 2 ^ 64 := by
    obtain ⟨h1,h2⟩ := hs
    obtain ⟨h3,h4⟩ := hs'
    omega
  rcases lt_trichotomy s s' with hlt | rfl | hgt
  · obtain ⟨hle,hne⟩ := h.lt h' hlt
    rw [if_neg hlt.ne,hd.sign_iff hr (by omega),sub_ne_zero]
    exact and_congr_right fun _ => ⟨fun h he => absurd he h,fun h he => hne he (h he)⟩
  · have hv : t.value - t'.value = n - n' := by
      rw [← h.value,← h'.value]
      ring
    rw [if_pos rfl,hv]
    refine iff_of_true rfl ⟨by simp [InLong],fun he => ?_⟩
    rw [h.full,h'.full,show n = n' by omega]
  · obtain ⟨hle,hne⟩ := h'.lt h hgt
    rw [if_neg hgt.ne',hd.sign_iff hr (by omega),sub_ne_zero]
    exact and_congr_right fun _ => ⟨fun h he => absurd he h,fun h he => hne he.symm (h he).symm⟩

theorem form_nanos_inLong {t t' : CatTime} {s n s' n' : ℤ} (h : Form t s n) (h' : Form t' s' n') :
    InLong (n + n') ∧ InLong (n - n') := by
  have := h.le
  have := h.ge
  have := h'.le
  have := h'.ge
  simp only [InLong, giga] at *
  omega

theorem tmNormalize_parts (h : Room t.value) : (tmNormalize t).sec.toInt = t.toCat.seconds ∧
    (tmNormalize t).nsec.toInt = t.toCat.nanos :=
  ⟨congrArg CatTime.sec (tmNormalize_toCat h),congrArg CatTime.nsec (tmNormalize_toCat h)⟩

theorem seconds_inLong (h : Room t.value) : InLong t.toCat.seconds := by
  rw [← (tmNormalize_parts h).1]
  exact ⟨Int64.le_toInt _,Int64.toInt_lt _⟩

theorem tmCmp_iff (ha : Fits a.value) (hb : Fits b.value) :
    tmCmp a b = (a.value - b.value).sign ↔
      InLong (a.toCat.seconds - b.toCat.seconds) ∧ (a.value = b.value → (a.toCat.Full ↔ b.toCat.Full)) := by
  obtain ⟨hsa,hna⟩ := tmNormalize_parts ha.room
  obtain ⟨hsb,hnb⟩ := tmNormalize_parts hb.room
  have hd := toInt_sub_cases (tmNormalize a).sec (tmNormalize b).sec
  have hn := (form_nanos_inLong a.toCat.form b.toCat.form).2
  rw [hsa,hsb] at hd
  rw [← hna,← hnb] at hn
  rw [tmCmp_sign,toInt_sub_of hn,hna,hnb]
  simp only [← Int64.toInt_inj, hsa, hsb]
  exact form_sign_iff a.toCat.form b.toCat.form (seconds_inLong ha.room) (seconds_inLong hb.room) hd

theorem form_add {t t' : CatTime} {s n s' n' : ℤ} (h : Form t s n) (h' : Form t' s' n') (hs : InLong s)
    (hs' : InLong s') (hf : Fits (t.value + t'.value)) : InLong (s + s') := by
  obtain ⟨hv,hl,hg,hp,hn,-⟩ := h
  obtain ⟨hv',hl',hg',hp',hn',-⟩ := h'
  rw [← hv,← hv'] at hf
  simp only [InLong, Fits, giga] at *
  omega

theorem form_add_normalised {t t' : CatTime} {s n s' n' : ℤ} (h : Form t s n) (h' : Form t' s' n') :
    CatTime.Normalised ⟨s + s',n + n'⟩ ↔ |n + n'| < giga ∧ (0 < t.value + t'.value → 0 ≤ n + n') ∧
      (t.value + t'.value < 0 → n + n' ≤ 0) := by
  obtain ⟨hv,hl,hg,hp,hn,-⟩ := h
  obtain ⟨hv',hl',hg',hp',hn',-⟩ := h'
  rw [← hv,← hv',abs_lt]
  constructor
  · rintro ⟨h1,h2,h3,h4⟩
    simp only [giga] at *
    omega
  · rintro ⟨⟨h1,h1'⟩,h2,h3⟩
    refine ⟨h1',h1,?_,?_⟩ <;> simp only [giga] at * <;> omega

theorem tmAdd_toCat (ha : Fits a.value) (hb : Fits b.value) (h : Fits (a.value + b.value)) :
    (tmAdd a b).toCat = ⟨a.toCat.seconds + b.toCat.seconds,a.toCat.nanos + b.toCat.nanos⟩ := by
  obtain ⟨hsa,hna⟩ := tmNormalize_parts ha.room
  obtain ⟨hsb,hnb⟩ := tmNormalize_parts hb.room
  have hs := form_add a.toCat.form b.toCat.form (seconds_inLong ha.room) (seconds_inLong hb.room) h
  have hn := (form_nanos_inLong a.toCat.form b.toCat.form).1
  rw [← hsa,← hsb] at hs
  rw [← hna,← hnb] at hn
  simp only [tmAdd, Time.toCat, CatTime.mk.injEq, toInt_add_of hs, toInt_add_of hn]
  exact ⟨congrArg₂ _ hsa hsb,congrArg₂ _ hna hnb⟩

theorem tmAdd_iff (ha : Fits a.value) (hb : Fits b.value) (h : Fits (a.value + b.value)) :
    (tmAdd a b).value = a.value + b.value ∧ (tmAdd a b).toCat.Normalised ↔
      |a.toCat.nanos + b.toCat.nanos| < giga ∧ (0 < a.value + b.value → 0 ≤ a.toCat.nanos + b.toCat.nanos) ∧
        (a.value + b.value < 0 → a.toCat.nanos + b.toCat.nanos ≤ 0) := by
  have hv : (tmAdd a b).value = a.value + b.value := by
    simp only [Time.value, tmAdd_toCat ha hb h, ← a.toCat.form.value, ← b.toCat.form.value]
    simp only [CatTime.value]
    ring
  rw [and_iff_right hv,tmAdd_toCat ha hb h]
  exact form_add_normalised a.toCat.form b.toCat.form

theorem Wrapped.room {t t' : CatTime} {s n s' n' d : ℤ} (h : Form t s n) (h' : Form t' s' n') (hs : InLong s)
    (hs' : InLong s') (hd : Wrapped (s - s') d) (hx : ¬ InLong (s - s')) : Room (d * giga + (n - n')) := by
  obtain ⟨hv,hl,hg,hp,hn,-⟩ := h
  obtain ⟨hv',hl',hg',hp',hn',-⟩ := h'
  unfold InLong at *
  rcases hd with ⟨hd,-⟩ | hd | hd
  · exact absurd hd hx
  · simp only [Room, giga] at *
    lia
  · simp only [Room, giga] at *
    lia

theorem tmSub_parts (ha : Fits a.value) (hb : Fits b.value) : ∃ p : Time, tmSub a b = tmNormalize p ∧
    Wrapped (a.toCat.seconds - b.toCat.seconds) p.sec.toInt ∧
      p.nsec.toInt = a.toCat.nanos - b.toCat.nanos := by
  obtain ⟨hsa,hna⟩ := tmNormalize_parts ha.room
  obtain ⟨hsb,hnb⟩ := tmNormalize_parts hb.room
  refine ⟨_,rfl,?_,?_⟩
  · rw [← hsa,← hsb]
    exact toInt_sub_cases _ _
  · have hn := (form_nanos_inLong a.toCat.form b.toCat.form).2
    rw [← hna,← hnb] at hn ⊢
    exact toInt_sub_of hn

theorem tmSub_iff (ha : Fits a.value) (hb : Fits b.value) :
    (tmSub a b).value = a.value - b.value ∧ (tmSub a b).toCat.Normalised ↔
      InLong (a.toCat.seconds - b.toCat.seconds) ∧ Fits (a.value - b.value) ∧
        ¬ CatTime.Full ⟨a.toCat.seconds - b.toCat.seconds,a.toCat.nanos - b.toCat.nanos⟩ := by
  obtain ⟨p,hsub,hd,hn⟩ := tmSub_parts ha hb
  have hfa := a.toCat.form
  have hfb := b.toCat.form
  have hpv : p.value = p.sec.toInt * giga + (a.toCat.nanos - b.toCat.nanos) := by
    rw [← hn]
    rfl
  rw [hsub]
  by_cases hx : InLong (a.toCat.seconds - b.toCat.seconds)
  · have hs : p.sec.toInt = a.toCat.seconds - b.toCat.seconds := by
      unfold Wrapped InLong at *
      omega
    have hv : p.value = a.value - b.value := by
      simp only [Time.value] at hpv ⊢
      rw [hpv,hs,← hfa.value,← hfb.value]
      ring
    rw [and_iff_right hx]
    by_cases hf : Fits (a.value - b.value)
    · have hr : Room p.value := by
        rw [hv]
        exact hf.room
      rw [and_iff_right hf,Time.value,tmNormalize_toCat hr,CatTime.normalised_iff,← hs,← hn]
      exact and_iff_right (p.form.value.trans hv)
    · refine iff_of_false ?_ (fun h => hf h.1)
      rintro ⟨hval,hnorm⟩
      rw [← hval] at hf
      exact hf (Time.fits hnorm)
  · refine iff_of_false ?_ (fun h => hx h.1)
    rintro ⟨hval,-⟩
    have hr : Room p.value := by
      rw [hpv]
      exact hd.room hfa hfb (seconds_inLong ha.room) (seconds_inLong hb.room) hx
    rw [Time.value,tmNormalize_toCat hr] at hval
    have hpf : p.value = a.value - b.value := p.form.value.symm.trans hval
    have hva := hfa.value
    have hvb := hfb.value
    unfold Wrapped InLong at *
    simp only [Time.value, giga] at *
    omega

/-- The times on which the three functions agree with the integers, for two values that fit and whose
sum does. -/
theorem tm_iff (a b : Time) (ha : Fits a.value) (hb : Fits b.value) (h : Fits (a.value + b.value)) :
    (tmCmp a b = (a.value - b.value).sign ↔
      InLong (a.toCat.seconds - b.toCat.seconds) ∧ (a.value = b.value → (a.toCat.Full ↔ b.toCat.Full))) ∧
    ((tmAdd a b).value = a.value + b.value ∧ (tmAdd a b).toCat.Normalised ↔
      |a.toCat.nanos + b.toCat.nanos| < giga ∧ (0 < a.value + b.value → 0 ≤ a.toCat.nanos + b.toCat.nanos) ∧
        (a.value + b.value < 0 → a.toCat.nanos + b.toCat.nanos ≤ 0)) ∧
    ((tmSub a b).value = a.value - b.value ∧ (tmSub a b).toCat.Normalised ↔
      InLong (a.toCat.seconds - b.toCat.seconds) ∧ Fits (a.value - b.value) ∧
        ¬ CatTime.Full ⟨a.toCat.seconds - b.toCat.seconds,a.toCat.nanos - b.toCat.nanos⟩) :=
  ⟨tmCmp_iff ha hb,tmAdd_iff ha hb h,tmSub_iff ha hb⟩

theorem tm_iff_mixed : tmCmp ⟨5,250000000⟩ ⟨-2,1500000000⟩ = 1 ∧
    (tmSub ⟨5,250000000⟩ ⟨-2,1500000000⟩).value = 5750000000 ∧
    ¬ ((tmAdd ⟨5,250000000⟩ ⟨-2,1500000000⟩).value = Time.value ⟨5,250000000⟩ + Time.value ⟨-2,1500000000⟩ ∧
      (tmAdd ⟨5,250000000⟩ ⟨-2,1500000000⟩).toCat.Normalised) := by
  obtain ⟨hc,ha,hs⟩ := tm_iff ⟨5,250000000⟩ ⟨-2,1500000000⟩ (by decide) (by decide) (by decide)
  exact ⟨hc.mpr (by decide),(hs.mpr (by decide)).1,fun h => absurd (ha.mp h) (by decide)⟩

/-- A second is not the same as 10⁹ nanoseconds. -/
theorem tm_second : ¬ ∀ a b : Time, Fits a.value → Fits b.value → Fits (a.value + b.value) →
    tmCmp a b = (a.value - b.value).sign ∧
      ((tmAdd a b).value = a.value + b.value ∧ (tmAdd a b).toCat.Normalised) ∧
      ((tmSub a b).value = a.value - b.value ∧ (tmSub a b).toCat.Normalised) := by
  intro h
  obtain ⟨hc,-⟩ := h ⟨1,0⟩ ⟨0,1000000000⟩ (by decide) (by decide) (by decide)
  have hcond := (tmCmp_iff (by decide) (by decide)).mp hc
  exact absurd hcond.2 (by decide)

end Catlib.Timer.Long
