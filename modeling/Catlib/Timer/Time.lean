import Mathlib.Algebra.Order.Ring.Int
import Mathlib.Tactic.Ring

/-! # The times of time.h

A time is a pair of seconds and nanoseconds, here of integers: the arithmetic is meant for
sums that fit a long. `tm_normalize` leaves 10⁹ nanoseconds alone and `tm_add` does not
normalise what it returns, so one value has several representations; comparison and
subtraction are still exact on the values that the delta list computes with.
-/
namespace Catlib.Timer

/-- `cat_time_t`. -/
structure CatTime where
  sec : ℤ
  nsec : ℤ
  deriving DecidableEq

def giga : ℤ := 1000000000

/-- The first loop of `tm_normalize`. -/
def carry (t : CatTime) : CatTime :=
  if _h : t.nsec > giga ∨ t.sec < 0 ∧ t.nsec > 0 then carry ⟨t.sec + 1,t.nsec - giga⟩ else t
termination_by t.nsec.toNat
decreasing_by
  simp only [giga] at *
  omega

/-- The second loop of `tm_normalize`. -/
def borrow (t : CatTime) : CatTime :=
  if _h : t.nsec < -giga ∨ t.sec > 0 ∧ t.nsec < 0 then borrow ⟨t.sec - 1,t.nsec + giga⟩ else t
termination_by (-t.nsec).toNat
decreasing_by
  simp only [giga] at *
  omega

def tmNormalize (t : CatTime) : CatTime := borrow (carry t)

def tmZero : CatTime := ⟨0,0⟩

/-- `tm_add`, which normalises its second argument twice and never the sum. -/
def tmAdd (t1 t2 : CatTime) : CatTime :=
  ⟨(tmNormalize t1).sec + (tmNormalize t2).sec,(tmNormalize t1).nsec + (tmNormalize t2).nsec⟩

def tmSub (t1 t2 : CatTime) : CatTime :=
  tmNormalize ⟨(tmNormalize t1).sec - (tmNormalize t2).sec,(tmNormalize t1).nsec - (tmNormalize t2).nsec⟩

def tmLtz (t : CatTime) : Bool := (tmNormalize t).sec < 0 || (tmNormalize t).nsec < 0

def tmCmp (t1 t2 : CatTime) : ℤ :=
  let d := (tmNormalize t1).sec - (tmNormalize t2).sec
  let d := if d = 0 then (tmNormalize t1).nsec - (tmNormalize t2).nsec else d
  if d < 0 then -1 else if d > 0 then 1 else 0

/-! ## Values -/

def CatTime.value (t : CatTime) : ℤ := t.sec * giga + t.nsec

/-- A time as a client gives it. -/
structure CatTime.Proper (t : CatTime) : Prop where
  sec : 0 ≤ t.sec
  nsec : 0 ≤ t.nsec
  lt : t.nsec < giga

/-- A time as the delta list stores it. -/
structure CatTime.Stored (t : CatTime) : Prop where
  sec : 0 ≤ t.sec
  nsec : 0 ≤ t.nsec
  le : t.nsec ≤ 2 * giga

variable {t a b : CatTime}

theorem CatTime.Proper.stored (h : t.Proper) : t.Stored := ⟨h.sec,h.nsec,by have := h.lt; unfold giga at *; omega⟩

theorem CatTime.Stored.value_nonneg (h : t.Stored) : 0 ≤ t.value := by
  have h1 := h.sec
  have h2 := h.nsec
  unfold CatTime.value giga
  omega

theorem borrow_of (h : 0 ≤ t.nsec) : borrow t = t := by
  rw [borrow,dif_neg]
  unfold giga
  omega

theorem carry_of (h : t.nsec ≤ giga) (h' : 0 ≤ t.sec ∨ t.nsec ≤ 0) : carry t = t := by
  rw [carry,dif_neg]
  unfold giga at *
  omega

theorem tmNormalize_proper (h : t.Proper) : tmNormalize t = t := by
  rw [tmNormalize,carry_of h.lt.le (Or.inl h.sec),borrow_of h.nsec]

/-- What normalisation makes of a stored time. -/
structure Normal (t t' : CatTime) : Prop where
  value : t'.value = t.value
  sec : 0 ≤ t'.sec
  nsec : 0 ≤ t'.nsec
  le : t'.nsec ≤ giga

theorem tmNormalize_stored (h : t.Stored) : Normal t (tmNormalize t) := by
  obtain ⟨h1,h2,h3⟩ := h
  by_cases hn : t.nsec ≤ giga
  · rw [tmNormalize,carry_of hn (Or.inl h1),borrow_of h2]
    exact ⟨rfl,h1,h2,hn⟩
  · have hc : carry t = ⟨t.sec + 1,t.nsec - giga⟩ := by
      rw [carry,dif_pos (Or.inl (not_le.mp hn)),carry_of]
      · show t.nsec - giga ≤ giga
        unfold giga at *
        omega
      · exact Or.inl (Int.le_add_one h1)
    rw [tmNormalize,hc,borrow_of (show 0 ≤ t.nsec - giga by unfold giga at *; omega)]
    refine ⟨?_,?_,?_,?_⟩ <;> simp only [CatTime.value, giga] at * <;> omega

theorem tmAdd_stored (ha : a.Stored) (hb : b.Stored) :
    (tmAdd a b).Stored ∧ (tmAdd a b).value = a.value + b.value := by
  obtain ⟨va,sa,na,la⟩ := tmNormalize_stored ha
  obtain ⟨vb,sb,nb,lb⟩ := tmNormalize_stored hb
  unfold tmAdd
  refine ⟨⟨?_,?_,?_⟩,?_⟩ <;> simp only [CatTime.value, giga] at * <;> omega

theorem tmSub_stored (ha : a.Stored) (hb : b.Stored) (h : b.value ≤ a.value) :
    (tmSub a b).Stored ∧ (tmSub a b).value = a.value - b.value ∧ (a.Proper → (tmSub a b).Proper) := by
  have hpa : a.Proper → tmNormalize a = a := tmNormalize_proper
  obtain ⟨va,sa,na,la⟩ := tmNormalize_stored ha
  obtain ⟨vb,sb,nb,lb⟩ := tmNormalize_stored hb
  have hlt : a.Proper → (tmNormalize a).nsec < giga := fun h => by rw [hpa h]; exact h.lt
  unfold tmSub
  generalize tmNormalize a = p at *
  generalize tmNormalize b = q at *
  have hval : 0 ≤ (p.sec - q.sec) * giga + (p.nsec - q.nsec) := by
    simp only [CatTime.value, giga] at *
    lia
  -- one second is carried, one is borrowed, or the difference is normal
  by_cases hneg : p.sec - q.sec < 0
  · have hc : carry ⟨p.sec - q.sec,p.nsec - q.nsec⟩ = ⟨p.sec - q.sec + 1,p.nsec - q.nsec - giga⟩ := by
      rw [carry,dif_pos (Or.inr ⟨hneg,by unfold giga at *; show p.nsec - q.nsec > 0; lia⟩),carry_of]
      · show p.nsec - q.nsec - giga ≤ giga
        lia
      · right
        show p.nsec - q.nsec - giga ≤ 0
        lia
    rw [tmNormalize,hc,borrow_of (show 0 ≤ p.nsec - q.nsec - giga by unfold giga at *; lia)]
    refine ⟨⟨?_,?_,?_⟩,?_,fun hp => ⟨?_,?_,?_⟩⟩ <;> simp only [CatTime.value, giga] at * <;> lia
  · have hc : carry ⟨p.sec - q.sec,p.nsec - q.nsec⟩ = ⟨p.sec - q.sec,p.nsec - q.nsec⟩ :=
      carry_of (show p.nsec - q.nsec ≤ giga by lia) (Or.inl (not_lt.mp hneg))
    rw [tmNormalize,hc]
    by_cases hn : p.nsec - q.nsec < 0
    · have hbr : borrow ⟨p.sec - q.sec,p.nsec - q.nsec⟩ = ⟨p.sec - q.sec - 1,p.nsec - q.nsec + giga⟩ := by
        rw [borrow,dif_pos (Or.inr ⟨by unfold giga at *; show p.sec - q.sec > 0; lia,hn⟩),borrow_of]
        show 0 ≤ p.nsec - q.nsec + giga
        lia
      rw [hbr]
      refine ⟨⟨?_,?_,?_⟩,?_,fun hp => ⟨?_,?_,?_⟩⟩ <;> simp only [CatTime.value, giga] at * <;> lia
    · rw [borrow_of (not_lt.mp hn)]
      refine ⟨⟨?_,?_,?_⟩,?_,fun hp => ⟨?_,?_,?_⟩⟩
      all_goals try have hlt := hlt hp
      all_goals simp only [CatTime.value, giga] at *
      all_goals lia

theorem tmCmp_neg (ha : a.Proper) (hb : b.Stored) : tmCmp a b < 0 ↔ a.value < b.value := by
  obtain ⟨vb,sb,nb,lb⟩ := tmNormalize_stored hb
  have hlt := ha.lt
  have hn := ha.nsec
  rw [tmCmp,tmNormalize_proper ha,← vb]
  generalize tmNormalize b = q at *
  simp only [CatTime.value, giga] at *
  split <;> split <;> (try split) <;> lia

theorem tmCmp_pos (ha : a.Stored) (hb : b.Proper) : tmCmp a b > 0 ↔ b.value < a.value := by
  obtain ⟨va,sa,na,la⟩ := tmNormalize_stored ha
  have hlt := hb.lt
  have hn := hb.nsec
  rw [tmCmp,tmNormalize_proper hb,← va]
  generalize tmNormalize a = q at *
  simp only [CatTime.value, giga] at *
  split <;> split <;> (try split) <;> lia

theorem tmLtz_proper (h : t.Proper) : tmLtz t = false := by
  have h1 := h.sec
  have h2 := h.nsec
  rw [tmLtz,tmNormalize_proper h]
  simp only [Bool.or_eq_false_iff, decide_eq_false_iff_not, not_lt]
  exact ⟨h1,h2⟩

end Catlib.Timer
