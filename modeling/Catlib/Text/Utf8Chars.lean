import Catlib.Logic.Bits
import Catlib.Text.Utf8

/-! # The characters of UTF-8

The encodings of one to six bytes by arithmetic. The validation accepts exactly them, and the
decoder and the encoder are the two ways to read the relation.
-/
namespace Catlib.Text

/-- A byte behind the first. -/
def Tail (b : UInt8) : Prop := 128 ≤ b.toNat ∧ b.toNat < 192

/-- The bytes of a value, in the shortest form. -/
inductive Enc : ℕ → List UInt8 → Prop
  | one {v : ℕ} {a : UInt8} (ha : a.toNat < 128) (hv : v = a.toNat) : Enc v [a]
  | two {v : ℕ} {a b : UInt8} (ha : 192 ≤ a.toNat ∧ a.toNat < 224) (hb : Tail b) (hv : v = (a.toNat - 192) * 2 ^ 6 + (b.toNat - 128))
      (hmin : 2 ^ 7 ≤ v) : Enc v [a,b]
  | three {v : ℕ} {a b c : UInt8} (ha : 224 ≤ a.toNat ∧ a.toNat < 240) (hb : Tail b) (hc : Tail c)
      (hv : v = (a.toNat - 224) * 2 ^ 12 + (b.toNat - 128) * 2 ^ 6 + (c.toNat - 128)) (hmin : 2 ^ 11 ≤ v) : Enc v [a,b,c]
  | four {v : ℕ} {a b c d : UInt8} (ha : 240 ≤ a.toNat ∧ a.toNat < 248) (hb : Tail b) (hc : Tail c) (hd : Tail d)
      (hv : v = (a.toNat - 240) * 2 ^ 18 + (b.toNat - 128) * 2 ^ 12 + (c.toNat - 128) * 2 ^ 6 + (d.toNat - 128))
      (hmin : 2 ^ 16 ≤ v) : Enc v [a,b,c,d]
  | five {v : ℕ} {a b c d e : UInt8} (ha : 248 ≤ a.toNat ∧ a.toNat < 252) (hb : Tail b) (hc : Tail c) (hd : Tail d) (he : Tail e)
      (hv : v = (a.toNat - 248) * 2 ^ 24 + (b.toNat - 128) * 2 ^ 18 + (c.toNat - 128) * 2 ^ 12 + (d.toNat - 128) * 2 ^ 6 +
        (e.toNat - 128)) (hmin : 2 ^ 21 ≤ v) : Enc v [a,b,c,d,e]
  | six {v : ℕ} {a b c d e f : UInt8} (ha : 252 ≤ a.toNat ∧ a.toNat < 254) (hb : Tail b) (hc : Tail c) (hd : Tail d) (he : Tail e) (hf : Tail f)
      (hv : v = (a.toNat - 252) * 2 ^ 30 + (b.toNat - 128) * 2 ^ 24 + (c.toNat - 128) * 2 ^ 18 + (d.toNat - 128) * 2 ^ 12 +
        (e.toNat - 128) * 2 ^ 6 + (f.toNat - 128)) (hmin : 2 ^ 26 ≤ v) : Enc v [a,b,c,d,e,f]

variable {a b c d e f : UInt8} {m t src : List UInt8} {v : ℕ} {n : ℤ}

/-! ## Bytes -/

theorem byte_high {k : ℕ} {x y : UInt8} (hx : x.toNat = 2 ^ 8 - 2 ^ k) (hk : k ≤ 8) (c : UInt8) :
    c &&& x = y ↔ c.toNat / 2 ^ k * 2 ^ k = y.toNat := by
  rw [← UInt8.toNat_inj,UInt8.toNat_and,hx,and_high (c.toNat_lt) hk]

theorem tail_iff (c : UInt8) : c &&& 0xC0 = 0x80 ↔ Tail c := by
  rw [byte_high (k := 6) rfl (by decide),Tail]
  change c.toNat / 2 ^ 6 * 2 ^ 6 = 128 ↔ _
  omega

theorem utf8Conts_tail (hc : Tail c) (s : List UInt8) (k : ℕ) : utf8Conts (c :: s) (k + 1) = utf8Conts s k := by
  rw [utf8Conts,if_neg (not_not.2 ((tail_iff c).2 hc))]

theorem utf8Conts_true {s : List UInt8} {k : ℕ} (h : utf8Conts s (k + 1) = some true) :
    ∃ c t, s = c :: t ∧ Tail c ∧ utf8Conts t k = some true := by
  cases s with
  | nil => cases h
  | cons c t =>
    rw [utf8Conts] at h
    split at h
    · cases h
    · rename_i hc
      exact ⟨c,t,rfl,(tail_iff c).1 (not_not.1 hc),h⟩

theorem utf8Nbytes_eq (c : UInt8) : utf8Nbytes c = if c.toNat < 128 then 1 else if c.toNat < 192 then -1
    else if c.toNat < 224 then 2 else if c.toNat < 240 then 3 else if c.toNat < 248 then 4 else if c.toNat < 252 then 5
    else if c.toNat < 254 then 6 else -1 := by
  simp only [utf8Nbytes, UInt8.lt_iff_toNat_lt]
  rfl

theorem Tail.lt (h : Tail b) : b.toNat < 192 := h.2

theorem Tail.sub_lt (h : Tail b) : b.toNat - 128 < 2 ^ 6 := by
  have := h.lt
  omega

theorem overlong_iff {k : ℕ} {x y l : UInt8} (hx : x.toNat = 2 ^ 8 - 2 ^ k) (hk : k ≤ 8) (hy : y = 0x80) (c c' : UInt8) :
    (c == l && c' &&& x == y) = true ↔ c.toNat = l.toNat ∧ c'.toNat / 2 ^ k * 2 ^ k = 128 := by
  rw [Bool.and_eq_true,beq_iff_eq,beq_iff_eq,byte_high hx hk,hy,UInt8.toNat_inj]
  rfl

/-! ## The digits of a value -/

theorem Tail.div (h : Tail b) (x k : ℕ) : (x * 2 ^ 6 + (b.toNat - 128)) / 2 ^ (k + 6) = x / 2 ^ k := by
  rw [Nat.add_comm k,Nat.pow_add,← Nat.div_div_eq_div_mul,Nat.mul_comm x,Nat.mul_add_div (Nat.two_pow_pos 6),
    Nat.div_eq_of_lt h.sub_lt,Nat.add_zero]

theorem Tail.mod (h : Tail b) (x : ℕ) : (x * 2 ^ 6 + (b.toNat - 128)) % 2 ^ 6 = b.toNat - 128 := by
  rw [Nat.mul_comm x,Nat.mul_add_mod,Nat.mod_eq_of_lt h.sub_lt]

theorem digit_join (v k : ℕ) : v / 2 ^ (k + 6) * 2 ^ 6 + v / 2 ^ k % 2 ^ 6 = v / 2 ^ k := by
  rw [Nat.pow_add,← Nat.div_div_eq_div_mul]
  exact Nat.div_add_mod' _ _

theorem digit_join_last (v : ℕ) : v / 2 ^ 6 * 2 ^ 6 + v % 2 ^ 6 = v := Nat.div_add_mod' _ _

theorem three_digits (a b c : ℕ) : a * 2 ^ 12 + b * 2 ^ 6 + c = (a * 2 ^ 6 + b) * 2 ^ 6 + c := by omega

theorem four_digits (a b c d : ℕ) : a * 2 ^ 18 + b * 2 ^ 12 + c * 2 ^ 6 + d = ((a * 2 ^ 6 + b) * 2 ^ 6 + c) * 2 ^ 6 + d := by
  omega

theorem five_digits (a b c d e : ℕ) : a * 2 ^ 24 + b * 2 ^ 18 + c * 2 ^ 12 + d * 2 ^ 6 + e =
    (((a * 2 ^ 6 + b) * 2 ^ 6 + c) * 2 ^ 6 + d) * 2 ^ 6 + e := by omega

theorem six_digits (a b c d e f : ℕ) : a * 2 ^ 30 + b * 2 ^ 24 + c * 2 ^ 18 + d * 2 ^ 12 + e * 2 ^ 6 + f =
    ((((a * 2 ^ 6 + b) * 2 ^ 6 + c) * 2 ^ 6 + d) * 2 ^ 6 + e) * 2 ^ 6 + f := by omega

theorem min_iff {k lo : ℕ} (hk : k ≤ 6) (ha : lo ≤ a.toNat) (hb : Tail b) :
    2 ^ k ≤ (a.toNat - lo) * 2 ^ 6 + (b.toNat - 128) ↔ ¬(a.toNat = lo ∧ b.toNat / 2 ^ k * 2 ^ k = 128) := by
  have hsplit : 128 = 2 ^ k * 2 ^ (7 - k) := by rw [← Nat.pow_add,show k + (7 - k) = 7 by omega]
  have hlow : b.toNat / 2 ^ k * 2 ^ k = 128 ↔ b.toNat - 128 < 2 ^ k := by
    obtain ⟨y,hy⟩ := Nat.exists_eq_add_of_le hb.1
    rw [hy,Nat.add_sub_cancel_left,hsplit,Nat.mul_add_div (Nat.two_pow_pos k),Nat.add_mul,Nat.mul_comm (2 ^ (7 - k)),
      Nat.add_eq_left,Nat.mul_eq_zero,Nat.div_eq_zero_iff]
    have := Nat.two_pow_pos k
    omega
  have hle : 2 ^ k ≤ 2 ^ 6 := Nat.pow_le_pow_right (by decide) hk
  rw [hlow]
  omega

theorem three_min (ha : 224 ≤ a.toNat) (hb : Tail b) (hc : Tail c) :
    2 ^ 11 ≤ (a.toNat - 224) * 2 ^ 12 + (b.toNat - 128) * 2 ^ 6 + (c.toNat - 128) ↔
      ¬(a.toNat = 224 ∧ b.toNat / 2 ^ 5 * 2 ^ 5 = 128) := by
  rw [three_digits,show (2 : ℕ) ^ 11 = 2 ^ 5 * 2 ^ 6 from rfl,← Nat.le_div_iff_mul_le (by decide),hc.div _ 0,
    ← min_iff (by decide) ha hb,Nat.pow_zero,Nat.div_one]

theorem four_min (ha : 240 ≤ a.toNat) (hb : Tail b) (hc : Tail c) (hd : Tail d) :
    2 ^ 16 ≤ (a.toNat - 240) * 2 ^ 18 + (b.toNat - 128) * 2 ^ 12 + (c.toNat - 128) * 2 ^ 6 + (d.toNat - 128) ↔
      ¬(a.toNat = 240 ∧ b.toNat / 2 ^ 4 * 2 ^ 4 = 128) := by
  rw [four_digits,show (2 : ℕ) ^ 16 = 2 ^ 4 * 2 ^ 12 from rfl,← Nat.le_div_iff_mul_le (by decide),hd.div _ 6,hc.div _ 0,
    ← min_iff (by decide) ha hb,Nat.pow_zero,Nat.div_one]

theorem five_min (ha : 248 ≤ a.toNat) (hb : Tail b) (hc : Tail c) (hd : Tail d) (he : Tail e) :
    2 ^ 21 ≤ (a.toNat - 248) * 2 ^ 24 + (b.toNat - 128) * 2 ^ 18 + (c.toNat - 128) * 2 ^ 12 + (d.toNat - 128) * 2 ^ 6 +
      (e.toNat - 128) ↔ ¬(a.toNat = 248 ∧ b.toNat / 2 ^ 3 * 2 ^ 3 = 128) := by
  rw [five_digits,show (2 : ℕ) ^ 21 = 2 ^ 3 * 2 ^ 18 from rfl,← Nat.le_div_iff_mul_le (by decide),he.div _ 12,hd.div _ 6,
    hc.div _ 0,← min_iff (by decide) ha hb,Nat.pow_zero,Nat.div_one]

theorem six_min (ha : 252 ≤ a.toNat) (hb : Tail b) (hc : Tail c) (hd : Tail d) (he : Tail e) (hf : Tail f) :
    2 ^ 26 ≤ (a.toNat - 252) * 2 ^ 30 + (b.toNat - 128) * 2 ^ 24 + (c.toNat - 128) * 2 ^ 18 + (d.toNat - 128) * 2 ^ 12 +
      (e.toNat - 128) * 2 ^ 6 + (f.toNat - 128) ↔ ¬(a.toNat = 252 ∧ b.toNat / 2 ^ 2 * 2 ^ 2 = 128) := by
  rw [six_digits,show (2 : ℕ) ^ 26 = 2 ^ 2 * 2 ^ 24 from rfl,← Nat.le_div_iff_mul_le (by decide),hf.div _ 18,he.div _ 12,
    hd.div _ 6,hc.div _ 0,← min_iff (by decide) ha hb,Nat.pow_zero,Nat.div_one]

/-! ## Validation -/

theorem utf8ValidateChar_eq {s : List UInt8} {max : ℕ} (hn : 0 ≤ n) : utf8ValidateChar (c :: s) max = some n ↔
    n = utf8Nbytes c ∧ ¬(max > 0 ∧ n > max) ∧ utf8Conts s (n.toNat - 1) = some true ∧
    utf8Overlong n.toNat c (s.getD 0 0) = false := by
  have hfirst : (c :: s)[0]? = some c := rfl
  have hsecond : (c :: s).getD 1 0 = s.getD 0 0 := rfl
  have hrest : (c :: s).drop 1 = s := rfl
  rw [utf8ValidateChar,hfirst,hsecond,hrest,Option.bind_eq_bind,Option.bind_some]
  by_cases hbad : utf8Nbytes c < 0 ∨ max > 0 ∧ utf8Nbytes c > max
  · rw [if_pos hbad]
    constructor
    · intro h
      cases h
      omega
    · rintro ⟨rfl,h,-⟩
      omega
  rw [if_neg hbad]
  rw [not_or] at hbad
  cases hcont : utf8Conts s ((utf8Nbytes c).toNat - 1) with
  | none =>
    constructor
    · intro h
      cases h
    · rintro ⟨rfl,-,h,-⟩
      rw [hcont] at h
      cases h
  | some ok =>
    rw [Option.bind_eq_bind,Option.bind_some]
    cases ok with
    | false =>
      constructor
      · intro h
        cases h
        omega
      · rintro ⟨rfl,-,h,-⟩
        rw [hcont] at h
        cases h
    | true =>
      rw [if_neg Bool.true_eq_false_eq_False]
      cases hover : utf8Overlong (utf8Nbytes c).toNat c (s.getD 0 0) with
      | true =>
        constructor
        · intro h
          cases h
          omega
        · rintro ⟨rfl,-,-,h⟩
          rw [hover] at h
          cases h
      | false =>
        constructor
        · intro h
          cases h
          exact ⟨rfl,hbad.2,hcont,hover⟩
        · rintro ⟨rfl,-⟩
          rfl

theorem utf8ValidateChar_sound {max : ℕ} (h : utf8ValidateChar src max = some n) (hn : 0 ≤ n) :
    ∃ v m t, src = m ++ t ∧ n = m.length ∧ Enc v m := by
  cases src with
  | nil => cases h
  | cons a s =>
    obtain ⟨hlen,-,hconts,hover⟩ := (utf8ValidateChar_eq hn).1 h
    rw [utf8Nbytes_eq] at hlen
    have ha := a.toNat_lt
    by_cases h1 : a.toNat < 128
    · rw [if_pos h1] at hlen
      subst hlen
      exact ⟨_,[a],s,rfl,rfl,.one h1 rfl⟩
    by_cases hbad : a.toNat < 192 ∨ 254 ≤ a.toNat
    · exfalso
      split_ifs at hlen <;> lia
    rw [if_neg h1,if_neg (by lia)] at hlen
    by_cases h2 : a.toNat < 224
    · rw [if_pos h2] at hlen
      subst hlen
      obtain ⟨b,s,rfl,hb,-⟩ := utf8Conts_true hconts
      have hov : ¬(a &&& 0xFE == 0xC0) = true := by simpa [utf8Overlong] using hover
      rw [beq_iff_eq,byte_high (k := 1) rfl (by decide),show (0xC0 : UInt8).toNat = 192 from rfl] at hov
      have hb' := hb
      unfold Tail at hb'
      exact ⟨_,[a,b],s,rfl,rfl,.two (by lia) hb rfl (by lia)⟩
    rw [if_neg h2] at hlen
    by_cases h3 : a.toNat < 240
    · rw [if_pos h3] at hlen
      subst hlen
      obtain ⟨b,s,rfl,hb,hconts⟩ := utf8Conts_true hconts
      obtain ⟨c,s,rfl,hc,-⟩ := utf8Conts_true hconts
      have hov : ¬(a == 0xE0 && b &&& 0xE0 == 0x80) = true := by simpa [utf8Overlong] using hover
      rw [overlong_iff (k := 5) rfl (by decide) rfl,show (0xE0 : UInt8).toNat = 224 from rfl] at hov
      have hlead : 224 ≤ a.toNat ∧ a.toNat < 240 := by lia
      exact ⟨_,[a,b,c],s,rfl,rfl,.three hlead hb hc rfl ((three_min hlead.1 hb hc).2 hov)⟩
    rw [if_neg h3] at hlen
    by_cases h4 : a.toNat < 248
    · rw [if_pos h4] at hlen
      subst hlen
      obtain ⟨b,s,rfl,hb,hconts⟩ := utf8Conts_true hconts
      obtain ⟨c,s,rfl,hc,hconts⟩ := utf8Conts_true hconts
      obtain ⟨d,s,rfl,hd,-⟩ := utf8Conts_true hconts
      have hov : ¬(a == 0xF0 && b &&& 0xF0 == 0x80) = true := by simpa [utf8Overlong] using hover
      rw [overlong_iff (k := 4) rfl (by decide) rfl,show (0xF0 : UInt8).toNat = 240 from rfl] at hov
      have hlead : 240 ≤ a.toNat ∧ a.toNat < 248 := by lia
      exact ⟨_,[a,b,c,d],s,rfl,rfl,.four hlead hb hc hd rfl ((four_min hlead.1 hb hc hd).2 hov)⟩
    rw [if_neg h4] at hlen
    by_cases h5 : a.toNat < 252
    · rw [if_pos h5] at hlen
      subst hlen
      obtain ⟨b,s,rfl,hb,hconts⟩ := utf8Conts_true hconts
      obtain ⟨c,s,rfl,hc,hconts⟩ := utf8Conts_true hconts
      obtain ⟨d,s,rfl,hd,hconts⟩ := utf8Conts_true hconts
      obtain ⟨e,s,rfl,he,-⟩ := utf8Conts_true hconts
      have hov : ¬(a == 0xF8 && b &&& 0xF8 == 0x80) = true := by simpa [utf8Overlong] using hover
      rw [overlong_iff (k := 3) rfl (by decide) rfl,show (0xF8 : UInt8).toNat = 248 from rfl] at hov
      have hlead : 248 ≤ a.toNat ∧ a.toNat < 252 := by lia
      exact ⟨_,[a,b,c,d,e],s,rfl,rfl,.five hlead hb hc hd he rfl ((five_min hlead.1 hb hc hd he).2 hov)⟩
    rw [if_neg h5,if_pos (by lia)] at hlen
    subst hlen
    obtain ⟨b,s,rfl,hb,hconts⟩ := utf8Conts_true hconts
    obtain ⟨c,s,rfl,hc,hconts⟩ := utf8Conts_true hconts
    obtain ⟨d,s,rfl,hd,hconts⟩ := utf8Conts_true hconts
    obtain ⟨e,s,rfl,he,hconts⟩ := utf8Conts_true hconts
    obtain ⟨f,s,rfl,hf,-⟩ := utf8Conts_true hconts
    have hov : ¬(a == 0xFC && b &&& 0xFC == 0x80) = true := by simpa [utf8Overlong] using hover
    rw [overlong_iff (k := 2) rfl (by decide) rfl,show (0xFC : UInt8).toNat = 252 from rfl] at hov
    have hlead : 252 ≤ a.toNat ∧ a.toNat < 254 := by lia
    exact ⟨_,[a,b,c,d,e,f],s,rfl,rfl,.six hlead hb hc hd he hf rfl ((six_min hlead.1 hb hc hd he hf).2 hov)⟩

theorem utf8Conts_tails {s : List UInt8} (h : ∀ b ∈ s, Tail b) (t : List UInt8) : utf8Conts (s ++ t) s.length = some true := by
  induction s with
  | nil => cases t <;> rfl
  | cons b s ih =>
    rw [List.forall_mem_cons] at h
    exact (utf8Conts_tail h.1 _ _).trans (ih h.2)

theorem Enc.nbytes (h : Enc v m) : ∃ c s, m = c :: s ∧ utf8Nbytes c = m.length ∧ ∀ b ∈ s, Tail b := by
  cases h with
  | one ha =>
    refine ⟨_,[],rfl,?_,by simp⟩
    rw [utf8Nbytes_eq,if_pos ha]
    rfl
  | @two a b ha hb =>
    refine ⟨a,[b],rfl,?_,by simp [hb]⟩
    rw [utf8Nbytes_eq,if_neg (by lia),if_neg (by lia),if_pos ha.2]
    rfl
  | @three a b c ha hb hc =>
    refine ⟨a,[b,c],rfl,?_,by simp [hb, hc]⟩
    rw [utf8Nbytes_eq,if_neg (by lia),if_neg (by lia),if_neg (by lia),if_pos ha.2]
    rfl
  | @four a b c d ha hb hc hd =>
    refine ⟨a,[b,c,d],rfl,?_,by simp [hb, hc, hd]⟩
    rw [utf8Nbytes_eq,if_neg (by lia),if_neg (by lia),if_neg (by lia),if_neg (by lia),if_pos ha.2]
    rfl
  | @five a b c d e ha hb hc hd he =>
    refine ⟨a,[b,c,d,e],rfl,?_,by simp [hb, hc, hd, he]⟩
    rw [utf8Nbytes_eq,if_neg (by lia),if_neg (by lia),if_neg (by lia),if_neg (by lia),if_neg (by lia),if_pos ha.2]
    rfl
  | @six a b c d e f ha hb hc hd he hf =>
    refine ⟨a,[b,c,d,e,f],rfl,?_,by simp [hb, hc, hd, he, hf]⟩
    rw [utf8Nbytes_eq,if_neg (by lia),if_neg (by lia),if_neg (by lia),if_neg (by lia),if_neg (by lia),
      if_neg (by lia),if_pos ha.2]
    rfl

theorem Enc.not_overlong (h : Enc v m) (t : List UInt8) :
    utf8Overlong m.length ((m ++ t).getD 0 0) ((m ++ t).getD 1 0) = false := by
  rw [Bool.eq_false_iff]
  cases h with
  | one => exact nofun
  | @two a b ha hb hv hmin =>
    intro hov
    change (a &&& 0xFE == 0xC0) = true at hov
    rw [beq_iff_eq,byte_high (k := 1) rfl (by decide),show (0xC0 : UInt8).toNat = 192 from rfl] at hov
    unfold Tail at hb
    omega
  | @three a b c ha hb hc hv hmin =>
    intro hov
    change (a == 0xE0 && b &&& 0xE0 == 0x80) = true at hov
    rw [overlong_iff (k := 5) rfl (by decide) rfl,show (0xE0 : UInt8).toNat = 224 from rfl] at hov
    exact (three_min ha.1 hb hc).1 (hv ▸ hmin) hov
  | @four a b c d ha hb hc hd hv hmin =>
    intro hov
    change (a == 0xF0 && b &&& 0xF0 == 0x80) = true at hov
    rw [overlong_iff (k := 4) rfl (by decide) rfl,show (0xF0 : UInt8).toNat = 240 from rfl] at hov
    exact (four_min ha.1 hb hc hd).1 (hv ▸ hmin) hov
  | @five a b c d e ha hb hc hd he hv hmin =>
    intro hov
    change (a == 0xF8 && b &&& 0xF8 == 0x80) = true at hov
    rw [overlong_iff (k := 3) rfl (by decide) rfl,show (0xF8 : UInt8).toNat = 248 from rfl] at hov
    exact (five_min ha.1 hb hc hd he).1 (hv ▸ hmin) hov
  | @six a b c d e f ha hb hc hd he hf hv hmin =>
    intro hov
    change (a == 0xFC && b &&& 0xFC == 0x80) = true at hov
    rw [overlong_iff (k := 2) rfl (by decide) rfl,show (0xFC : UInt8).toNat = 252 from rfl] at hov
    exact (six_min ha.1 hb hc hd he hf).1 (hv ▸ hmin) hov

theorem Enc.validate (h : Enc v m) (t : List UInt8) : utf8ValidateChar (m ++ t) (m ++ t).length = some (m.length : ℤ) := by
  obtain ⟨c,s,rfl,hlen,htails⟩ := h.nbytes
  refine (utf8ValidateChar_eq (Int.natCast_nonneg _)).2 ⟨hlen.symm,?_,utf8Conts_tails htails t,h.not_overlong t⟩
  rw [List.length_append]
  omega

theorem Enc.length_pos (h : Enc v m) : 0 < m.length := by
  cases h <;> exact Nat.succ_pos _

theorem Enc.append_ne_nil (h : Enc v m) : m ++ t ≠ [] := by
  intro he
  have hpos := h.length_pos
  rw [(List.append_eq_nil_iff.1 he).1] at hpos
  exact absurd hpos (by decide)

/-! ## Decoding -/

theorem Tail.low (h : Tail b) : b.toNat &&& 0x3F = b.toNat - 128 := by
  unfold Tail at h
  rw [and_low (m := 0x3F) (n := 6) rfl]
  omega

theorem or_tail {x k : ℕ} (hb : Tail b) (hx : 2 ^ (k + 6) ∣ x) :
    x ||| (b.toNat &&& 0x3F) <<< k = x + (b.toNat - 128) * 2 ^ k := by
  have hlt : (b.toNat - 128) * 2 ^ k < 2 ^ (k + 6) := by
    have h64 : b.toNat - 128 < 2 ^ 6 := by
      have := hb.lt
      omega
    rw [Nat.pow_add,Nat.mul_comm]
    exact Nat.mul_lt_mul_of_pos_left h64 (Nat.two_pow_pos k)
  rw [hb.low,Nat.shiftLeft_eq,or_low hx hlt]

theorem or_last {x : ℕ} (hb : Tail b) (hx : 2 ^ 6 ∣ x) : x ||| (b.toNat &&& 0x3F) <<< 0 = x + (b.toNat - 128) := by
  rw [or_tail hb hx,Nat.pow_zero,Nat.mul_one]

theorem lead_low {lo hi n m : ℕ} (ha : lo ≤ a.toNat ∧ a.toNat < hi) (hhi : hi = lo + 2 ^ n) (hlo : 2 ^ n ∣ lo)
    (hm : m = 2 ^ n - 1) : a.toNat &&& m = a.toNat - lo := by
  obtain ⟨q,rfl⟩ := hlo
  obtain ⟨r,hr⟩ := Nat.exists_eq_add_of_le ha.1
  rw [and_low hm,hr,Nat.mul_add_mod,Nat.add_sub_cancel_left,Nat.mod_eq_of_lt (by omega)]

theorem Enc.decode (h : Enc v m) (t : List UInt8) : utf8Decode (m ++ t) m.length = v := by
  cases h with
  | @one a ha hv =>
    change (a.toNat &&& 0x7F) <<< 0 = v
    rw [and_low (m := 0x7F) (n := 7) rfl,Nat.shiftLeft_zero]
    lia
  | @two a b ha hb hv hmin =>
    change (a.toNat &&& 0x1F) <<< 6 ||| (b.toNat &&& 0x3F) <<< 0 = v
    refine Eq.trans ?_ hv.symm
    clear hv hmin
    rw [lead_low (m := 0x1F) (n := 5) ha rfl (by decide) rfl,Nat.shiftLeft_eq,or_last hb (by lia)]
  | @three a b c ha hb hc hv hmin =>
    change ((a.toNat &&& 0x0F) <<< 12 ||| (b.toNat &&& 0x3F) <<< 6) ||| (c.toNat &&& 0x3F) <<< 0 = v
    refine Eq.trans ?_ hv.symm
    clear hv hmin
    rw [lead_low (m := 0x0F) (n := 4) ha rfl (by decide) rfl,Nat.shiftLeft_eq,or_tail hb (by lia),or_last hc (by lia)]
  | @four a b c d ha hb hc hd hv hmin =>
    change (((a.toNat &&& 0x07) <<< 18 ||| (b.toNat &&& 0x3F) <<< 12) ||| (c.toNat &&& 0x3F) <<< 6) |||
      (d.toNat &&& 0x3F) <<< 0 = v
    refine Eq.trans ?_ hv.symm
    clear hv hmin
    rw [lead_low (m := 0x07) (n := 3) ha rfl (by decide) rfl,Nat.shiftLeft_eq,or_tail hb (by lia),or_tail hc (by lia),
      or_last hd (by lia)]
  | @five a b c d e ha hb hc hd he hv hmin =>
    change ((((a.toNat &&& 0x03) <<< 24 ||| (b.toNat &&& 0x3F) <<< 18) ||| (c.toNat &&& 0x3F) <<< 12) |||
      (d.toNat &&& 0x3F) <<< 6) ||| (e.toNat &&& 0x3F) <<< 0 = v
    refine Eq.trans ?_ hv.symm
    clear hv hmin
    rw [lead_low (m := 0x03) (n := 2) ha rfl (by decide) rfl,Nat.shiftLeft_eq,or_tail hb (by lia),or_tail hc (by lia),
      or_tail hd (by lia),or_last he (by lia)]
  | @six a b c d e f ha hb hc hd he hf hv hmin =>
    change (((((a.toNat &&& 0x01) <<< 30 ||| (b.toNat &&& 0x3F) <<< 24) ||| (c.toNat &&& 0x3F) <<< 18) |||
      (d.toNat &&& 0x3F) <<< 12) ||| (e.toNat &&& 0x3F) <<< 6) ||| (f.toNat &&& 0x3F) <<< 0 = v
    refine Eq.trans ?_ hv.symm
    clear hv hmin
    rw [lead_low (m := 0x01) (n := 1) ha rfl (by decide) rfl,Nat.shiftLeft_eq,or_tail hb (by lia),or_tail hc (by lia),
      or_tail hd (by lia),or_tail he (by lia),or_last hf (by lia)]

/-! ## Encoding -/

theorem Enc.lt (h : Enc v m) : v < 2 ^ 31 := by
  cases h with
  | one => lia
  | two ha hb => have := hb.lt; lia
  | three ha hb hc => have := hb.lt; have := hc.lt; lia
  | four ha hb hc hd => have := hb.lt; have := hc.lt; have := hd.lt; lia
  | five ha hb hc hd he => have := hb.lt; have := hc.lt; have := hd.lt; have := he.lt; lia
  | six ha hb hc hd he hf => have := hb.lt; have := hc.lt; have := hd.lt; have := he.lt; have := hf.lt; lia

theorem utf8EncLen_eq (hv : v < 2 ^ 31) : utf8EncLen v = if v < 2 ^ 7 then 1 else if v < 2 ^ 11 then 2 else if v < 2 ^ 16 then 3
    else if v < 2 ^ 21 then 4 else if v < 2 ^ 26 then 5 else 6 := by
  have hv' : v < 2 ^ 32 := by omega
  have hzero : ∀ {x k : ℕ}, x = 2 ^ 32 - 2 ^ k → k ≤ 32 → (v &&& x = 0 ↔ v < 2 ^ k) := fun hx hk => and_high_eq_zero hx hv' hk
  rw [utf8EncLen,if_neg (not_not.2 ((hzero (x := 0x80000000) (k := 31) rfl (by decide)).2 hv))]
  simp only [hzero (x := 0xFFFFFF80) (k := 7) rfl (by decide), hzero (x := 0xFFFFF800) (k := 11) rfl (by decide),
    hzero (x := 0xFFFF0000) (k := 16) rfl (by decide), hzero (x := 0xFFE00000) (k := 21) rfl (by decide),
    hzero (x := 0xFC000000) (k := 26) rfl (by decide)]

theorem Enc.encLen (h : Enc v m) : utf8EncLen v = m.length := by
  rw [utf8EncLen_eq h.lt]
  cases h with
  | one ha => exact if_pos (by lia)
  | two ha hb =>
    have := hb.lt
    rw [if_neg (by lia),if_pos (by lia)]
    rfl
  | three ha hb hc =>
    have := hb.lt
    have := hc.lt
    rw [if_neg (by lia),if_neg (by lia),if_pos (by lia)]
    rfl
  | four ha hb hc hd =>
    have := hb.lt
    have := hc.lt
    have := hd.lt
    rw [if_neg (by lia),if_neg (by lia),if_neg (by lia),if_pos (by lia)]
    rfl
  | five ha hb hc hd he =>
    have := hb.lt
    have := hc.lt
    have := hd.lt
    have := he.lt
    rw [if_neg (by lia),if_neg (by lia),if_neg (by lia),if_neg (by lia),if_pos (by lia)]
    rfl
  | six =>
    rw [if_neg (by lia),if_neg (by lia),if_neg (by lia),if_neg (by lia),if_neg (by lia)]
    rfl

theorem field {x y k n : ℕ} (hy : y = (2 ^ n - 1) <<< k) (hx : 2 ^ n ∣ x) : x ||| (v &&& y) >>> k = x + v / 2 ^ k % 2 ^ n := by
  rw [and_shiftRight hy,or_low hx (Nat.mod_lt _ (Nat.two_pow_pos n))]

theorem field_zero {x y n : ℕ} (hy : y = 2 ^ n - 1) (hx : 2 ^ n ∣ x) : x ||| v &&& y = x + v % 2 ^ n := by
  rw [and_low hy,or_low hx (Nat.mod_lt _ (Nat.two_pow_pos n))]

theorem ofNat_eq {x : ℕ} (hx : x = a.toNat) : UInt8.ofNat x = a := by
  rw [hx,UInt8.ofNat_toNat]

theorem utf8Encode_two (v : ℕ) : utf8Encode v 2 = [UInt8.ofNat (192 + v / 2 ^ 6 % 2 ^ 5),UInt8.ofNat (128 + v % 2 ^ 6)] := by
  simp only [utf8Encode, field (x := 0xC0) (y := 0x7C0) (k := 6) (n := 5) rfl (by decide),
    field_zero (x := 0x80) (y := 0x3F) (n := 6) rfl (by decide)]

theorem utf8Encode_three (v : ℕ) : utf8Encode v 3 =
    [UInt8.ofNat (224 + v / 2 ^ 12 % 2 ^ 4),UInt8.ofNat (128 + v / 2 ^ 6 % 2 ^ 6),UInt8.ofNat (128 + v % 2 ^ 6)] := by
  simp only [utf8Encode, field (x := 0xE0) (y := 0xF000) (k := 12) (n := 4) rfl (by decide),
    field (x := 0x80) (y := 0xFC0) (k := 6) (n := 6) rfl (by decide), field_zero (x := 0x80) (y := 0x3F) (n := 6) rfl (by decide)]

theorem utf8Encode_four (v : ℕ) : utf8Encode v 4 =
    [UInt8.ofNat (240 + v / 2 ^ 18 % 2 ^ 3),UInt8.ofNat (128 + v / 2 ^ 12 % 2 ^ 6),UInt8.ofNat (128 + v / 2 ^ 6 % 2 ^ 6),
      UInt8.ofNat (128 + v % 2 ^ 6)] := by
  simp only [utf8Encode, field (x := 0xF0) (y := 0x1C0000) (k := 18) (n := 3) rfl (by decide),
    field (x := 0x80) (y := 0x3F000) (k := 12) (n := 6) rfl (by decide),
    field (x := 0x80) (y := 0xFC0) (k := 6) (n := 6) rfl (by decide), field_zero (x := 0x80) (y := 0x3F) (n := 6) rfl (by decide)]

theorem utf8Encode_five (v : ℕ) : utf8Encode v 5 =
    [UInt8.ofNat (248 + v / 2 ^ 24 % 2 ^ 2),UInt8.ofNat (128 + v / 2 ^ 18 % 2 ^ 6),UInt8.ofNat (128 + v / 2 ^ 12 % 2 ^ 6),
      UInt8.ofNat (128 + v / 2 ^ 6 % 2 ^ 6),UInt8.ofNat (128 + v % 2 ^ 6)] := by
  simp only [utf8Encode, field (x := 0xF8) (y := 0x3000000) (k := 24) (n := 2) rfl (by decide),
    field (x := 0x80) (y := 0xFC0000) (k := 18) (n := 6) rfl (by decide),
    field (x := 0x80) (y := 0x3F000) (k := 12) (n := 6) rfl (by decide),
    field (x := 0x80) (y := 0xFC0) (k := 6) (n := 6) rfl (by decide), field_zero (x := 0x80) (y := 0x3F) (n := 6) rfl (by decide)]

theorem utf8Encode_six (v : ℕ) : utf8Encode v 6 =
    [UInt8.ofNat (252 + v / 2 ^ 30 % 2 ^ 1),UInt8.ofNat (128 + v / 2 ^ 24 % 2 ^ 6),UInt8.ofNat (128 + v / 2 ^ 18 % 2 ^ 6),
      UInt8.ofNat (128 + v / 2 ^ 12 % 2 ^ 6),UInt8.ofNat (128 + v / 2 ^ 6 % 2 ^ 6),UInt8.ofNat (128 + v % 2 ^ 6)] := by
  simp only [utf8Encode, field (x := 0xFC) (y := 0x40000000) (k := 30) (n := 1) rfl (by decide),
    field (x := 0x80) (y := 0x3F000000) (k := 24) (n := 6) rfl (by decide),
    field (x := 0x80) (y := 0xFC0000) (k := 18) (n := 6) rfl (by decide),
    field (x := 0x80) (y := 0x3F000) (k := 12) (n := 6) rfl (by decide),
    field (x := 0x80) (y := 0xFC0) (k := 6) (n := 6) rfl (by decide), field_zero (x := 0x80) (y := 0x3F) (n := 6) rfl (by decide)]

theorem toNat_ofNat {x : ℕ} (hx : x < 256) : (UInt8.ofNat x).toNat = x := by
  rw [UInt8.toNat_ofNat']
  exact Nat.mod_eq_of_lt hx

theorem tail_ofNat (x : ℕ) : Tail (UInt8.ofNat (128 + x % 2 ^ 6)) := by
  rw [Tail,toNat_ofNat (by omega)]
  omega

theorem lead_ofNat {lo hi x n : ℕ} (hx : x < 2 ^ n) (hhi : hi = lo + 2 ^ n) (hle : hi ≤ 256) :
    lo ≤ (UInt8.ofNat (lo + x)).toNat ∧ (UInt8.ofNat (lo + x)).toNat < hi := by
  rw [toNat_ofNat (by omega)]
  omega

theorem ofNat_sub {lo x : ℕ} (hx : lo + x < 256) : (UInt8.ofNat (lo + x)).toNat - lo = x := by
  rw [toNat_ofNat hx,Nat.add_sub_cancel_left]

theorem tail_sub (x : ℕ) : (UInt8.ofNat (128 + x % 2 ^ 6)).toNat - 128 = x % 2 ^ 6 := ofNat_sub (by omega)

theorem utf8Encode_enc (hv : v < 2 ^ 31) : Enc v (utf8Encode v (utf8EncLen v).toNat) := by
  rw [utf8EncLen_eq hv]
  by_cases h1 : v < 2 ^ 7
  · rw [if_pos h1]
    exact .one (by rw [toNat_ofNat (by omega)]; omega) (toNat_ofNat (by omega)).symm
  by_cases h2 : v < 2 ^ 11
  · rw [if_neg h1,if_pos h2]
    change Enc v (utf8Encode v 2)
    have hlead : v / 2 ^ 6 < 2 ^ 5 := Nat.div_lt_of_lt_mul h2
    rw [utf8Encode_two,Nat.mod_eq_of_lt hlead]
    refine .two (lead_ofNat hlead rfl (by decide)) (tail_ofNat _) ?_ (not_lt.1 h1)
    rw [ofNat_sub (by omega),tail_sub,digit_join_last]
  by_cases h3 : v < 2 ^ 16
  · rw [if_neg h1,if_neg h2,if_pos h3]
    change Enc v (utf8Encode v 3)
    have hlead : v / 2 ^ 12 < 2 ^ 4 := Nat.div_lt_of_lt_mul h3
    rw [utf8Encode_three,Nat.mod_eq_of_lt hlead]
    refine .three (lead_ofNat hlead rfl (by decide)) (tail_ofNat _) (tail_ofNat _) ?_ (not_lt.1 h2)
    rw [ofNat_sub (by omega),tail_sub,tail_sub,three_digits,digit_join _ 6,digit_join_last]
  by_cases h4 : v < 2 ^ 21
  · rw [if_neg h1,if_neg h2,if_neg h3,if_pos h4]
    change Enc v (utf8Encode v 4)
    have hlead : v / 2 ^ 18 < 2 ^ 3 := Nat.div_lt_of_lt_mul h4
    rw [utf8Encode_four,Nat.mod_eq_of_lt hlead]
    refine .four (lead_ofNat hlead rfl (by decide)) (tail_ofNat _) (tail_ofNat _) (tail_ofNat _) ?_ (not_lt.1 h3)
    rw [ofNat_sub (by omega),tail_sub,tail_sub,tail_sub,four_digits,digit_join _ 12,digit_join _ 6,digit_join_last]
  by_cases h5 : v < 2 ^ 26
  · rw [if_neg h1,if_neg h2,if_neg h3,if_neg h4,if_pos h5]
    change Enc v (utf8Encode v 5)
    have hlead : v / 2 ^ 24 < 2 ^ 2 := Nat.div_lt_of_lt_mul h5
    rw [utf8Encode_five,Nat.mod_eq_of_lt hlead]
    refine .five (lead_ofNat hlead rfl (by decide)) (tail_ofNat _) (tail_ofNat _) (tail_ofNat _) (tail_ofNat _) ?_ (not_lt.1 h4)
    rw [ofNat_sub (by omega),tail_sub,tail_sub,tail_sub,tail_sub,five_digits,digit_join _ 18,digit_join _ 12,digit_join _ 6,
      digit_join_last]
  rw [if_neg h1,if_neg h2,if_neg h3,if_neg h4,if_neg h5]
  change Enc v (utf8Encode v 6)
  have hlead : v / 2 ^ 30 < 2 ^ 1 := Nat.div_lt_of_lt_mul hv
  rw [utf8Encode_six,Nat.mod_eq_of_lt hlead]
  refine .six (lead_ofNat hlead rfl (by decide)) (tail_ofNat _) (tail_ofNat _) (tail_ofNat _) (tail_ofNat _) (tail_ofNat _) ?_
    (not_lt.1 h5)
  rw [ofNat_sub (by omega),tail_sub,tail_sub,tail_sub,tail_sub,tail_sub,six_digits,digit_join _ 24,digit_join _ 18,
    digit_join _ 12,digit_join _ 6,digit_join_last]

theorem Tail.ofNat (hb : Tail b) : UInt8.ofNat (128 + (b.toNat - 128)) = b := ofNat_eq (Nat.add_sub_of_le hb.1)

theorem lead_eq {lo hi n : ℕ} (ha : lo ≤ a.toNat ∧ a.toNat < hi) (hhi : hi = lo + 2 ^ n) :
    UInt8.ofNat (lo + (a.toNat - lo) % 2 ^ n) = a := by
  refine ofNat_eq ?_
  rw [Nat.mod_eq_of_lt (by omega)]
  exact Nat.add_sub_of_le ha.1

theorem Enc.encode (h : Enc v m) : utf8Encode v m.length = m := by
  cases h with
  | one ha hv =>
    rw [hv]
    exact congrArg (fun x => [x]) (UInt8.ofNat_toNat)
  | @two a b ha hb hv =>
    change utf8Encode v 2 = _
    rw [utf8Encode_two,hv,hb.div _ 0,hb.mod,hb.ofNat,Nat.pow_zero,Nat.div_one,lead_eq ha rfl]
  | @three a b c ha hb hc hv =>
    change utf8Encode v 3 = _
    rw [utf8Encode_three,hv,three_digits]
    simp only [hc.div, hc.mod, hb.div, hb.mod, Nat.pow_zero, Nat.div_one, hb.ofNat, hc.ofNat, lead_eq (n := 4) ha rfl]
  | @four a b c d ha hb hc hd hv =>
    change utf8Encode v 4 = _
    rw [utf8Encode_four,hv,four_digits]
    simp only [hd.div, hd.mod, hc.div, hc.mod, hb.div, hb.mod, Nat.pow_zero, Nat.div_one, hb.ofNat, hc.ofNat, hd.ofNat,
      lead_eq (n := 3) ha rfl]
  | @five a b c d e ha hb hc hd he hv =>
    change utf8Encode v 5 = _
    rw [utf8Encode_five,hv,five_digits]
    simp only [he.div, he.mod, hd.div, hd.mod, hc.div, hc.mod, hb.div, hb.mod, Nat.pow_zero, Nat.div_one, hb.ofNat, hc.ofNat,
      hd.ofNat, he.ofNat, lead_eq (n := 2) ha rfl]
  | @six a b c d e f ha hb hc hd he hf hv =>
    change utf8Encode v 6 = _
    rw [utf8Encode_six,hv,six_digits]
    simp only [hf.div, hf.mod, he.div, he.mod, hd.div, hd.mod, hc.div, hc.mod, hb.div, hb.mod, Nat.pow_zero, Nat.div_one,
      hb.ofNat, hc.ofNat, hd.ofNat, he.ofNat, hf.ofNat, lead_eq (n := 1) ha rfl]

end Catlib.Text
