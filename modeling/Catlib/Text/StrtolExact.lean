import Catlib.Text.Strtol
import Mathlib.Tactic.Linarith
import Mathlib.Tactic.Ring

/-! # When strtol and strtoul read a number as C does

The library of numbers says what should be read. The functions skip less white space, take other letters for
digits and give them other values, and look for a prefix in their own ways.
-/
namespace Catlib.Strtol

open Numeral

variable {s t u w ds : List UInt8} {c : UInt8} {r base : ℕ} {unsigned : Bool} {k v : ℤ}

/-! ## Digits -/

theorem isNum_iff (r : ℕ) (c : UInt8) : isNum r c = true ↔
    48 ≤ lowered c ∧ lowered c ≤ maxn r ∨ 10 < r ∧ 97 ≤ lowered c ∧ lowered c < 97 + r := by
  by_cases hr : r ≤ 10
  · have hm : minc r = 0 := if_pos hr
    simp only [isNum, outside, hm, beq_self_eq_true, Bool.and_true, Bool.true_or, Bool.not_or, Bool.and_eq_true,
      Bool.not_eq_true', decide_eq_false_iff_not]
    omega
  · have hm : minc r = 97 := if_neg hr
    have hx : maxc r = 97 + r - 1 := if_neg hr
    simp only [isNum, outside, hm, hx, Bool.not_and, Bool.or_eq_true, Bool.not_eq_true', Bool.or_eq_false_iff,
      Bool.and_eq_false_iff, decide_eq_false_iff_not]
    simp
    omega

theorem digitOf_le (hr : r ≤ 36) (hd : isDigit r c) (hn : isNum r c) :
    0 ≤ digitOf r (lowered c) ∧ digitOf r (lowered c) ≤ digit c ∧ (digitOf r (lowered c) = digit c ↔ c.toNat ≤ 57) := by
  have hd := digit_lt_of_isDigit hd
  rw [isNum_iff] at hn
  unfold digitOf lowered char maxn at *
  unfold digit at *
  have := c.toNat_lt
  split_ifs at * <;> lia

theorem decimal_of_le (hr : r ≤ 10) (hd : isDigit r c) : c.toNat ≤ 57 := by
  have hd := digit_lt_of_isDigit hd
  unfold digit at hd
  split_ifs at hd <;> omega

theorem value_append (r : ℕ) (ds : List UInt8) (c : UInt8) : value r (ds ++ [c]) = value r ds * r + digit c := by
  rw [value,List.foldl_append]
  rfl

theorem numValue_le (hr : r ≤ 36) (hr0 : 0 < r) (hd : ∀ c ∈ ds, isDigit r c ∧ isNum r c) :
    0 ≤ numValue r ds ∧ numValue r ds ≤ value r ds ∧ (numValue r ds = value r ds ↔ ∀ c ∈ ds, c.toNat ≤ 57) := by
  induction ds using List.reverseRecOn with
  | nil => exact ⟨le_rfl,le_rfl,iff_of_true rfl (by simp)⟩
  | append_singleton ds c ih =>
    obtain ⟨h0,hle,heq⟩ := ih fun x hx => hd x (List.mem_append_left _ hx)
    obtain ⟨d0,dle,deq⟩ := digitOf_le hr (hd c (by simp)).1 (hd c (by simp)).2
    have hmul : numValue r ds * r ≤ value r ds * r := by gcongr
    have hmul0 : 0 ≤ numValue r ds * r := by positivity
    rw [numValue_append,value_append,List.forall_mem_append,List.forall_mem_singleton,← heq,← deq]
    push_cast
    refine ⟨by omega,by omega,fun h => ?_,fun h => by rw [h.1,h.2]⟩
    have hprod : numValue r ds * r = value r ds * r := by omega
    exact ⟨mul_right_cancel₀ (by exact_mod_cast hr0.ne') hprod,by omega⟩

theorem value_lt (hd : ∀ c ∈ ds, isDigit r c) : value r ds < r ^ ds.length := by
  induction ds using List.reverseRecOn with
  | nil => simp [value]
  | append_singleton ds c ih =>
    have h1 := ih fun x hx => hd x (List.mem_append_left _ hx)
    have h2 := digit_lt_of_isDigit (hd c (by simp))
    rw [value_append,List.length_append,List.length_singleton,pow_succ]
    calc value r ds * r + digit c < value r ds * r + r := by omega
      _ = (value r ds + 1) * r := by ring
      _ ≤ r ^ ds.length * r := Nat.mul_le_mul_right _ h1

/-! ## Results -/

/-- The number is one of the type. -/
def Fits (unsigned : Bool) (v : ℤ) : Prop := if unsigned then 0 ≤ v ∧ v < 2 ^ 64 else -2 ^ 63 ≤ v ∧ v < 2 ^ 63

def result (unsigned : Bool) (l : BitVec 64) : ℤ := if unsigned then l.toNat else l.toInt

theorem result_eq_iff (hv : Fits unsigned v) (n : ℤ) : result unsigned (BitVec.ofInt 64 n) = v ↔ (2 ^ 64 : ℤ) ∣ n - v := by
  cases unsigned with
  | true =>
    obtain ⟨h0,h64⟩ := hv
    rw [result,if_pos rfl,BitVec.toNat_ofInt]
    omega
  | false =>
    obtain ⟨h0,h64⟩ := hv
    rw [result,if_neg (by decide),BitVec.toInt_ofInt,Int.bmod_def]
    omega

theorem result_mul_iff (hk : k = 1 ∨ k = -1) {n m : ℤ} (hm : Fits unsigned (k * m)) (h0 : 0 ≤ n) (hn : n ≤ m) :
    result unsigned (BitVec.ofInt 64 (k * n)) = k * m ↔ n = m := by
  rw [result_eq_iff hm]
  have hlt : m < 2 ^ 64 := by
    unfold Fits at hm
    rcases hk with rfl | rfl <;> cases unsigned <;> simp only [if_true, Bool.false_eq_true, if_false] at hm <;> omega
  rcases hk with rfl | rfl <;> omega

/-! ## Where the digits end -/

theorem dropWhile_eq_iff {p q : UInt8 → Bool} (w : List UInt8) :
    w.dropWhile q = w.dropWhile p ↔ (∀ c ∈ w.takeWhile p, q c = true) ∧ ∀ c ∈ (w.dropWhile p).head?, q c = false := by
  induction w with
  | nil => simp
  | cons a w ih =>
    have hshort (p : UInt8 → Bool) : w.dropWhile p ≠ a :: w := fun he => by
      have := (List.dropWhile_suffix p (l := w)).length_le
      rw [he,List.length_cons] at this
      omega
    cases hp : p a <;> cases hq : q a <;> simp only [List.dropWhile_cons, List.takeWhile_cons, hp, hq, if_true,
      Bool.false_eq_true, if_false, List.forall_mem_cons, List.head?_cons, Option.mem_some_iff]
    · simp [hq]
    · exact ⟨fun he => absurd he (hshort q),fun h => by rw [h.2 a rfl] at hq; cases hq⟩
    · exact ⟨fun he => absurd he.symm (hshort p),fun h => by cases h.1.1⟩
    · rw [ih]
      simp

theorem takeWhile_eq_of_dropWhile {p q : UInt8 → Bool} (h : w.dropWhile q = w.dropWhile p) : w.takeWhile q = w.takeWhile p := by
  have he : w.takeWhile q ++ w.dropWhile q = w.takeWhile p ++ w.dropWhile p := by
    rw [List.takeWhile_append_dropWhile,List.takeWhile_append_dropWhile]
  rw [h] at he
  exact List.append_cancel_right he

/-- The digits end for the function where they end in C, and before the terminator if it must not meet that. -/
structure Ends (unsigned : Bool) (r : ℕ) (w : List UInt8) : Prop where
  digits : ∀ c ∈ w.takeWhile (isDigit r), isNum r c = true
  behind : ∀ c ∈ (w.dropWhile (isDigit r)).head?, isNum r c = false
  last : unsigned = false → r ≤ 10 → w.dropWhile (isDigit r) ≠ []

theorem ends_iff : Ends unsigned r w ↔ w.dropWhile (isNum r) = w.dropWhile (isDigit r) ∧
    (unsigned = true ∨ 10 < r ∨ w.dropWhile (isNum r) ≠ []) := by
  rw [dropWhile_eq_iff]
  constructor
  · rintro ⟨hd,hb,hl⟩
    refine ⟨⟨hd,hb⟩,?_⟩
    rw [(dropWhile_eq_iff w).mpr ⟨hd,hb⟩]
    cases unsigned with
    | true => exact .inl rfl
    | false =>
      rcases Nat.lt_or_ge 10 r with hr | hr
      · exact .inr (.inl hr)
      · exact .inr (.inr (hl rfl hr))
  · rintro ⟨⟨hd,hb⟩,hs⟩
    refine ⟨hd,hb,fun hu hr => ?_⟩
    rw [(dropWhile_eq_iff w).mpr ⟨hd,hb⟩] at hs
    rcases hs with h | h | h
    · rw [hu] at h
      cases h
    · omega
    · exact h

theorem Ends.takeWhile (h : Ends unsigned r w) : w.takeWhile (isNum r) = w.takeWhile (isDigit r) :=
  takeWhile_eq_of_dropWhile (ends_iff.mp h).1

/-- The text behind white space and sign is read as C reads it. -/
structure Plain (unsigned : Bool) (base : ℕ) (k : ℤ) (t : List UInt8) : Prop where
  ends : Ends unsigned (radix base t) (behind base t)
  decimal : Fits unsigned (k * value (radix base t) (digitsAt base t)) → ∀ c ∈ digitsAt base t, c.toNat ≤ 57
  auto : base = 0 → hexAt t = false
  octal : base = 8 → t[0]? = some 48 → ∃ c ∈ t[1]?, isDigit 8 c = true
  hex : base = 16 → t[0]? = some 48 → t[1]? = some 120 → hexAt t = true
  capital : base = 16 → t[1]? = some 88 → hexAt t = true →
    Fits unsigned (k * value (radix base t) (digitsAt base t)) → 16 ≤ (digitsAt base t).length

/-- What the functions make of the text is what C makes of it. -/
structure Agrees (unsigned : Bool) (base : ℕ) (k : ℤ) (t : List UInt8) : Prop where
  stops : Stops unsigned base t
  none : digitsAt base t = [] → numDigits base t = []
  some : digitsAt base t ≠ [] → numDigits base t ≠ []
  left : digitsAt base t ≠ [] → (numText base t).dropWhile (isNum (numBase base t)) = (behind base t).dropWhile (isDigit (radix base t))
  value : digitsAt base t ≠ [] → Fits unsigned (k * value (radix base t) (digitsAt base t)) →
    result unsigned (BitVec.ofInt 64 (k * numValue (numBase base t) (numDigits base t))) = k * value (radix base t) (digitsAt base t)

theorem radix_range (hb : base ≠ 1 ∧ base ≤ 36) (t : List UInt8) : 0 < radix base t ∧ radix base t ≤ 36 := by
  unfold radix
  split_ifs <;> omega

theorem result_digits_iff (hb : base ≠ 1 ∧ base ≤ 36) (hk : k = 1 ∨ k = -1)
    (hn : ∀ c ∈ digitsAt base t, isNum (radix base t) c = true)
    (hf : Fits unsigned (k * value (radix base t) (digitsAt base t))) :
    result unsigned (BitVec.ofInt 64 (k * numValue (radix base t) (digitsAt base t))) = k * value (radix base t) (digitsAt base t) ↔
      ∀ c ∈ digitsAt base t, c.toNat ≤ 57 := by
  obtain ⟨hr0,hr⟩ := radix_range hb t
  obtain ⟨h0,hle,hiff⟩ := @numValue_le (digitsAt base t) _ hr hr0 fun c hc => ⟨List.mem_takeWhile_imp hc,hn c hc⟩
  rw [result_mul_iff hk hf h0 hle,hiff]

theorem agrees_same (hb : base ≠ 1 ∧ base ≤ 36) (hk : k = 1 ∨ k = -1) (hr : numBase base t = radix base t)
    (hw : numText base t = behind base t) :
    Agrees unsigned base k t ↔ Ends unsigned (radix base t) (behind base t) ∧
      (Fits unsigned (k * value (radix base t) (digitsAt base t)) → ∀ c ∈ digitsAt base t, c.toNat ≤ 57) := by
  have hnum : numDigits base t = (behind base t).takeWhile (isNum (radix base t)) := by rw [numDigits,hr,hw]
  constructor
  · rintro ⟨hs,hnone,hsome,hleft,hval⟩
    rw [Stops,hr,hw] at hs
    rw [hr,hw] at hleft
    have hdrop : (behind base t).dropWhile (isNum (radix base t)) = (behind base t).dropWhile (isDigit (radix base t)) := by
      by_cases hd : digitsAt base t = []
      · have hn := hnone hd
        rw [hnum] at hn
        have h1 := @List.takeWhile_append_dropWhile _ (isNum (radix base t)) (behind base t)
        have h2 := @List.takeWhile_append_dropWhile _ (isDigit (radix base t)) (behind base t)
        rw [hn,List.nil_append] at h1
        rw [← digitsAt,hd,List.nil_append] at h2
        rw [h1,h2]
      · exact hleft hd
    have hends : Ends unsigned (radix base t) (behind base t) := ends_iff.mpr ⟨hdrop,hs⟩
    refine ⟨hends,fun hf => ?_⟩
    by_cases hd : digitsAt base t = []
    · simp [hd]
    · have := hval hd hf
      rw [hr,hnum,hends.takeWhile] at this
      exact (result_digits_iff hb hk hends.digits hf).mp this
  · rintro ⟨hends,hdec⟩
    obtain ⟨hdrop,hs⟩ := ends_iff.mp hends
    have hsame : numDigits base t = digitsAt base t := by rw [hnum,hends.takeWhile,digitsAt]
    refine ⟨?_,fun h => hsame.trans h,fun h => hsame ▸ h,fun _ => ?_,fun _ hf => ?_⟩
    · rw [Stops,hr,hw]
      exact hs
    · rw [hr,hw,hdrop]
    · rw [hr,hsame]
      exact (result_digits_iff hb hk hends.digits hf).mpr (hdec hf)

/-! ## Prefixes -/

theorem hexAt_cons (h : hexAt t = true) : ∃ x d u, t = 48 :: x :: d :: u ∧ (x = 120 ∨ x = 88) ∧ isDigit 16 d = true := by
  match t, h with
  | [], h => cases h
  | [_], h => simp [hexAt] at h
  | [_,_], h => simp [hexAt] at h
  | c :: x :: d :: u, h =>
    simp only [hexAt, List.getElem?_cons_zero, List.getElem?_cons_succ, Bool.and_eq_true, Bool.or_eq_true, beq_iff_eq,
      Option.some.injEq, Option.any_some] at h
    exact ⟨x,d,u,by rw [h.1.1],h.1.2,h.2⟩

theorem dropWhile_length (p : UInt8 → Bool) (w : List UInt8) : (w.dropWhile p).length ≤ w.length :=
  (List.dropWhile_suffix p).length_le

theorem not_agrees_auto (h : hexAt t = true) : ¬ Agrees unsigned 0 k t := by
  obtain ⟨x,d,u,rfl,hx,hd⟩ := hexAt_cons h
  intro ha
  have hp : prefixed 0 (48 :: x :: d :: u) = true := by simp [prefixed, h]
  have hw : behind 0 (48 :: x :: d :: u) = d :: u := if_pos hp
  have hr : radix 0 (48 :: x :: d :: u) = 16 := if_pos hp
  have hne : digitsAt 0 (48 :: x :: d :: u) ≠ [] := by rw [digitsAt,hw,hr,List.takeWhile_cons_of_pos hd]; exact List.cons_ne_nil _ _
  have hleft := congrArg List.length (ha.left hne)
  have hnum : (numText 0 (48 :: x :: d :: u)).dropWhile (isNum (numBase 0 (48 :: x :: d :: u))) = x :: d :: u := by
    rcases hx with rfl | rfl <;> simp [numText, numBase, isNum, outside, lowered, char, maxn, minc, maxc]
  rw [hnum,hw,hr] at hleft
  have := dropWhile_length (isDigit 16) (d :: u)
  simp only [List.length_cons] at *
  omega

theorem agrees_zero (hk : k = 1 ∨ k = -1) (h : hexAt (48 :: 120 :: u) = false) :
    Agrees unsigned 0 k (48 :: 120 :: u) ∧ Plain unsigned 0 k (48 :: 120 :: u) := by
  have hp : prefixed 0 (48 :: 120 :: u) = false := by simp [prefixed, h]
  have hw : behind 0 (48 :: 120 :: u) = 48 :: 120 :: u := if_neg (by simp [hp])
  have hr : radix 0 (48 :: 120 :: u) = 8 := by rw [radix,hp,if_neg (by decide),if_pos rfl]; rfl
  have hd : digitsAt 0 (48 :: 120 :: u) = [48] := by rw [digitsAt,hw,hr]; rfl
  have hn : numDigits 0 (48 :: 120 :: u) = [48] := by
    simp [numDigits, numText, numBase, isNum, outside, lowered, char, maxn, minc, maxc]
  have hdrop : (48 :: 120 :: u).dropWhile (isDigit 8) = 120 :: u := rfl
  have hnum : (numText 0 (48 :: 120 :: u)).dropWhile (isNum (numBase 0 (48 :: 120 :: u))) = 120 :: u := by
    simp [numText, numBase, isNum, outside, lowered, char, maxn, minc, maxc]
  have hb : numBase 0 (48 :: 120 :: u) = 16 := rfl
  refine ⟨⟨.inr (.inl (by rw [hb]; decide)),by rw [hd]; rintro ⟨⟩,fun _ => by rw [hn]; rintro ⟨⟩,fun _ => by rw [hnum,hw,hr,hdrop],fun _ hf => ?_⟩,
    ⟨?_,fun _ c hc => ?_,fun _ => h,by rintro ⟨⟩,by rintro ⟨⟩,by rintro ⟨⟩⟩⟩
  · rw [hd,hr] at hf ⊢
    rw [hn]
    exact (result_mul_iff hk hf le_rfl le_rfl).mpr rfl
  · rw [hw,hr]
    exact ⟨fun c hc => by rw [show (48 :: 120 :: u).takeWhile (isDigit 8) = [48] from rfl,List.mem_singleton] at hc; rw [hc]; rfl,
      fun c hc => by rw [hdrop,List.head?_cons,Option.mem_some_iff] at hc; rw [← hc]; rfl,fun _ _ => by rw [hdrop]; rintro ⟨⟩⟩
  · rw [hd,List.mem_singleton] at hc
    rw [hc]
    decide

theorem agrees_octal (hk : k = 1 ∨ k = -1) : Agrees unsigned 8 k (48 :: u) ↔
    Ends unsigned 8 (48 :: u) ∧ ∃ c ∈ u[0]?, isDigit 8 c = true := by
  have hp : prefixed 8 (48 :: u) = false := by simp [prefixed]
  have hw : behind 8 (48 :: u) = 48 :: u := if_neg (by simp [hp])
  have hr : radix 8 (48 :: u) = 8 := by rw [radix,hp,if_neg (by decide),if_neg (by decide)]
  have hn : numText 8 (48 :: u) = u := rfl
  have hb : numBase 8 (48 :: u) = 8 := rfl
  have h48 : isDigit 8 48 = true := rfl
  have hd : digitsAt 8 (48 :: u) = 48 :: u.takeWhile (isDigit 8) := by rw [digitsAt,hw,hr,List.takeWhile_cons_of_pos h48]
  have hne : digitsAt 8 (48 :: u) ≠ [] := by rw [hd]; exact List.cons_ne_nil _ _
  have hends : Ends unsigned 8 (48 :: u) ↔ u.dropWhile (isNum 8) = u.dropWhile (isDigit 8) ∧
      (unsigned = true ∨ 10 < 8 ∨ u.dropWhile (isNum 8) ≠ []) := by
    rw [ends_iff,List.dropWhile_cons_of_pos h48,List.dropWhile_cons_of_pos (show isNum 8 48 = true from rfl)]
  have hdrop : (behind 8 (48 :: u)).dropWhile (isDigit (radix 8 (48 :: u))) = u.dropWhile (isDigit 8) := by
    rw [hw,hr,List.dropWhile_cons_of_pos h48]
  have hnum : numDigits 8 (48 :: u) = u.takeWhile (isNum 8) := by rw [numDigits,hn]; rfl
  constructor
  · rintro ⟨hs,-,hsome,hleft,-⟩
    have hl := hleft hne
    rw [hdrop,hn,hb] at hl
    refine ⟨hends.mpr ⟨hl,hs⟩,?_⟩
    have hdig := hsome hne
    rw [hnum,takeWhile_eq_of_dropWhile hl] at hdig
    cases u with
    | nil => exact absurd rfl hdig
    | cons c u =>
      refine ⟨c,rfl,?_⟩
      by_contra hc
      exact hdig (List.takeWhile_cons_of_neg hc)
  · rintro ⟨he,c,hc,hdig⟩
    obtain ⟨hl,hs⟩ := hends.mp he
    have htake : numDigits 8 (48 :: u) = u.takeWhile (isDigit 8) := by rw [hnum,takeWhile_eq_of_dropWhile hl]
    refine ⟨hs,fun h => absurd h hne,fun _ => ?_,fun _ => hdrop ▸ hl,fun _ hf => ?_⟩
    · rw [htake]
      cases u with
      | nil => cases hc
      | cons d u =>
        cases hc
        rw [List.takeWhile_cons_of_pos hdig]
        exact List.cons_ne_nil _ _
    · have hval : value 8 (48 :: u.takeWhile (isDigit 8)) = value 8 (u.takeWhile (isDigit 8)) := rfl
      obtain ⟨h0,hle,hiff⟩ := @numValue_le (u.takeWhile (isDigit 8)) 8 (by decide) (by decide) fun c hc =>
        ⟨List.mem_takeWhile_imp hc,he.digits c (by rw [List.takeWhile_cons_of_pos h48]; exact List.mem_cons_of_mem _ hc)⟩
      rw [hd,hr,hval] at hf ⊢
      rw [htake]
      exact (result_mul_iff hk hf h0 hle).mpr (hiff.mpr fun c hc => decimal_of_le (by decide) (List.mem_takeWhile_imp hc))

theorem not_agrees_hex (h : hexAt (48 :: 120 :: u) = false) : ¬ Agrees unsigned 16 k (48 :: 120 :: u) := by
  intro ha
  have hp : prefixed 16 (48 :: 120 :: u) = false := by simp [prefixed, h]
  have hw : behind 16 (48 :: 120 :: u) = 48 :: 120 :: u := if_neg (by simp [hp])
  have hr : radix 16 (48 :: 120 :: u) = 16 := by rw [radix,hp,if_neg (by decide),if_neg (by decide)]
  have hne : digitsAt 16 (48 :: 120 :: u) ≠ [] := by rw [digitsAt,hw,hr]; exact List.cons_ne_nil 48 _
  have hleft := congrArg List.length (ha.left hne)
  have hn : numText 16 (48 :: 120 :: u) = u := rfl
  rw [hn,hw,hr,show (48 :: 120 :: u).dropWhile (isDigit 16) = 120 :: u from rfl,List.length_cons] at hleft
  have := dropWhile_length (isNum (numBase 16 (48 :: 120 :: u))) u
  omega

theorem numValue_append_list (r : ℕ) (ds es : List UInt8) :
    numValue r (ds ++ es) = numValue r ds * r ^ es.length + numValue r es := by
  induction es using List.reverseRecOn with
  | nil => simp [numValue]
  | append_singleton es c ih =>
    rw [← List.append_assoc,numValue_append,numValue_append,ih,List.length_append,List.length_singleton,pow_succ]
    ring

theorem result_capital_iff (hk : k = 1 ∨ k = -1) (hd : ∀ c ∈ ds, isDigit 16 c = true ∧ isNum 16 c = true)
    (hf : Fits unsigned (k * value 16 ds)) :
    result unsigned (BitVec.ofInt 64 (k * numValue 16 (48 :: 88 :: ds))) = k * value 16 ds ↔
      16 ≤ ds.length ∧ ∀ c ∈ ds, c.toNat ≤ 57 := by
  obtain ⟨h0,hle,hiff⟩ := @numValue_le ds 16 (by decide) (by decide) hd
  have happ : numValue 16 (48 :: 88 :: ds) = 8 * 16 ^ ds.length + numValue 16 ds := numValue_append_list 16 [48,88] ds
  rw [happ,← hiff]
  by_cases hlen : 16 ≤ ds.length
  · obtain ⟨m,hm⟩ : (2 ^ 64 : ℤ) ∣ 8 * 16 ^ ds.length := by
      have : (8 * 16 ^ ds.length : ℤ) = 2 ^ 64 * (8 * 16 ^ (ds.length - 16)) := by
        have hp : (16 : ℤ) ^ ds.length = 16 ^ 16 * 16 ^ (ds.length - 16) := by rw [← pow_add,Nat.add_sub_cancel' hlen]
        rw [hp]
        ring
      exact ⟨_,this⟩
    have hmod : result unsigned (BitVec.ofInt 64 (k * (8 * 16 ^ ds.length + numValue 16 ds))) =
        result unsigned (BitVec.ofInt 64 (k * numValue 16 ds)) := by
      congr 1
      rw [hm]
      apply BitVec.eq_of_toInt_eq
      rw [BitVec.toInt_ofInt,BitVec.toInt_ofInt,show k * (2 ^ 64 * m + numValue 16 ds) = k * numValue 16 ds + (k * m) * 2 ^ 64 by ring]
      exact Int.add_mul_bmod_self_right _ _ _
    rw [hmod,result_mul_iff hk hf h0 hle,and_iff_right hlen]
  · have hlt : (value 16 ds : ℤ) < 16 ^ ds.length := by exact_mod_cast value_lt fun c hc => (hd c hc).1
    have hpow : (16 : ℤ) ^ ds.length ≤ 16 ^ 15 := pow_le_pow_right₀ (by decide) (by omega)
    have hpos : (0 : ℤ) < 16 ^ ds.length := by positivity
    rw [result_eq_iff hf]
    refine iff_of_false ?_ fun h => hlen h.1
    rcases hk with rfl | rfl <;> omega

theorem agrees_capital {d : UInt8} (hk : k = 1 ∨ k = -1) (hdig : isDigit 16 d = true) :
    Agrees unsigned 16 k (48 :: 88 :: d :: u) ↔ Ends unsigned 16 (d :: u) ∧
      (Fits unsigned (k * value 16 ((d :: u).takeWhile (isDigit 16))) →
        16 ≤ ((d :: u).takeWhile (isDigit 16)).length ∧ ∀ c ∈ (d :: u).takeWhile (isDigit 16), c.toNat ≤ 57) := by
  have hp : prefixed 16 (48 :: 88 :: d :: u) = true := by simp [prefixed, hexAt, hdig]
  have hw : behind 16 (48 :: 88 :: d :: u) = d :: u := if_pos hp
  have hr : radix 16 (48 :: 88 :: d :: u) = 16 := if_pos hp
  have hd : digitsAt 16 (48 :: 88 :: d :: u) = (d :: u).takeWhile (isDigit 16) := by rw [digitsAt,hw,hr]
  have hne : digitsAt 16 (48 :: 88 :: d :: u) ≠ [] := by rw [hd,List.takeWhile_cons_of_pos hdig]; exact List.cons_ne_nil _ _
  have hb : numBase 16 (48 :: 88 :: d :: u) = 16 := rfl
  have h0 : isNum 16 48 = true := by simp [isNum, outside, lowered, char, maxn, minc, maxc]
  have hX : isNum 16 88 = true := by simp [isNum, outside, lowered, char, maxn, minc, maxc]
  have hdrop : (numText 16 (48 :: 88 :: d :: u)).dropWhile (isNum 16) = (d :: u).dropWhile (isNum 16) := by
    rw [show numText 16 (48 :: 88 :: d :: u) = 48 :: 88 :: d :: u from rfl,List.dropWhile_cons_of_pos h0,List.dropWhile_cons_of_pos hX]
  have hnum : numDigits 16 (48 :: 88 :: d :: u) = 48 :: 88 :: (d :: u).takeWhile (isNum 16) := by
    rw [numDigits,hb,show numText 16 (48 :: 88 :: d :: u) = 48 :: 88 :: d :: u from rfl,List.takeWhile_cons_of_pos h0,
      List.takeWhile_cons_of_pos hX]
  have hstop : Stops unsigned 16 (48 :: 88 :: d :: u) := .inr (.inl (by rw [hb]; decide))
  constructor
  · rintro ⟨-,-,-,hleft,hval⟩
    have hl := hleft hne
    rw [hb,hdrop,hw,hr] at hl
    have he : Ends unsigned 16 (d :: u) := ends_iff.mpr ⟨hl,.inr (.inl (by decide))⟩
    refine ⟨he,fun hf => ?_⟩
    have hv := hval hne (by rw [hd,hr]; exact hf)
    rw [hd,hr,hb,hnum,he.takeWhile] at hv
    exact (result_capital_iff hk (fun c hc => ⟨List.mem_takeWhile_imp hc,he.digits c hc⟩) hf).mp hv
  · rintro ⟨he,hf⟩
    refine ⟨hstop,fun h => absurd h hne,fun _ => by rw [hnum]; exact List.cons_ne_nil _ _,fun _ => ?_,fun _ hfit => ?_⟩
    · rw [hb,hdrop,hw,hr]
      exact (ends_iff.mp he).1
    · rw [hd,hr] at hfit ⊢
      rw [hb,hnum,he.takeWhile]
      exact (result_capital_iff hk (fun c hc => ⟨List.mem_takeWhile_imp hc,he.digits c hc⟩) hfit).mpr (hf hfit)

theorem same_place (h0 : base = 0 → hexAt t = false ∧ ¬ (t[0]? = some 48 ∧ t[1]? = some 120)) (h8 : base = 8 → t[0]? ≠ some 48)
    (hx : base = 16 → t[0]? = some 48 → t[1]? = some 120 → hexAt t = true) (hX : base = 16 → t[1]? = some 88 → hexAt t = false) :
    numBase base t = radix base t ∧ numText base t = behind base t := by
  by_cases hb0 : base = 0
  · obtain ⟨hh,hn⟩ := h0 hb0
    have hp : prefixed base t = false := by simp [prefixed, hh]
    subst hb0
    refine ⟨?_,?_⟩
    · by_cases h48 : t[0]? = some 48
      · have h120 : t[1]? ≠ some 120 := fun h => hn ⟨h48,h⟩
        simp [numBase, radix, hp, h48, h120]
      · simp [numBase, radix, hp, h48]
    · simp [numText, behind, hp]
  · by_cases hb16 : base = 16
    · subst hb16
      have hr : radix 16 t = 16 := by simp [radix]
      refine ⟨by rw [hr]; rfl,?_⟩
      by_cases h1 : t[0]? = some 48 ∧ t[1]? = some 120
      · have hp : prefixed 16 t = true := by simp [prefixed, hx rfl h1.1 h1.2]
        rw [numText,behind,hp,if_neg (by simp),if_pos ⟨rfl,h1⟩,if_pos rfl]
      · have hp : prefixed 16 t = false := by
          by_contra hp
          simp only [prefixed, Bool.not_eq_false, Bool.and_eq_true] at hp
          obtain ⟨x,d,u,rfl,hxx,-⟩ := hexAt_cons hp.2
          rcases hxx with rfl | rfl
          · exact h1 ⟨rfl,rfl⟩
          · rw [hX rfl rfl] at hp
            cases hp.2
        rw [numText,behind,hp,if_neg (by simp),if_neg (fun h => h1 h.2),if_neg (by decide)]
    · have hp : prefixed base t = false := prefixed_of_digit hb0 hb16 t
      refine ⟨by rw [numBase,radix,hp,if_neg hb0,if_neg (by decide),if_neg hb0],?_⟩
      rw [numText,behind,hp,if_neg fun h => h8 h.1 h.2,if_neg fun h => hb16 h.1,if_neg (by decide)]

theorem agrees_iff (hb : base ≠ 1 ∧ base ≤ 36) (hk : k = 1 ∨ k = -1) (t : List UInt8) :
    Agrees unsigned base k t ↔ Plain unsigned base k t := by
  -- a prefix in base 0
  by_cases h0 : base = 0 ∧ hexAt t = true
  · obtain ⟨rfl,hh⟩ := h0
    exact iff_of_false (not_agrees_auto hh) fun h => by rw [h.auto rfl] at hh; cases hh
  by_cases h0x : base = 0 ∧ t[0]? = some 48 ∧ t[1]? = some 120
  · obtain ⟨rfl,h48,hx⟩ := h0x
    rcases t with _ | ⟨_,_ | ⟨_,u⟩⟩
    · cases h48
    · cases hx
    · cases h48
      cases hx
      have := @agrees_zero _ unsigned _ hk (by simpa using h0)
      exact iff_of_true this.1 this.2
  -- the zero of base 8
  by_cases h8 : base = 8 ∧ t[0]? = some 48
  · obtain ⟨rfl,h48⟩ := h8
    rcases t with _ | ⟨_,u⟩
    · cases h48
    · cases h48
      have hr : radix 8 (48 :: u) = 8 := by simp [radix, prefixed]
      have hw : behind 8 (48 :: u) = 48 :: u := by simp [behind, prefixed]
      rw [agrees_octal hk]
      constructor
      · rintro ⟨he,hc⟩
        refine ⟨by rw [hr,hw]; exact he,fun _ c hc' => ?_,by rintro ⟨⟩,fun _ _ => hc,by rintro ⟨⟩,by rintro ⟨⟩⟩
        rw [digitsAt,hr] at hc'
        exact decimal_of_le (by decide) (List.mem_takeWhile_imp hc')
      · intro h
        have he := h.ends
        rw [hr,hw] at he
        exact ⟨he,h.octal rfl rfl⟩
  -- the prefixes of base 16
  by_cases hx : base = 16 ∧ t[0]? = some 48 ∧ t[1]? = some 120 ∧ hexAt t = false
  · obtain ⟨rfl,h48,hx,hh⟩ := hx
    rcases t with _ | ⟨_,_ | ⟨_,u⟩⟩
    · cases h48
    · cases hx
    · cases h48
      cases hx
      exact iff_of_false (not_agrees_hex hh) fun h => by rw [h.hex rfl rfl rfl] at hh; cases hh
  by_cases hX : base = 16 ∧ t[1]? = some 88 ∧ hexAt t = true
  · obtain ⟨rfl,h88,hh⟩ := hX
    obtain ⟨x,d,u,rfl,-,hdig⟩ := hexAt_cons hh
    cases h88
    have hp : prefixed 16 (48 :: 88 :: d :: u) = true := by simp [prefixed, hexAt, hdig]
    have hw : behind 16 (48 :: 88 :: d :: u) = d :: u := if_pos hp
    have hr : radix 16 (48 :: 88 :: d :: u) = 16 := if_pos hp
    have hd : digitsAt 16 (48 :: 88 :: d :: u) = (d :: u).takeWhile (isDigit 16) := by rw [digitsAt,hw,hr]
    rw [agrees_capital hk hdig]
    constructor
    · rintro ⟨he,hf⟩
      refine ⟨by rw [hr,hw]; exact he,?_,by rintro ⟨⟩,by rintro ⟨⟩,fun _ _ _ => hh,fun _ _ _ => ?_⟩ <;> rw [hd,hr]
      · exact fun h => (hf h).2
      · exact fun h => (hf h).1
    · intro h
      obtain ⟨he,hdec,-,-,-,hcap⟩ := h
      rw [hr,hw] at he
      rw [hd,hr] at hdec hcap
      exact ⟨he,fun hf => ⟨hcap rfl rfl hh hf,hdec hf⟩⟩
  -- and no prefix
  obtain ⟨hr,hw⟩ := @same_place t base (fun hb0 => ⟨by simpa [hb0] using h0,fun h => h0x ⟨hb0,h⟩⟩) (fun hb8 h => h8 ⟨hb8,h⟩)
    (fun hb16 h1 h2 => by simpa [hb16, h1, h2] using hx) (fun hb16 h1 => by simpa [hb16, h1] using hX)
  rw [agrees_same hb hk hr hw]
  constructor
  · rintro ⟨he,hd⟩
    exact ⟨he,hd,fun hb0 => by simpa [hb0] using h0,fun hb8 h => absurd ⟨hb8,h⟩ h8,
      fun hb16 h1 h2 => by simpa [hb16, h1, h2] using hx,fun hb16 h1 h2 => absurd ⟨hb16,h1,h2⟩ hX⟩
  · intro h
    exact ⟨h.ends,h.decimal⟩

/-! ## Whole strings -/

/-- A call returns what C reads: the longest number at the beginning, and the string behind it. -/
def ReadsAsC (unsigned : Bool) (base : ℕ) (s : List UInt8) (res : Option (ℤ × List UInt8)) : Prop :=
  ∃ n stop, res = some (n,stop) ∧
    (∀ t v, Longest base s t v → t ++ stop = s ++ [0] ∧ (Fits unsigned v → n = v)) ∧
    ((∀ t v, t <+: s → ¬ Denotes base t v) → stop = s ++ [0])

theorem readsAsC_iff (hb : base ≤ 36) (res : Option (ℤ × List UInt8)) :
    ReadsAsC unsigned base s res ↔ ∃ n stop, res = some (n,stop) ∧
      (∀ v left, Numeral.read base s = some (v,left) → stop = left ++ [0] ∧ (Fits unsigned v → n = v)) ∧
      (Numeral.read base s = none → stop = s ++ [0]) := by
  refine exists_congr fun n => exists_congr fun stop => and_congr_right fun _ => and_congr ?_ ?_
  · constructor
    · intro h v left hr
      obtain ⟨t,hs,hl⟩ := read_longest hb hr
      obtain ⟨he,hv⟩ := h t v hl
      rw [hs,List.append_assoc] at he
      exact ⟨List.append_cancel_left he,hv⟩
    · intro h t v hl
      obtain ⟨left,hr,hs⟩ := (longest_iff hb).mp hl
      obtain ⟨he,hv⟩ := h v left hr
      exact ⟨by rw [he,hs,List.append_assoc],hv⟩
  · rw [read_none_iff hb]

/-- The string is understood: only white space that the functions know stands in front of a text that they
read as C does, or C does not find a number behind the other. -/
structure Understood (unsigned : Bool) (base : ℕ) (s : List UInt8) : Prop where
  plain : (∀ c ∈ s.takeWhile isSpace, blank c = true) → Plain unsigned base (body s).1 (body s).2
  spaces : (∃ c ∈ s.takeWhile isSpace, blank c = false) → ∀ t v, t <+: s → ¬ Denotes base t v

theorem isSpace_of_blank (h : blank c = true) : isSpace c = true := by
  simp only [blank, Bool.or_eq_true, beq_iff_eq] at h
  rcases h with (rfl | rfl) | rfl <;> rfl

theorem signed_eq_body (h : ∀ c ∈ s.takeWhile isSpace, blank c = true) : signed s = body s := by
  have hdrop : s.dropWhile blank = s.dropWhile isSpace := (dropWhile_eq_iff s).mpr ⟨h,fun c hc => by
    by_contra hb
    have := List.head?_dropWhile_not isSpace s
    rw [Option.mem_def.mp hc] at this
    simp [isSpace_of_blank (by simpa using hb)] at this⟩
  rw [signed,body,hdrop]

theorem signed_space (h : ∃ c ∈ s.takeWhile isSpace, blank c = false) :
    ∃ x w, signed s = (1,x :: w) ∧ isSpace x = true ∧ blank x = false := by
  have key : ∃ x w, s.dropWhile blank = x :: w ∧ isSpace x = true ∧ blank x = false := by
    induction s with
    | nil => simp at h
    | cons c s ih =>
      by_cases hc : isSpace c = true
      · rw [List.takeWhile_cons_of_pos hc] at h
        cases hb : blank c with
        | false => exact ⟨c,s,List.dropWhile_cons_of_neg (by simp [hb]),hc,hb⟩
        | true =>
          rw [List.dropWhile_cons_of_pos hb]
          obtain ⟨x,hx,hxb⟩ := h
          rcases List.mem_cons.mp hx with rfl | hx
          · rw [hb] at hxb
            cases hxb
          · exact ih ⟨x,hx,hxb⟩
      · rw [List.takeWhile_cons_of_neg hc] at h
        simp at h
  obtain ⟨x,w,hs,hx,hb⟩ := key
  refine ⟨x,w,?_,hx,hb⟩
  have h45 : x ≠ 45 := by rintro rfl; cases hx
  have h43 : x ≠ 43 := by rintro rfl; cases hx
  rw [signed,hs,splitSign,if_neg h45,if_neg h43]

theorem isNum_space (hx : isSpace c = true) (base : ℕ) : isNum base c = false := by
  by_contra h
  rw [Bool.not_eq_false,isNum_iff] at h
  have hlow : lowered c < 48 := by
    simp only [isSpace, Bool.or_eq_true, beq_iff_eq, Bool.and_eq_true, decide_eq_true_eq, UInt8.le_iff_toNat_le] at hx
    rcases hx with rfl | ⟨-,h13⟩
    · decide
    · have h13 : c.toNat ≤ 13 := h13
      unfold lowered char
      split_ifs <;> omega
  omega

theorem body_sign (s : List UInt8) : (body s).1 = 1 ∨ (body s).1 = -1 := by
  obtain ⟨ws,sg,-,hsg,-⟩ := body_spec s
  generalize (body s).1 = k at hsg
  cases hsg with
  | none => exact .inl rfl
  | plus => exact .inl rfl
  | minus => exact .inr rfl

theorem dropWhile_ne {p : UInt8 → Bool} (hw : w <:+ s) (h : w.takeWhile p ≠ []) : w.dropWhile p ≠ s := by
  intro he
  have h1 := congrArg List.length (@List.takeWhile_append_dropWhile _ p w)
  have h2 := hw.length_le
  have h3 := List.length_pos_of_ne_nil h
  rw [List.length_append,he] at h1
  omega

theorem behind_suffix (base : ℕ) (t : List UInt8) : behind base t <:+ t := by
  unfold behind
  split
  · exact List.drop_suffix _ _
  · exact List.suffix_refl _

/-- Both functions: the word as a number of the type. -/
def strto (unsigned : Bool) (s : List UInt8) (base : ℕ) : Option (ℤ × List UInt8) :=
  (scan unsigned s base).map fun x => (result unsigned x.1,x.2)

theorem readsAsC_iff_agrees (hb : base ≠ 1 ∧ base ≤ 36) (hs : ∀ c ∈ s, c ≠ 0) (hsp : signed s = body s) :
    ReadsAsC unsigned base s (strto unsigned (s ++ [0]) base) ↔ Agrees unsigned base (body s).1 (body s).2 := by
  rw [readsAsC_iff hb.2]
  have hsuf : (body s).2 <:+ s := hsp ▸ signed_suffix s
  have hread : Numeral.read base s = if digitsAt base (body s).2 = [] then none else
      some ((body s).1 * value (radix base (body s).2) (digitsAt base (body s).2),
        (behind base (body s).2).dropWhile (isDigit (radix base (body s).2))) := rfl
  generalize hbt : body s = x at hsuf hread ⊢
  obtain ⟨k,t⟩ := x
  rw [hbt] at hsp
  by_cases hstop : Stops unsigned base t
  · have hscan := scan_eq hs hb (by rw [hsp]; exact hstop)
    rw [hsp] at hscan
    rw [strto,hscan,Option.map_some]
    have hleft : numDigits base t ≠ [] → (numText base t).dropWhile (isNum (numBase base t)) ≠ s :=
      dropWhile_ne ((numText_suffix _ _).trans hsuf)
    by_cases hd : digitsAt base t = []
    · rw [hread,if_pos hd]
      constructor
      · rintro ⟨n,stop,he,-,hnone⟩
        cases he
        refine ⟨hstop,fun _ => ?_,fun h => absurd hd h,fun h => absurd hd h,fun h => absurd hd h⟩
        by_contra hn
        have := hnone rfl
        rw [if_neg hn] at this
        exact hleft hn (List.append_cancel_right this)
      · intro h
        exact ⟨_,_,rfl,nofun,fun _ => if_pos (h.none hd)⟩
    · rw [hread,if_neg hd]
      have hrest : (behind base t).dropWhile (isDigit (radix base t)) ≠ s := dropWhile_ne ((behind_suffix _ _).trans hsuf) hd
      constructor
      · rintro ⟨n,stop,he,hsome,-⟩
        cases he
        obtain ⟨hst,hv⟩ := hsome _ _ rfl
        by_cases hn : numDigits base t = []
        · rw [if_pos hn] at hst
          exact absurd (List.append_cancel_right hst).symm hrest
        · rw [if_neg hn] at hst
          exact ⟨hstop,fun h => absurd h hd,fun _ => hn,fun _ => List.append_cancel_right hst,fun _ => hv⟩
      · intro h
        refine ⟨_,_,rfl,fun v left he => ?_,nofun⟩
        cases he
        exact ⟨by rw [if_neg (h.some hd),h.left hd],h.value hd⟩
  · rw [strto,scan_none hs (by rw [hsp]; exact hstop)]
    exact iff_of_false (fun ⟨_,_,he,_⟩ => by cases he) fun h => hstop h.stops

theorem strto_space (hb : base ≠ 1 ∧ base ≤ 36) (hs : ∀ c ∈ s, c ≠ 0) (h : ∃ c ∈ s.takeWhile isSpace, blank c = false) :
    ∃ n, strto unsigned (s ++ [0]) base = some (n,s ++ [0]) := by
  obtain ⟨x,w,hsig,hx,-⟩ := signed_space h
  have h48 : x ≠ 48 := by rintro rfl; cases hx
  have htext : numText base (x :: w) = x :: w := by simp [numText, h48]
  have hnum := isNum_space hx (numBase base (x :: w))
  have hdig : numDigits base (x :: w) = [] := by rw [numDigits,htext,List.takeWhile_cons_of_neg (by simp [hnum])]
  have hstop : Stops unsigned base (x :: w) := by
    refine .inr (.inr ?_)
    rw [htext,List.dropWhile_cons_of_neg (by simp [hnum])]
    exact List.cons_ne_nil _ _
  have hscan := scan_eq hs hb (by rw [hsig]; exact hstop)
  rw [hsig,if_pos hdig] at hscan
  exact ⟨_,by rw [strto,hscan]; rfl⟩

theorem strto_iff (hb : base ≠ 1 ∧ base ≤ 36) (hs : ∀ c ∈ s, c ≠ 0) :
    ReadsAsC unsigned base s (strto unsigned (s ++ [0]) base) ↔ Understood unsigned base s := by
  by_cases hsp : ∀ c ∈ s.takeWhile isSpace, blank c = true
  · rw [readsAsC_iff_agrees hb hs (signed_eq_body hsp),agrees_iff hb (body_sign s)]
    exact ⟨fun h => ⟨fun _ => h,fun ⟨c,hc,hf⟩ => by rw [hsp c hc] at hf; cases hf⟩,fun h => h.plain hsp⟩
  · have hex : ∃ c ∈ s.takeWhile isSpace, blank c = false := by simpa using hsp
    obtain ⟨n,hres⟩ := @strto_space _ _ unsigned hb hs hex
    rw [readsAsC_iff hb.2,hres]
    constructor
    · rintro ⟨n,stop,he,hsome,-⟩
      cases he
      refine ⟨fun h => absurd h hsp,fun _ => (read_none_iff hb.2).mp ?_⟩
      cases hr : Numeral.read base s with
      | none => rfl
      | some y =>
        obtain ⟨t,hst,hden⟩ := read_denotes hr
        have hleft := List.append_cancel_right (hsome _ _ hr).1
        rw [← hleft] at hst
        exact absurd (List.self_eq_append_left.mp hst) (hden.ne_nil hb.2)
    · intro h
      have hnone := (read_none_iff hb.2).mpr (h.spaces hex)
      exact ⟨n,s ++ [0],rfl,fun v left hr => (by rw [hnone] at hr; cases hr),fun _ => rfl⟩

/-- The strings that strtol and strtoul read as C does. -/
theorem strtol_strtoul_iff (hb : base ≠ 1 ∧ base ≤ 36) (hs : ∀ c ∈ s, c ≠ 0) :
    (ReadsAsC false base s (strtol (s ++ [0]) base) ↔ Understood false base s) ∧
      (ReadsAsC true base s (strtoul (s ++ [0]) base) ↔ Understood true base s) :=
  ⟨strto_iff hb hs,strto_iff hb hs⟩

theorem strtol_strtoul_iff_blank :
    (ReadsAsC false 10 [55,32] (strtol ([55,32] ++ [0]) 10) ↔ Understood false 10 [55,32]) ∧
      (ReadsAsC true 10 [55,32] (strtoul ([55,32] ++ [0]) 10) ↔ Understood true 10 [55,32]) :=
  strtol_strtoul_iff (by decide) (by simp)

/-- strtol takes the terminator of "7" for a digit and runs past it, and the letter a counts for 0. -/
theorem strtol_seven : strtol ([55] ++ [0]) 10 = none ∧ strtoul ([97] ++ [0]) 16 = some (0,[0]) ∧
    ¬ ReadsAsC false 10 [55] (strtol ([55] ++ [0]) 10) ∧ ¬ ReadsAsC true 16 [97] (strtoul ([97] ++ [0]) 16) := by
  have h7 : strtol ([55] ++ [0]) 10 = none := by decide
  have ha : strtoul ([97] ++ [0]) 16 = some (0,[0]) := by decide
  refine ⟨h7,ha,fun ⟨n,stop,he,_⟩ => ?_,fun ⟨n,stop,he,hlong,_⟩ => ?_⟩
  · rw [h7] at he
    cases he
  · rw [ha] at he
    cases he
    have hl : Longest 16 [97] [97] 10 := (longest_iff (by decide)).mpr ⟨[],rfl,rfl⟩
    have := (hlong _ _ hl).2 (by unfold Fits; decide)
    exact absurd this (by decide)

end Catlib.Strtol
