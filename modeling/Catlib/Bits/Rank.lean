import Mathlib.Data.Nat.Count
import Mathlib.Data.Nat.Bitwise
import Mathlib.Order.WellFounded

/-! # Ranks and stable partitions

The rank of a position is the number of the positions below it that carry the same mark. A stable
partition of `w` positions puts those without a mark first and those with one behind them, each
in its old order, so it places a position by its rank. Partitions by the bits of a key, from the
lowest to the highest one, sort the positions by the key.
-/
namespace Catlib

/-- The number of the positions below `k` whose mark is `b`. -/
def rank (s : ℕ → Bool) (b : Bool) (k : ℕ) : ℕ := Nat.count (fun j => s j = b) k

/-- Where the stable partition of the first `w` positions by `s` puts position `k`. -/
def part (w : ℕ) (s : ℕ → Bool) (k : ℕ) : ℕ :=
  if s k then rank s false w + rank s true k else rank s false k

section Rank
variable {s t : ℕ → Bool} {b : Bool} {a k w : ℕ}

@[simp] theorem rank_zero : rank s b 0 = 0 := Nat.count_zero _

theorem rank_succ : rank s b (k + 1) = rank s b k + if s k = b then 1 else 0 := Nat.count_succ _ k

theorem rank_mono (h : a ≤ k) : rank s b a ≤ rank s b k := Nat.count_monotone _ h

theorem rank_le : rank s b k ≤ k := Nat.count_le _

theorem rank_lt (ha : s a = b) (h : a < k) : rank s b a < rank s b k := Nat.count_strict_mono ha h

theorem rank_add_rank (s : ℕ → Bool) (k : ℕ) : rank s false k + rank s true k = k := by
  induction k with
  | zero => simp
  | succ k ih =>
    rw [rank_succ,rank_succ]
    cases s k <;> simp <;> omega

theorem rank_not (h : ∀ j < k, t j = !s j) : rank t b k = rank s (!b) k := by
  induction k with
  | zero => simp
  | succ k ih =>
    rw [rank_succ,rank_succ,ih (fun j hj => h j (Nat.lt_succ_of_lt hj)),h k (Nat.lt_succ_self k)]
    cases s k <;> cases b <;> rfl

theorem rank_reverse (h : ∀ j < w, t j = s (w - 1 - j)) (hk : k ≤ w) :
    rank t b k + rank s b (w - k) = rank s b w := by
  induction k with
  | zero => simp
  | succ k ih =>
    have hlast := @rank_succ s b (w - (k + 1))
    rw [show w - (k + 1) + 1 = w - k by omega] at hlast
    rw [rank_succ,h k (by omega),show w - 1 - k = w - (k + 1) by omega]
    have := ih (by omega)
    omega

theorem rank_sub (d : ℕ) (hd : d ≤ k) : rank s b k ≤ rank s b (k - d) + d := by
  induction d with
  | zero => simp
  | succ d ih =>
    have hlast := @rank_succ s b (k - (d + 1))
    rw [show k - (d + 1) + 1 = k - d by omega] at hlast
    have := ih (by omega)
    split at hlast <;> omega

end Rank

section Part
variable {s : ℕ → Bool} {a b w : ℕ}

theorem part_lt (ha : a < w) : part w s a < w := by
  have hsum := rank_add_rank s w
  unfold part
  cases hs : s a with
  | false =>
    have := rank_lt hs ha
    simp only [Bool.false_eq_true, if_false]
    omega
  | true =>
    have := rank_lt hs ha
    simp only [if_true]
    omega

theorem part_lt_part_of_mark (ha : a < w) (hsa : s a = false) (hsb : s b = true) : part w s a < part w s b := by
  have := rank_lt hsa ha
  simp only [part, hsa, hsb, Bool.false_eq_true, if_false, if_true]
  omega

theorem part_lt_part_of_lt (hs : s a = s b) (h : a < b) : part w s a < part w s b := by
  unfold part
  rw [hs]
  cases hb : s b with
  | false => simpa using rank_lt (hs.trans hb) h
  | true => simpa using rank_lt (hs.trans hb) h

theorem part_inj (ha : a < w) (hb : b < w) (h : part w s a = part w s b) : a = b := by
  by_contra hne
  cases hsa : s a with
  | false =>
    cases hsb : s b with
    | false =>
      rcases Nat.lt_or_gt_of_ne hne with hlt | hlt
      · exact absurd h (part_lt_part_of_lt (hsa.trans hsb.symm) hlt).ne
      · exact absurd h (part_lt_part_of_lt (hsb.trans hsa.symm) hlt).ne'
    | true => exact absurd h (part_lt_part_of_mark ha hsa hsb).ne
  | true =>
    cases hsb : s b with
    | false => exact absurd h (part_lt_part_of_mark hb hsb hsa).ne'
    | true =>
      rcases Nat.lt_or_gt_of_ne hne with hlt | hlt
      · exact absurd h (part_lt_part_of_lt (hsa.trans hsb.symm) hlt).ne
      · exact absurd h (part_lt_part_of_lt (hsb.trans hsa.symm) hlt).ne'

end Part

theorem mod_two_pow_succ (v i : ℕ) : v % 2 ^ (i + 1) = v % 2 ^ i + 2 ^ i * (v.testBit i).toNat := by
  rw [Nat.mod_pow_succ,Nat.testBit_eq_decide_div_mod_eq]
  rcases Nat.mod_two_eq_zero_or_one (v / 2 ^ i) with h | h <;> simp [h]

/-- A placement of the first `w` positions among themselves, in the order of their keys. -/
structure Placing (w : ℕ) (key q : ℕ → ℕ) : Prop where
  bounded : ∀ k < w, q k < w
  injective : ∀ a < w, ∀ b < w, q a = q b → a = b
  ordered : ∀ a < w, ∀ b < w, key a < key b → q a < q b

namespace Placing
variable {w i : ℕ} {key q : ℕ → ℕ}

theorem start (w : ℕ) (key : ℕ → ℕ) : Placing w (fun k => key k % 2 ^ 0) id where
  bounded _ hk := hk
  injective _ _ _ _ h := h
  ordered a _ b _ h := absurd h (by simp [Nat.mod_one])

theorem next (h : Placing w (fun k => key k % 2 ^ i) q) {s : ℕ → Bool}
    (hs : ∀ k < w, s (q k) = (key k).testBit i) :
    Placing w (fun k => key k % 2 ^ (i + 1)) (fun k => part w s (q k)) where
  bounded k hk := part_lt (h.bounded k hk)
  injective a ha b hb heq :=
    h.injective a ha b hb (part_inj (h.bounded a ha) (h.bounded b hb) heq)
  ordered a ha b hb hlt := by
    have hma := Nat.mod_lt (key a) (Nat.two_pow_pos i)
    have hmb := Nat.mod_lt (key b) (Nat.two_pow_pos i)
    simp only [mod_two_pow_succ] at hlt
    cases hka : (key a).testBit i with
    | false =>
      cases hkb : (key b).testBit i with
      | false =>
        rw [hka,hkb] at hlt
        have hq := h.ordered a ha b hb (by simpa using hlt)
        exact part_lt_part_of_lt (by rw [hs a ha,hs b hb,hka,hkb]) hq
      | true => exact part_lt_part_of_mark (h.bounded a ha) ((hs a ha).trans hka) ((hs b hb).trans hkb)
    | true =>
      cases hkb : (key b).testBit i with
      | false =>
        rw [hka,hkb] at hlt
        simp at hlt
        omega
      | true =>
        rw [hka,hkb] at hlt
        have hq := h.ordered a ha b hb (by simpa using hlt)
        exact part_lt_part_of_lt (by rw [hs a ha,hs b hb,hka,hkb]) hq

theorem eq_key (h : Placing w key q) (hkey : ∀ k < w, key k < w)
    (hinj : ∀ a < w, ∀ b < w, key a = key b → a = b) {k : ℕ} (hk : k < w) : q k = key k := by
  let e : Fin w → Fin w := fun k => ⟨key k,hkey k k.2⟩
  have heinj : Function.Injective e := fun a b hab =>
    Fin.ext (hinj a a.2 b b.2 (congrArg Fin.val hab))
  obtain ⟨g,hg⟩ := (Finite.injective_iff_surjective.1 heinj).hasRightInverse
  have hkg : ∀ v : Fin w, key (g v) = v := fun v => congrArg Fin.val (hg v)
  let f : Fin w → Fin w := fun v => ⟨q (g v),h.bounded _ (g v).2⟩
  have hf : StrictMono f := fun u v huv =>
    h.ordered _ (g u).2 _ (g v).2 (by rw [hkg,hkg]; exact huv)
  have hid : f = id := (hf.range_inj strictMono_id).1
    (by rw [(Finite.injective_iff_surjective.1 hf.injective).range_eq,Set.range_id])
  have hkk : g (e ⟨k,hk⟩) = ⟨k,hk⟩ := heinj (hg (e ⟨k,hk⟩))
  have := congrArg Fin.val (congrFun hid (e ⟨k,hk⟩))
  simpa [f, hkk, e] using this

end Placing
end Catlib
