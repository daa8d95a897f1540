import Mathlib.Data.List.Infix

/-! # Occurrences, borders and periods of words

Where a word occurs in another one, the longest prefix of a word that a text ends with, and the
shifts that carry a part of a word to itself.
-/
namespace Catlib.Matching

variable {α : Type*} {p t u : List α} {c : α} {i j k n : ℕ}

/-! ## Occurrences -/

def OccursAt (p t : List α) (i : ℕ) : Prop := p <+: t.drop i

/-- The smallest place where `p` occurs in `t`, or nothing where it does not. -/
def Finds (p t : List α) : Option ℕ → Prop
  | some i => OccursAt p t i ∧ ∀ j < i, ¬OccursAt p t j
  | none => ∀ j, ¬OccursAt p t j

theorem Finds.unique {a b : Option ℕ} (ha : Finds p t a) (hb : Finds p t b) : a = b := by
  cases a with
  | none =>
    cases b with
    | none => rfl
    | some j => exact absurd hb.1 (ha j)
  | some i =>
    cases b with
    | none => exact absurd ha.1 (hb i)
    | some j =>
      rcases lt_trichotomy i j with h | rfl | h
      · exact absurd ha.1 (hb.2 i h)
      · rfl
      · exact absurd hb.1 (ha.2 j h)

theorem occursAt_iff : OccursAt p t i ↔ ∀ k < p.length, p[k]? = t[i + k]? := by
  rw [OccursAt,List.prefix_iff_getElem?]
  simp only [List.getElem?_drop]
  exact forall₂_congr fun k hk => by rw [List.getElem?_eq_getElem hk,eq_comm]

theorem OccursAt.length_le (h : OccursAt p t i) (hp : p ≠ []) : i + p.length ≤ t.length := by
  have hlen := List.IsPrefix.length_le h
  have hpos := List.length_pos_of_ne_nil hp
  rw [List.length_drop] at hlen
  omega

theorem occursAt_iff_suffix (hi : i + p.length ≤ t.length) : OccursAt p t i ↔ p <:+ t.take (i + p.length) := by
  have htake : (t.drop i).take p.length = (t.take (i + p.length)).drop i := by rw [List.drop_take,Nat.add_sub_cancel_left]
  have hlen : (t.take (i + p.length)).length - p.length = i := by rw [List.length_take,Nat.min_eq_left hi,Nat.add_sub_cancel]
  rw [OccursAt,List.prefix_iff_eq_take,htake,List.suffix_iff_eq_drop,hlen]

/-! ## The longest prefix at the end of a text -/

/-- `k` is the length of the longest prefix of `p` that `u` ends with. -/
structure Longest (p u : List α) (k : ℕ) : Prop where
  le : k ≤ p.length
  suffix : p.take k <:+ u
  most : ∀ j ≤ p.length, p.take j <:+ u → j ≤ k

theorem take_succ_suffix (hj : j < p.length) : p.take (j + 1) <:+ u ++ [c] ↔ p.take j <:+ u ∧ p[j]? = some c := by
  rw [List.take_succ_eq_append_getElem hj,List.suffix_concat_iff,List.getElem?_eq_getElem hj,Option.some.injEq]
  constructor
  · rintro (h | ⟨w,hw,hs⟩)
    · exact absurd (List.append_eq_nil_iff.mp h).2 (List.cons_ne_nil _ _)
    · obtain ⟨rfl,hc⟩ := List.append_inj' hw rfl
      exact ⟨hs,List.singleton_inj.mp hc⟩
  · rintro ⟨hs,rfl⟩
    exact Or.inr ⟨_,rfl,hs⟩

/-- A prefix of `p` that `u` ends with, and that every prefix which goes on with `c` is no longer than. -/
structure Candidate (p u : List α) (c : α) (k : ℕ) : Prop where
  lt : k < p.length
  suffix : p.take k <:+ u
  most : ∀ j < p.length, p.take j <:+ u → p[j]? = some c → j ≤ k

theorem Longest.candidate (h : Longest p u k) (hk : k < p.length) (c : α) : Candidate p u c k :=
  ⟨hk,h.suffix,fun j hj hs _ => h.most j (Nat.le_of_lt hj) hs⟩

theorem Candidate.fall (h : Candidate p u c k) (hne : p[k]? ≠ some c) (hb : Longest p (p.take k).tail n) : Candidate p u c n := by
  have htail : (p.take k).tail <:+ p.take k := List.tail_suffix _
  have hlen := hb.suffix.length_le
  rw [List.length_take,Nat.min_eq_left hb.le,List.length_tail,List.length_take] at hlen
  refine ⟨by have := h.lt; omega,hb.suffix.trans (htail.trans h.suffix),fun j hj hs hc => ?_⟩
  have hjk := h.most j hj hs hc
  have hlt : j < k := Nat.lt_of_le_of_ne hjk fun he => hne (he ▸ hc)
  refine hb.most j (Nat.le_of_lt hj) ?_
  -- both are ends of `u`, and the shorter one is an end of the other
  refine List.suffix_of_suffix_length_le hs ((htail.trans h.suffix)) ?_
  have := h.lt
  rw [List.length_take,List.length_tail,List.length_take]
  omega

theorem Candidate.extend (h : Candidate p u c k) (hc : p[k]? = some c) : Longest p (u ++ [c]) (k + 1) := by
  refine ⟨h.lt,(take_succ_suffix h.lt).mpr ⟨h.suffix,hc⟩,fun j hj hs => ?_⟩
  cases j with
  | zero => exact Nat.zero_le _
  | succ j =>
    obtain ⟨hs',hc'⟩ := (take_succ_suffix hj).mp hs
    exact Nat.succ_le_succ (h.most j hj hs' hc')

theorem Candidate.stop (h : Candidate p u c 0) (hne : p[0]? ≠ some c) : Longest p (u ++ [c]) 0 := by
  refine ⟨Nat.zero_le _,List.nil_suffix,fun j hj hs => ?_⟩
  cases j with
  | zero => exact le_rfl
  | succ j =>
    obtain ⟨hs',hc'⟩ := (take_succ_suffix hj).mp hs
    obtain rfl := Nat.le_zero.mp (h.most j hj hs' hc')
    exact absurd hc' hne

theorem longest_nil : Longest p [] 0 :=
  ⟨Nat.zero_le _,List.suffix_refl _,fun j hj hs => by
    have hlen := hs.length_le
    rw [List.length_take,Nat.min_eq_left hj] at hlen
    exact hlen⟩

/-! ## Periods -/

variable {a b d e x : ℕ}

/-- The end of `p` from `a` on is carried to itself by `d`. -/
def Period (p : List α) (a d : ℕ) : Prop := ∀ z, a ≤ z → z + d < p.length → p[z]? = p[z + d]?

theorem period_of_le (h : p.length ≤ a + d) : Period p a d := fun z hz hlt => by omega

theorem Period.trans (h : Period p a d) (h' : Period p (a + d) e) : Period p a (d + e) := by
  intro z hz hlt
  rw [h z hz (by omega),h' (z + d) (by omega) (by omega),Nat.add_assoc]

theorem Period.sub (h : Period p a d) (h' : Period p a (d + e)) : Period p (a + d) e := by
  intro z hz hlt
  have h1 := h (z - d) (by omega) (by omega)
  have h2 := h' (z - d) (by omega) (by omega)
  rw [show z - d + d = z by omega] at h1
  rw [show z - d + (d + e) = z + e by omega] at h2
  rw [← h1,h2]

theorem period_succ : Period p a d ↔ Period p (a + 1) d ∧ (a + d < p.length → p[a]? = p[a + d]?) := by
  refine ⟨fun h => ⟨fun z hz => h z (by omega),h a le_rfl⟩,fun ⟨h,h0⟩ z hz hlt => ?_⟩
  rcases Nat.lt_or_eq_of_le hz with hz | rfl
  · exact h z hz hlt
  · exact h0 hlt

/-- `b` is the first place behind `a` where a border of the end from `a` on starts; the empty border of
the empty end starts behind it. -/
structure NextBorder (p : List α) (a b : ℕ) : Prop where
  lt : a < b
  le : b ≤ p.length + 1
  period : b ≤ p.length → Period p a (b - a)
  first : ∀ b', a < b' → b' < b → ¬Period p a (b' - a)

theorem nextBorder_end : NextBorder p p.length (p.length + 1) :=
  ⟨Nat.lt_succ_self _,le_rfl,fun h => absurd h (by omega),fun b' h1 h2 => absurd h1 (by omega)⟩

theorem NextBorder.le_length (h : NextBorder p a b) (ha : a < p.length) : b ≤ p.length := by
  by_contra hlt
  exact h.first p.length ha (by omega) (period_of_le (by omega))

theorem NextBorder.follow {b' : ℕ} (h : NextBorder p b b') (hab : a < b) (hper : Period p a (b - a)) :
    (b' ≤ p.length → Period p a (b' - a)) ∧ ∀ y, b < y → y < b' → ¬Period p a (y - a) := by
  have hlt := h.lt
  have hb : a + (b - a) = b := by omega
  refine ⟨fun hle => ?_,fun y hy hyb hp => ?_⟩
  · have hnext := h.period hle
    rw [show b' - a = (b - a) + (b' - b) by omega]
    exact hper.trans (by rwa [hb])
  · rw [show y - a = (b - a) + (y - b) by omega] at hp
    have hsub := hper.sub hp
    rw [hb] at hsub
    exact h.first y hy hyb hsub

/-! ## Shifts after a mismatch -/

/-- A shift by `d` agrees with a text in which `p` matches behind `x` and differs at `x`. -/
structure Fits (p : List α) (x d : ℕ) : Prop where
  behind : ∀ y, x < y → d ≤ y → y < p.length → p[y - d]? = p[y]?
  differs : d ≤ x → p[x - d]? ≠ p[x]?

theorem Fits.period (h : Fits p x d) : Period p (x + 1 - d) d := by
  intro z hz hlt
  have hy := h.behind (z + d) (by omega) (by omega) hlt
  rwa [Nat.add_sub_cancel] at hy

theorem OccursAt.fits (h : OccursAt p t (i + d)) (hx : x < p.length) (hbehind : ∀ y, x < y → y < p.length → p[y]? = t[i + y]?)
    (hdiff : p[x]? ≠ t[i + x]?) : Fits p x d := by
  rw [occursAt_iff] at h
  refine ⟨fun y hxy hdy hy => ?_,fun hdx he => hdiff ?_⟩
  · rw [h (y - d) (by omega),hbehind y hxy hy,show i + d + (y - d) = i + y by omega]
  · rw [← he,h (x - d) (by omega),show i + d + (x - d) = i + x by omega]

/-- A shift that passes no other one over, and leaves the text no further than its own length. -/
structure SafeShift (p : List α) (x s : ℕ) : Prop where
  pos : 0 < s
  le : s ≤ p.length
  least : ∀ d, 0 < d → Fits p x d → s ≤ d

end Catlib.Matching
