import Catlib.Matching.Words
import Catlib.Logic.Loop
import Mathlib.Algebra.Group.Nat.Defs

/-! # The matcher of Knuth, Morris and Pratt in match.c

A `raw` is the list of its bytes. Reading a byte that the pattern does not have is no result. The
preparation and the search share the two statements that take one byte further; the preparation
is the search for the pattern in what follows its first byte.
-/
namespace Catlib.Matching
open Function

structure KmpPat where
  pat : List UInt8
  skips : ℕ → ℕ

/-- One turn of `while ( k > 0 && pp[k] != c ) k = skips[k-1]`. -/
def fallBody (pp : List UInt8) (skips : ℕ → ℕ) (c : UInt8) (k : ℕ) : Option (Turn ℕ ℕ) :=
  if 0 < k then do
    let b ← pp[k]?
    if b ≠ c then return .again (skips (k - 1)) else return .leave k
  else some (.leave k)

/-- That loop, and the byte that follows. -/
def kmpNext (pp : List UInt8) (skips : ℕ → ℕ) (c : UInt8) (fuel k : ℕ) : Option ℕ := do
  let k ← loop (fallBody pp skips c) fuel k
  let b ← pp[k]?
  if b = c then return k + 1 else return k

/-- The loop of `kmp_pinit` with `n` bytes to come. -/
def pinitFrom (pp : List UInt8) (fuel : ℕ) : ℕ → ℕ → ℕ → (ℕ → ℕ) → Option (ℕ → ℕ)
  | 0, _, _, skips => some skips
  | n + 1, q, k, skips => do
    let c ← pp[q]?
    let k ← kmpNext pp skips c fuel k
    pinitFrom pp fuel n (q + 1) k (update skips q k)

def kmpPinit (pat : List UInt8) (skips : ℕ → ℕ) (fuel : ℕ) : Option KmpPat := do
  let skips ← pinitFrom pat fuel (pat.length - 1) 1 0 (update skips 0 0)
  return ⟨pat,skips⟩

/-- The loop of `kmp_match` at `sp + i`; the place found is an `ulong`. -/
def kmpMatchFrom (pat : KmpPat) (fuel : ℕ) : List UInt8 → ℕ → ℕ → Option (Option ℕ)
  | [], _, _ => some none
  | c :: sp, i, q => do
    let q ← kmpNext pat.pat pat.skips c fuel q
    if q = pat.pat.length then return some ((i + (2 ^ 64 - pat.pat.length) + 1) % 2 ^ 64)
    else kmpMatchFrom pat fuel sp (i + 1) q

/-- What a matcher returns and what it stores at `loc`, which may be null. -/
def matched (loc : Bool) : Option ℕ → ℤ × Option ℕ
  | some i => (1,if loc then some i else none)
  | none => (0,none)

def kmpMatch (str : List UInt8) (pat : KmpPat) (loc : Bool) (fuel : ℕ) : Option (ℤ × Option ℕ) :=
  (kmpMatchFrom pat fuel str 0 0).map (matched loc)

/-! ## The table and the automaton -/

variable {p u t : List UInt8} {skips : ℕ → ℕ} {c : UInt8} {n k q i fuel : ℕ}

/-- The first `n` entries are the longest proper borders of the prefixes. -/
def Table (p : List UInt8) (skips : ℕ → ℕ) (n : ℕ) : Prop := ∀ q < n, Longest p (p.take (q + 1)).tail (skips q)

theorem Table.lt (h : Table p skips n) (hq : q < n) : skips q ≤ q := by
  have hb := h q hq
  have hlen := hb.suffix.length_le
  rw [List.length_take,Nat.min_eq_left hb.le,List.length_tail,List.length_take] at hlen
  omega

theorem kmpNext_spec (ht : Table p skips n) (hkn : k ≤ n) (hk : Candidate p u c k) (hf : k < fuel) :
    ∃ k', kmpNext p skips c fuel k = some k' ∧ Longest p (u ++ [c]) k' := by
  obtain ⟨j,hj,hcand,hend⟩ : ∃ j, loop (fallBody p skips c) fuel k = some j ∧ Candidate p u c j ∧ (j = 0 ∨ p[j]? = some c) := by
    refine loop_total (I := fun m j => m = j ∧ j ≤ n ∧ Candidate p u c j) (fun m j => ?_) ⟨rfl,hkn,hk⟩ hf
    rintro ⟨rfl,hmn,hcand⟩
    obtain ⟨b,hb⟩ : ∃ b, p[m]? = some b := ⟨_,List.getElem?_eq_getElem hcand.lt⟩
    by_cases hm : 0 < m
    · by_cases hbc : b = c
      · exact Or.inr ⟨m,by simp [fallBody, hm, hb, hbc],hcand,Or.inr (by rw [hb,hbc])⟩
      · have htab := ht (m - 1) (by omega)
        have hlt := ht.lt (show m - 1 < n by omega)
        rw [Nat.sub_add_cancel hm] at htab
        refine Or.inl ⟨skips (m - 1),_,by simp [fallBody, hm, hb, hbc],by omega,rfl,by omega,hcand.fall ?_ htab⟩
        rw [hb]
        exact fun he => hbc (Option.some.inj he)
    · exact Or.inr ⟨m,if_neg hm,hcand,Or.inl (by omega)⟩
  by_cases hc : p[j]? = some c
  · exact ⟨j + 1,by simp [kmpNext, hj, hc],hcand.extend hc⟩
  · obtain rfl := hend.resolve_right hc
    obtain ⟨b,hb⟩ : ∃ b, p[0]? = some b := ⟨_,List.getElem?_eq_getElem hcand.lt⟩
    have hbc : b ≠ c := fun he => hc (by rw [hb,he])
    exact ⟨0,by simp [kmpNext, hj, hb, hbc],hcand.stop hc⟩

theorem pinitFrom_spec (hn : q + n = p.length) (hq : 0 < q) (hf : p.length < fuel) (ht : Table p skips q)
    (hk : Longest p (p.take q).tail k) : ∃ skips', pinitFrom p fuel n q k skips = some skips' ∧ Table p skips' p.length := by
  induction n generalizing q k skips with
  | zero => exact ⟨skips,rfl,by rwa [← hn,Nat.add_zero]⟩
  | succ n ih =>
    have hqp : q < p.length := by omega
    have hlen := hk.suffix.length_le
    rw [List.length_take,Nat.min_eq_left hk.le,List.length_tail,List.length_take,Nat.min_eq_left (Nat.le_of_lt hqp)] at hlen
    obtain ⟨k',hnext,hk'⟩ := kmpNext_spec ht (by omega) (hk.candidate (by omega) p[q]) (show k < fuel by omega)
    have htail : (p.take q).tail ++ [p[q]] = (p.take (q + 1)).tail := by
      rw [List.take_succ_eq_append_getElem hqp,List.tail_append_of_ne_nil]
      exact List.ne_nil_of_length_pos (by rw [List.length_take]; omega)
    rw [htail] at hk'
    have ht' : Table p (update skips q k') (q + 1) := by
      intro j hj
      by_cases hjq : j = q
      · rwa [hjq,update_self]
      · rw [update_of_ne hjq]
        exact ht j (by omega)
    obtain ⟨skips',hrun,htab⟩ := ih (by omega) (by omega) ht' hk'
    exact ⟨skips',by rw [pinitFrom,List.getElem?_eq_getElem hqp]; simpa [hnext] using hrun,htab⟩

theorem kmpPinit_spec (hp : p ≠ []) (skips : ℕ → ℕ) (hf : p.length < fuel) :
    ∃ kmp, kmpPinit p skips fuel = some kmp ∧ kmp.pat = p ∧ Table p kmp.skips p.length := by
  have hpos := List.length_pos_of_ne_nil hp
  have hone : (p.take 1).tail = [] := by
    rw [List.take_one]
    cases p.head? <;> rfl
  have hstart : Table p (update skips 0 0) 1 := by
    intro q hq
    obtain rfl : q = 0 := by omega
    rw [update_self,hone]
    exact longest_nil
  obtain ⟨skips',hrun,htab⟩ := pinitFrom_spec (show 1 + (p.length - 1) = p.length by omega) Nat.one_pos hf hstart (hone ▸ longest_nil)
  exact ⟨⟨p,skips'⟩,by simp [kmpPinit, hrun],rfl,htab⟩

theorem kmpMatchFrom_spec {kmp : KmpPat} (hp : kmp.pat = p) (ht : Table p kmp.skips p.length) (hf : p.length < fuel)
    (hlt : q < p.length) (hq : Longest p u q) (hno : ∀ j, j + p.length ≤ u.length → ¬OccursAt p (u ++ t) j)
    (hlen : (u ++ t).length < 2 ^ 64) :
    ∃ found, kmpMatchFrom kmp fuel t u.length q = some found ∧ Finds p (u ++ t) found := by
  induction t generalizing u q with
  | nil =>
    refine ⟨none,rfl,fun j hj => ?_⟩
    have hle := hj.length_le (List.ne_nil_of_length_pos (by lia))
    rw [List.append_nil] at hle
    exact hno j hle hj
  | cons c t ih =>
    obtain ⟨q',hnext,hq'⟩ := kmpNext_spec ht (Nat.le_of_lt hlt) (hq.candidate hlt c) (show q < fuel by lia)
    have hcons : u ++ c :: t = (u ++ [c]) ++ t := by simp
    have htake : ∀ j, j + p.length = (u ++ [c]).length → (OccursAt p (u ++ c :: t) j ↔ q' = p.length) := by
      intro j hj
      rw [hcons,occursAt_iff_suffix (by rw [hj]; simp),hj,List.take_left]
      constructor
      · exact fun hs => Nat.le_antisymm hq'.le (hq'.most _ le_rfl (by rwa [List.take_length]))
      · rintro rfl
        have hs := hq'.suffix
        rwa [List.take_length] at hs
    have hno' : ∀ j, j + p.length < (u ++ [c]).length → ¬OccursAt p (u ++ c :: t) j := by
      intro j hj
      exact hno j (by simpa [Nat.lt_succ_iff] using hj)
    by_cases hfull : q' = p.length
    · have hle : p.length ≤ (u ++ [c]).length := by
        have hs := hq'.suffix.length_le
        rwa [hfull,List.take_length] at hs
      rw [List.length_append,List.length_singleton] at hle
      have hwrap : (u.length + (2 ^ 64 - p.length) + 1) % 2 ^ 64 = u.length + 1 - p.length := by
        simp only [List.length_append, List.length_cons] at hlen
        rw [show u.length + (2 ^ 64 - p.length) + 1 = u.length + 1 - p.length + 2 ^ 64 by lia,Nat.add_mod_right,
          Nat.mod_eq_of_lt (by lia)]
      have hrun : kmpMatchFrom kmp fuel (c :: t) u.length q = some (some (u.length + 1 - p.length)) := by
        simp only [kmpMatchFrom, hp, hnext, hfull, hwrap, Option.bind_eq_bind, Option.bind_some, if_true]
        rfl
      refine ⟨some (u.length + 1 - p.length),hrun,?_,fun j hj => hno' j ?_⟩
      · refine (htake _ ?_).mpr hfull
        rw [List.length_append,List.length_singleton]
        lia
      · rw [List.length_append,List.length_singleton]
        lia
    · have hlen' : ((u ++ [c]) ++ t).length < 2 ^ 64 := hcons ▸ hlen
      obtain ⟨found,hrun,hfinds⟩ := ih (u := u ++ [c]) (Nat.lt_of_le_of_ne hq'.le hfull) hq' (fun j hj => by
        rw [← hcons]
        rcases Nat.lt_or_eq_of_le hj with hj | hj
        · exact hno' j hj
        · exact fun ho => hfull ((htake j hj).mp ho)) hlen'
      rw [List.length_append,List.length_singleton] at hrun
      exact ⟨found,by simpa [kmpMatchFrom, hp, hnext, hfull] using hrun,hcons ▸ hfinds⟩

/-- With a prepared pattern the search returns one where the pattern occurs, with the first place
of it, and zero where it does not. -/
theorem kmpMatch_spec (pat str : List UInt8) (skips : ℕ → ℕ) (hp : pat ≠ []) (hlen : str.length < 2 ^ 64) :
    ∃ fuel kmp found, kmpPinit pat skips fuel = some kmp ∧ Finds pat str found ∧
      ∀ loc, kmpMatch str kmp loc fuel = some (matched loc found) := by
  have hpos := List.length_pos_of_ne_nil hp
  have hno : ∀ j, j + pat.length ≤ ([] : List UInt8).length → ¬OccursAt pat ([] ++ str) j := by
    intro j hj
    rw [List.length_nil] at hj
    omega
  obtain ⟨kmp,hinit,hpat,htab⟩ := kmpPinit_spec hp skips (Nat.lt_succ_self _)
  obtain ⟨found,hrun,hfinds⟩ := kmpMatchFrom_spec hpat htab (Nat.lt_succ_self _) hpos longest_nil hno hlen
  exact ⟨_,kmp,found,hinit,hfinds,fun loc => congrArg (Option.map (matched loc)) hrun⟩

theorem kmpMatch_spec_border : ∃ fuel kmp found, kmpPinit [1,2,1,3] (fun _ => 0) fuel = some kmp ∧
    Finds ([1,2,1,3] : List UInt8) [1,2,1,2,1,3] found ∧ ∀ loc, kmpMatch [1,2,1,2,1,3] kmp loc fuel = some (matched loc found) :=
  kmpMatch_spec [1,2,1,3] [1,2,1,2,1,3] (fun _ => 0) (by decide) (by decide)

example : (kmpPinit [1,2,1,3] (fun _ => 0) 5).bind (fun kmp => kmpMatch [1,2,1,2,1,3] kmp true 5) = some (1,some 2) := by decide

end Catlib.Matching
