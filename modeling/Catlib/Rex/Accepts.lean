import Catlib.Rex.Scan
import Catlib.Rex.Steps

/-! # The patterns that rex_init accepts

On a fine pattern the parser stays inside the pattern, comes to an end, and accepts exactly
the supported syntax.
-/
namespace Catlib.Rex

variable {pat s t : List UInt8} {c junk : UInt8} {d k f : ℕ} {x : RexSt} {empty : Bool}

/-- The result of the parser, against the rest of the pattern. -/
def Outcome (d : ℕ) (s : List UInt8) : Except ℤ (List RexNode) → Prop
  | .ok ns => Rest d s ∧ Done ns
  | .error _ => ¬Rest d s

/-- The parser comes to an end that agrees with the rest of the pattern. -/
def Ends (junk : UInt8) (pat : List UInt8) (f : ℕ) (x : RexSt) (d : ℕ) (s : List UInt8) : Prop :=
  ∃ r, loop (rexBody junk pat) f x = some r ∧ Outcome d s r

theorem Ends.congr {y : RexSt} {d' : ℕ} (h : Ends junk pat f y d' t) (hbody : rexBody junk pat x = some (.again y))
    (hrest : Rest d s ↔ Rest d' t) : Ends junk pat (f + 1) x d s := by
  obtain ⟨r,hr,ho⟩ := h
  refine ⟨r,by rw [loop_again hbody,hr],?_⟩
  cases r with
  | ok ns => exact ⟨hrest.2 ho.1,ho.2⟩
  | error e => exact mt hrest.1 ho

theorem ends_error {e : ℤ} (hbody : rexBody junk pat x = some (.leave (.error e))) (h : ¬Rest d s) :
    Ends junk pat (f + 1) x d s := ⟨_,loop_leave hbody,h⟩

/-- What `rex_parse` does with the result of the function it calls. -/
def goOn (r : Option (Except ℤ RexSt)) : Option (Turn RexSt (Except ℤ (List RexNode))) := r.bind fun r =>
  match r with
  | .error e => some (.leave (.error e))
  | .ok x => some (.again x)

theorem goOn_ite (p : Prop) [Decidable p] (r r' : Option (Except ℤ RexSt)) :
    goOn (if p then r else r') = if p then goOn r else goOn r' := apply_ite goOn p r r'

theorem rexBody_cons (h : At pat x.p (c :: s)) : rexBody junk pat x = goOn (
    if c ∈ [42,93,43,63,123,125] then some (.error x.p)
    else if c = 94 then some (.ok (x.append { type := .banchor } (x.p + 1)))
    else if c = 36 then some (.ok (x.append { type := .eanchor } (x.p + 1)))
    else if c = 40 then some (.ok (rexParseGroupS x))
    else if c = 91 then rexParseClass pat x
    else if c = 41 then rexParseGroupE pat x
    else if c = 46 then rexParseAny pat x
    else if c = 124 then (rexParseChoice x).map .ok
    else rexParseStr junk pat x) := by
  rw [rexBody,if_neg (ne_of_lt h.lt),h.head]
  simp only [goOn_ite]
  rfl

/-- What is known of every shorter rest. -/
def Below (junk : UInt8) (pat : List UInt8) (k f : ℕ) : Prop :=
  ∀ (y : RexSt) (d : ℕ) (e : Bool) (t : List UInt8), Inv y d e → At pat y.p t → t.length ≤ k → fineFrom k d e t = true →
    Ends junk pat f y d t

theorem ends_item {sc : Scan} {r : Option (Except ℤ RexSt)} (ih : Below junk pat k f) (hinv : Inv x d empty)
    (hk : s.length ≤ k) (hitem : Items pat x sc r) (hmeans : Means sc s (Rest d (c :: s)) (Rest d))
    (hfine : sc.fine (fineFrom k d false) = true) (hbody : rexBody junk pat x = goOn r) : Ends junk pat (f + 1) x d (c :: s) := by
  cases sc with
  | slip => cases hfine
  | reject =>
    obtain ⟨e,rfl⟩ := hitem
    exact ends_error hbody hmeans
  | go t =>
    obtain ⟨y,rfl,happ,hat⟩ := hitem
    exact (ih y d false t (hinv.appends happ) hat (hmeans.1.trans hk) hfine).congr hbody hmeans.2

theorem ends_group (ih : Below junk pat k f) (hinv : Inv x d empty) (hat : At pat x.p (41 :: s)) (hk : s.length ≤ k)
    (hfine : (if d = 0 then true else (scanRep s).fine (fineFrom k (d - 1) false)) = true)
    (hbody : rexBody junk pat x = goOn (rexParseGroupE pat x)) : Ends junk pat (f + 1) x d (41 :: s) := by
  cases d with
  | zero =>
    rw [rexParseGroupE_outside hinv] at hbody
    refine ends_error hbody ?_
    rw [rest_groupE]
    rintro ⟨d',h,-⟩
    cases h
  | succ d =>
    have hspec := rexParseGroupE_spec hinv hat.tail
    have hmeans := scanRep_means d s
    have hrest : Rest (d + 1) (41 :: s) ↔ RepThen d s := by
      rw [rest_groupE]
      constructor
      · rintro ⟨d',h,h'⟩
        cases h
        exact h'
      · exact fun h => ⟨d,rfl,h⟩
    rw [if_neg (Nat.succ_ne_zero d)] at hfine
    cases hs : scanRep s with
    | slip =>
      rw [hs] at hfine
      cases hfine
    | reject =>
      rw [hs] at hspec hmeans
      obtain ⟨e,he⟩ := hspec
      rw [he] at hbody
      exact ends_error hbody (mt hrest.1 hmeans)
    | go t =>
      rw [hs] at hspec hmeans hfine
      obtain ⟨y,hy,hat',hinv'⟩ := hspec
      rw [hy] at hbody
      exact (ih y d false t hinv' hat' (hmeans.1.trans hk) hfine).congr hbody (hrest.trans hmeans.2)

theorem ends_nil (hinv : Inv x d empty) (hat : At pat x.p []) : Ends junk pat (f + 1) x d [] := by
  have hgs : x.gstack.isSome = true ↔ d ≠ 0 := by
    obtain ⟨os,-,hl,-⟩ := hinv
    generalize x.gstack = gs at hl
    cases hl <;> simp
  by_cases hd : d = 0
  · subst hd
    obtain ⟨ns,hfin,hdone⟩ := finish_done hinv
    have hbody : rexBody junk pat x = some (.leave (.ok ns)) := by
      rw [rexBody,if_pos hat.nil,if_neg (by rw [hgs]; exact not_not.2 rfl),hfin]
      rfl
    exact ⟨_,loop_leave hbody,.stop,hdone⟩
  · refine ends_error (e := x.p) ?_ (mt rest_nil.1 hd)
    rw [rexBody,if_pos hat.nil,if_pos (hgs.2 hd)]

theorem below_succ (ih : Below junk pat k f) : Below junk pat (k + 1) (f + 1) := by
  intro x d e t hinv hat hlen hfine
  cases t with
  | nil => exact ends_nil hinv hat
  | cons c s =>
    have hk : s.length ≤ k := Nat.le_of_succ_le_succ hlen
    have hbody : rexBody junk pat x = _ := rexBody_cons hat
    rw [fineFrom] at hfine
    by_cases hstop : c ∈ [42,93,43,63,123,125]
    · rw [if_pos hstop] at hbody
      refine ends_error hbody fun h => h.head ?_
      simp only [List.mem_cons, List.not_mem_nil, or_false] at hstop ⊢
      tauto
    rw [if_neg hstop] at hbody hfine
    by_cases hanchor : c = 94 ∨ c = 36
    · rw [if_pos hanchor] at hfine
      have hb : Plain { type := .banchor } := ⟨⟨rfl,rfl,rfl⟩,nofun,nofun⟩
      have he : Plain { type := .eanchor } := ⟨⟨rfl,rfl,rfl⟩,nofun,nofun⟩
      rcases hanchor with rfl | rfl
      · exact (ih _ d false s (hinv.append hb _ false) hat.tail hk hfine).congr hbody (rest_anchor (Or.inl rfl))
      · exact (ih _ d false s (hinv.append he _ false) hat.tail hk hfine).congr hbody (rest_anchor (Or.inr rfl))
    rw [not_or] at hanchor
    rw [if_neg hanchor.1,if_neg hanchor.2] at hbody
    rw [if_neg (by simp [hanchor])] at hfine
    by_cases hopen : c = 40
    · subst hopen
      exact (ih _ (d + 1) true s (rexParseGroupS_inv hinv) hat.tail hk hfine).congr hbody rest_groupS
    rw [if_neg hopen] at hbody hfine
    by_cases hclass : c = 91
    · subst hclass
      exact ends_item ih hinv hk (rexParseClass_items hat)
        (Means.congr rest_class le_rfl ((scanClass_means d s).bind fun u => scanRep_means d u)) hfine hbody
    rw [if_neg hclass] at hbody hfine
    by_cases hclose : c = 41
    · subst hclose
      exact ends_group ih hinv hat hk hfine hbody
    rw [if_neg hclose] at hbody hfine
    by_cases hany : c = 46
    · subst hany
      exact ends_item ih hinv hk (rexParseAny_items hat) (Means.congr rest_any le_rfl (scanRep_means d s)) hfine hbody
    rw [if_neg hany] at hbody hfine
    by_cases hbar : c = 124
    · subst hbar
      rw [if_pos rfl,Bool.and_eq_true,Bool.not_eq_true'] at hfine
      obtain ⟨hempty,hfine⟩ := hfine
      subst hempty
      obtain ⟨y,hy,hp,hinv'⟩ := rexParseChoice_inv hinv
      rw [if_pos rfl,hy] at hbody
      have hat' : At pat y.p s := by
        rw [hp]
        exact hat.tail
      exact (ih y d true s hinv' hat' hk hfine).congr hbody rest_choice
    rw [if_neg hbar] at hbody hfine
    have hc : c ∉ special ∨ c = 92 := by
      by_cases h92 : c = 92
      · exact Or.inr h92
      · refine Or.inl fun h => ?_
        simp only [special, List.mem_cons, List.not_mem_nil, or_false] at h hstop
        tauto
    exact ends_item ih hinv hk (rexParseStr_items junk hat)
      ((scanString_first d hc).bind fun u => scanRep_means d u) hfine hbody

theorem below_all (junk : UInt8) (pat : List UInt8) (k : ℕ) : Below junk pat k (k + 1) := by
  induction k with
  | zero =>
    intro x d e t hinv hat hlen _
    rw [List.length_eq_zero_iff.1 (Nat.le_zero.1 hlen)] at hat ⊢
    exact ends_nil hinv hat
  | succ k ih => exact below_succ ih

/-- On a fine pattern rex_init neither leaves the pattern nor fails otherwise, and it accepts
exactly the supported syntax. -/
theorem rexInit_fine (junk : UInt8) (pat : List UInt8) (h : fine pat = true) :
    rexInit junk pat ≠ none ∧ ((∃ r, rexInit junk pat = some (.ok r)) ↔ Supported pat) := by
  obtain ⟨r,hr,ho⟩ := below_all junk pat pat.length _ 0 true pat inv_start ⟨Nat.zero_le _,rfl⟩ le_rfl h
  cases r with
  | error e =>
    have hrun : rexInit junk pat = some (.error e) := by
      rw [rexInit,hr]
      rfl
    rw [hrun]
    refine ⟨nofun,?_,fun hs => absurd hs ho⟩
    rintro ⟨r,hr⟩
    cases hr
  | ok ns =>
    obtain ⟨b,hb⟩ := ho.2.allPathsStart
    have hrun : rexInit junk pat = some (.ok (ns,b)) := by
      rw [rexInit,hr,Option.bind_eq_bind,Option.bind_some]
      simp only [hb, Option.bind_eq_bind, Option.bind_some]
      rfl
    rw [hrun]
    exact ⟨nofun,fun _ => ho.1,fun _ => ⟨_,rfl⟩⟩

theorem rexInit_fine_sample :
    fine [97,40,98,124,99,41,42,91,48,45,57,93,123,50,44,51,125,36] = true ∧
    ((∃ r, rexInit 0 [97,40,98,124,99,41,42,91,48,45,57,93,123,50,44,51,125,36] = some (.ok r)) ↔
      Supported [97,40,98,124,99,41,42,91,48,45,57,93,123,50,44,51,125,36]) :=
  have h : fine [97,40,98,124,99,41,42,91,48,45,57,93,123,50,44,51,125,36] = true := by decide
  ⟨h,(rexInit_fine 0 _ h).2⟩

/-- The bound of an open brace is read behind the end of the pattern, and `|a` is not accepted. -/
theorem rexInit_slips : rexInit 0 [97,123] = none ∧ Supported [124,97] ∧ rexInit 0 [124,97] = none :=
  ⟨rfl,.choice (.atom (.char (by decide)) .none .stop),rfl⟩

end Catlib.Rex
