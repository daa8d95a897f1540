import Catlib.Matching.BoyerMoore

/-! # The arrays of bm_pinit

The tables of skips and of borders are arrays of the caller, which cannot be read or written outside
their bounds. The preparation on them follows the one on functions, and no shift by what it leaves in
the tables passes an occurrence over.
-/
namespace Catlib.Matching.Arrays
open Function

def setAt (a : List ℕ) (i v : ℕ) : Option (List ℕ) := if i < a.length then some (a.set i v) else none

/-- `if ( skips[i] == 0 ) skips[i] = v`. -/
def fillAt (skips : List ℕ) (i v : ℕ) : Option (List ℕ) := do
  let s ← skips[i]?
  if s = 0 then setAt skips i v else some skips

/-- `for ( i = 0 ; i < len ; ++i ) skips[i] = 0`, with `n` places to come. -/
def clearPass : ℕ → ℕ → List ℕ → Option (List ℕ)
  | 0, _, skips => some skips
  | n + 1, i, skips => do clearPass n (i + 1) (← setAt skips i 0)

/-- One turn of the inner loop of the first pass, at the place `j`. -/
def borderBody (pp : List UInt8) (scratch : List ℕ) (j : ℕ) : ℕ × List ℕ → Option (Turn (ℕ × List ℕ) (ℕ × List ℕ))
  | (i,skips) =>
    if i < pp.length then do
      let a ← pp[i]?
      let b ← pp[j]?
      if a ≠ b then
        let skips ← fillAt skips i (ulongSub i j)
        let k ← scratch[i]?
        return .again (ulongSub k 1,skips)
      else return .leave (i,skips)
    else some (.leave (i,skips))

/-- One turn of its `do` loop. -/
def borderStep (pp : List UInt8) (fuel j i : ℕ) (skips scratch : List ℕ) : Option (ℕ × List ℕ × List ℕ) := do
  let scratch ← setAt scratch j (i + 1)
  let (i,skips) ← loop (borderBody pp scratch j) fuel (i,skips)
  return (ulongSub i 1,skips,scratch)

/-- The first pass, from the place `j` down to the first one. -/
def borderPass (pp : List UInt8) (fuel : ℕ) : ℕ → ℕ → List ℕ → List ℕ → Option (ℕ × List ℕ × List ℕ)
  | 0, i, skips, scratch => borderStep pp fuel 0 i skips scratch
  | j + 1, i, skips, scratch => do
    let (i,skips,scratch) ← borderStep pp fuel (j + 1) i skips scratch
    borderPass pp fuel j i skips scratch

/-- `if ( i == j ) i = scratch[j] - 1`. -/
def follow (scratch : List ℕ) (i j : ℕ) : Option ℕ := if i = j then scratch[j]?.map fun k => ulongSub k 1 else some i

/-- The second pass, with `n` places to come. -/
def fillPass (scratch : List ℕ) : ℕ → ℕ → ℕ → List ℕ → Option (List ℕ)
  | 0, _, _, skips => some skips
  | n + 1, j, i, skips => do
    let skips ← fillAt skips j (i + 1)
    let i ← follow scratch i j
    fillPass scratch n (j + 1) i skips

/-- `bm_pinit`: what it leaves in `last` and in the array of skips. -/
def bmPinit (pat : List UInt8) (last : UInt8 → ℕ) (skips scratch : List ℕ) (fuel : ℕ) : Option ((UInt8 → ℕ) × List ℕ) :=
  if 2 ^ 64 - 2 < pat.length then none
  else if pat.length = 0 then some (last,skips)
  else do
    let last := lastFrom pat 0 fun _ => 0
    let skips ← clearPass pat.length 0 skips
    let (i,skips,scratch) ← borderPass pat fuel (pat.length - 1) pat.length skips scratch
    return (last,← fillPass scratch pat.length 0 i skips)

/-- The shift by the last place of the byte at which the comparison fails. -/
def badShift (last : UInt8 → ℕ) (c : UInt8) (j : ℕ) : ℕ := if last c < j then j - last c else 1

variable {p : List UInt8} {f g : ℕ → ℕ} {a b : List ℕ} {i j k n v x fuel : ℕ}

/-! ## An array and its entries -/

/-- The first `n` entries of an array are those of a function. -/
def Shows (n : ℕ) (f : ℕ → ℕ) (a : List ℕ) : Prop := ∀ x < n, a[x]? = some (f x)

/-- A place and a table, and the same place and an array that shows the table. -/
def Same (n : ℕ) (s : ℕ × (ℕ → ℕ)) (s' : ℕ × List ℕ) : Prop := s.1 = s'.1 ∧ Shows n s.2 s'.2

theorem Shows.set (h : Shows n f a) (hi : i < n) (v : ℕ) : ∃ a', setAt a i v = some a' ∧ Shows n (update f i v) a' := by
  obtain ⟨hlen,-⟩ := List.getElem?_eq_some_iff.mp (h i hi)
  refine ⟨a.set i v,if_pos hlen,fun x hx => ?_⟩
  by_cases hxi : x = i
  · rw [hxi,List.getElem?_set_self hlen,update_self]
  · rw [List.getElem?_set_ne (Ne.symm hxi),h x hx,update_of_ne hxi]

theorem Shows.fill (h : Shows n f a) (hi : i < n) (v : ℕ) :
    ∃ a', fillAt a i v = some a' ∧ Shows n (if f i = 0 then update f i v else f) a' := by
  rw [fillAt,h i hi,Option.bind_eq_bind,Option.bind_some]
  by_cases h0 : f i = 0
  · rw [if_pos h0,if_pos h0]
    exact h.set hi v
  · rw [if_neg h0,if_neg h0]
    exact ⟨a,rfl,h⟩

theorem clearPass_shows (ha : i + n ≤ a.length) (hz : ∀ x < i, a[x]? = some 0) :
    ∃ a', clearPass n i a = some a' ∧ a'.length = a.length ∧ ∀ x < i + n, a'[x]? = some 0 := by
  induction n generalizing i a with
  | zero => exact ⟨a,rfl,rfl,hz⟩
  | succ n ih =>
    have hi : i < a.length := by omega
    have hz' : ∀ x < i + 1, (a.set i 0)[x]? = some 0 := by
      intro x hx
      by_cases hxi : x = i
      · rw [hxi,List.getElem?_set_self hi]
      · rw [List.getElem?_set_ne (Ne.symm hxi)]
        exact hz x (by omega)
    obtain ⟨a',hrun,hlen,hzero⟩ := ih (i := i + 1) (a := a.set i 0) (by rw [List.length_set]; omega) hz'
    refine ⟨a',?_,by rw [hlen,List.length_set],fun x hx => hzero x (by omega)⟩
    rw [clearPass,setAt,if_pos hi,Option.bind_eq_bind,Option.bind_some,hrun]

/-! ## The passes -/

theorem borderBody_follows (hg : Shows p.length g b) {s : ℕ × (ℕ → ℕ)} {s' : ℕ × List ℕ}
    {t : Turn (ℕ × (ℕ → ℕ)) (ℕ × (ℕ → ℕ))} (hs : Same p.length s s') (hb : Matching.borderBody p g j s = some t) :
    ∃ t', borderBody p b j s' = some t' ∧ Turn.Rel (Same p.length) (Same p.length) t t' := by
  obtain ⟨i,f⟩ := s
  obtain ⟨i',a⟩ := s'
  obtain ⟨rfl,hf⟩ := hs
  rw [Matching.borderBody] at hb
  rw [borderBody]
  by_cases hi : i < p.length
  · rw [if_pos hi] at hb ⊢
    rw [List.getElem?_eq_getElem hi] at hb ⊢
    cases hj : p[j]? with
    | none =>
      rw [hj] at hb
      cases hb
    | some y =>
      rw [hj] at hb
      simp only [Option.bind_eq_bind, Option.bind_some] at hb ⊢
      by_cases hab : p[i] = y
      · rw [if_neg (not_not.mpr hab)] at hb ⊢
        cases hb
        exact ⟨_,rfl,.leave ⟨rfl,hf⟩⟩
      · rw [if_pos hab] at hb ⊢
        cases hb
        obtain ⟨a',hset,ha'⟩ := hf.fill hi (ulongSub i j)
        refine ⟨.again (ulongSub (g i) 1,a'),?_,.again ⟨rfl,ha'⟩⟩
        rw [hset,Option.bind_some,hg i hi]
        exact rfl
  · rw [if_neg hi] at hb ⊢
    cases hb
    exact ⟨_,rfl,.leave ⟨rfl,hf⟩⟩

theorem borderStep_follows (hj : j < p.length) (hf : Shows p.length f a) (hg : Shows p.length g b) {f' g' : ℕ → ℕ}
    (hrun : Matching.borderStep p fuel j i f g = some (k,f',g')) :
    ∃ a' b', borderStep p fuel j i a b = some (k,a',b') ∧ Shows p.length f' a' ∧ Shows p.length g' b' := by
  obtain ⟨b',hset,hb'⟩ := hg.set hj (i + 1)
  rw [Matching.borderStep] at hrun
  simp only [Option.bind_eq_bind, Option.bind_eq_some_iff] at hrun
  obtain ⟨⟨i₁,f₁⟩,hloop,hret⟩ := hrun
  obtain ⟨rfl,hrest⟩ := Prod.mk.inj (Option.some.inj hret)
  obtain ⟨rfl,rfl⟩ := Prod.mk.inj hrest
  have hsame : Same p.length (i,f) (i,a) := ⟨rfl,hf⟩
  obtain ⟨⟨i₂,a₂⟩,hloop',hi₂,ha₂⟩ := loop_follows (fun _ _ _ hs hb => borderBody_follows hb' hs hb) hsame hloop
  cases hi₂
  refine ⟨a₂,b',?_,ha₂,hb'⟩
  rw [borderStep,hset,Option.bind_eq_bind,Option.bind_some,hloop']
  exact rfl

theorem borderPass_follows (hj : j < p.length) (hf : Shows p.length f a) (hg : Shows p.length g b) {f' g' : ℕ → ℕ}
    (hrun : Matching.borderPass p fuel j i f g = some (k,f',g')) :
    ∃ a' b', borderPass p fuel j i a b = some (k,a',b') ∧ Shows p.length f' a' ∧ Shows p.length g' b' := by
  induction j generalizing i f g a b with
  | zero => exact borderStep_follows hj hf hg hrun
  | succ j ih =>
    rw [Matching.borderPass] at hrun
    simp only [Option.bind_eq_bind, Option.bind_eq_some_iff] at hrun
    obtain ⟨⟨i₁,f₁,g₁⟩,hstep,hrest⟩ := hrun
    obtain ⟨a₁,b₁,hstep',ha₁,hb₁⟩ := borderStep_follows hj hf hg hstep
    obtain ⟨a',b',hrest',ha',hb'⟩ := ih (Nat.lt_of_succ_lt hj) ha₁ hb₁ hrest
    refine ⟨a',b',?_,ha',hb'⟩
    rw [borderPass,hstep']
    exact hrest'

theorem fillPass_follows (hn : j + n ≤ p.length) (hf : Shows p.length f a) (hg : Shows p.length g b) :
    ∃ a', fillPass b n j i a = some a' ∧ Shows p.length (Matching.fillPass g n j i f) a' := by
  induction n generalizing j i f a with
  | zero => exact ⟨a,rfl,hf⟩
  | succ n ih =>
    have hj : j < p.length := by omega
    obtain ⟨a₁,hset,ha₁⟩ := hf.fill hj (i + 1)
    have hnext : follow b i j = some (if i = j then ulongSub (g j) 1 else i) := by
      rw [follow]
      by_cases hij : i = j
      · rw [if_pos hij,if_pos hij,hg j hj,Option.map_some]
      · rw [if_neg hij,if_neg hij]
    obtain ⟨a',hrest,ha'⟩ := ih (j := j + 1) (i := if i = j then ulongSub (g j) 1 else i) (by omega) ha₁
    refine ⟨a',?_,ha'⟩
    rw [fillPass,hset,hnext]
    exact hrest

theorem bmPinit_follows (hp : p ≠ []) (hlen : p.length ≤ 2 ^ 64 - 2) (last : UInt8 → ℕ) (ha : p.length ≤ a.length)
    (hb : p.length ≤ b.length) (hfuel : p.length < fuel) :
    ∃ bmp s a', bmPinit p last a b fuel = some (bmp.last,a') ∧ Shows p.length s a' ∧ bmp.skips = some s ∧ Prepared p bmp := by
  have hpos := List.length_pos_of_ne_nil hp
  obtain ⟨a₀,hclear,-,hzero⟩ := clearPass_shows (i := 0) (n := p.length) (a := a) (by omega) fun x hx => absurd hx (Nat.not_lt_zero x)
  have hf : Shows p.length (fun i => if i < p.length then 0 else (fun _ => 0) i) a₀ := fun x hx => by
    exact (hzero x (by omega)).trans (congrArg some (if_pos hx).symm)
  have hg : Shows p.length (fun x => b.getD x 0) b := by
    intro x hx
    have hxb : b[x]? = some b[x] := List.getElem?_eq_getElem (show x < b.length by omega)
    simp only [List.getD_eq_getElem?_getD, hxb, Option.getD_some]
  obtain ⟨bmp,s,hinit,hs,hprep⟩ := bmPinit_spec hp hlen last (fun _ => 0) (fun x => b.getD x 0) hfuel
  rw [Matching.bmPinit,if_neg (by omega),if_neg (by omega)] at hinit
  simp only [Option.bind_eq_bind, Option.bind_eq_some_iff] at hinit
  obtain ⟨⟨i,f,g⟩,hpass,hret⟩ := hinit
  obtain rfl := Option.some.inj hret
  obtain ⟨a₁,b₁,hpass',ha₁,hb₁⟩ := borderPass_follows (show p.length - 1 < p.length by omega) hf hg hpass
  obtain ⟨a₂,hfill,ha₂⟩ := fillPass_follows (j := 0) (n := p.length) (i := i) (by omega) ha₁ hb₁
  refine ⟨_,_,a₂,?_,ha₂,rfl,hprep⟩
  rw [bmPinit,if_neg (by omega),if_neg (by omega),hclear]
  simp only [Option.bind_eq_bind, Option.bind_some, hpass', hfill]
  exact rfl

/-! ## The shift -/

theorem cmpDown_fails {t : List UInt8} (h : cmpDown p t i k = some j) (hj : 0 < j) :
    j ≤ k ∧ (∀ y, j - 1 < y → y < k → p[y]? = t[i + y]?) ∧ p[j - 1]? ≠ t[i + (j - 1)]? := by
  induction k with
  | zero =>
    cases h
    exact absurd hj (lt_irrefl 0)
  | succ k ih =>
    rw [cmpDown] at h
    simp only [Option.bind_eq_bind, Option.bind_eq_some_iff] at h
    obtain ⟨x,hx,y,hy,h⟩ := h
    by_cases hxy : x = y
    · rw [if_pos hxy] at h
      obtain ⟨hle,hbehind,hdiff⟩ := ih h
      refine ⟨Nat.le_succ_of_le hle,fun z hz hzk => ?_,hdiff⟩
      rcases Nat.lt_or_eq_of_le (Nat.le_of_lt_succ hzk) with hlt | rfl
      · exact hbehind z hz hlt
      · rw [hx,hy,hxy]
    · rw [if_neg hxy] at h
      cases h
      refine ⟨le_rfl,fun z hz hzk => absurd hzk (by omega),?_⟩
      rw [Nat.add_sub_cancel,hx,hy]
      exact fun he => hxy (Option.some.inj he)

theorem shift_safe {bmp : BmPat} {s : ℕ → ℕ} {t : List UInt8} {c : UInt8} (h : Prepared p bmp) (hs : bmp.skips = some s)
    (hfail : cmpDown p t i p.length = some j) (hj : 0 < j) (hc : t[i + (j - 1)]? = some c) :
    0 < max (s (j - 1)) (badShift bmp.last c j) ∧ ∀ d < max (s (j - 1)) (badShift bmp.last c j), ¬OccursAt p t (i + d) := by
  obtain ⟨hjp,hbehind,hdiff⟩ := cmpDown_fails hfail hj
  obtain ⟨shift,hpos,-,hleast,hshift⟩ := h.skip hj hjp hbehind hdiff hc
  have hmax : max (s (j - 1)) (badShift bmp.last c j) = shift := by
    rw [← hshift,hs,max_comm,max_def_lt,badShift]
  rw [hmax]
  refine ⟨hpos,fun d hd hocc => ?_⟩
  rcases Nat.eq_zero_or_pos d with rfl | hd0
  · exact hdiff (occursAt_iff.mp hocc (j - 1) (by omega))
  · exact Nat.not_le.mpr hd (hleast d hd0 hocc)

/-- The preparation indexes the two arrays inside the pattern's length only, and where a comparison
fails no occurrence starts before the larger of the two shifts, which is at least one. -/
theorem bmPinit_shifts (pat : List UInt8) (last : UInt8 → ℕ) (skips scratch : List ℕ) (hp : pat ≠ [])
    (hpat : pat.length ≤ 2 ^ 64 - 2) (hskips : pat.length ≤ skips.length) (hscratch : pat.length ≤ scratch.length) :
    ∃ fuel last' skips', bmPinit pat last skips scratch fuel = some (last',skips') ∧
      ∀ str i j c, cmpDown pat str i pat.length = some j → 0 < j → str[i + (j - 1)]? = some c →
        ∃ s, skips'[j - 1]? = some s ∧ 0 < max s (badShift last' c j) ∧
          ∀ d < max s (badShift last' c j), ¬OccursAt pat str (i + d) := by
  obtain ⟨bmp,s,a',hrun,hshows,hs,hprep⟩ := bmPinit_follows hp hpat last hskips hscratch (Nat.lt_succ_self pat.length)
  refine ⟨_,bmp.last,a',hrun,fun str i j c hfail hj hc => ?_⟩
  obtain ⟨hjp,-⟩ := cmpDown_fails hfail hj
  exact ⟨s (j - 1),hshows _ (by omega),shift_safe hprep hs hfail hj hc⟩

theorem bmPinit_shifts_border : ∃ fuel last' skips', bmPinit [2,1,2] (fun _ => 7) [9,9,9] [11,11,11] fuel = some (last',skips') ∧
    ∀ str i j c, cmpDown [2,1,2] str i 3 = some j → 0 < j → str[i + (j - 1)]? = some c →
      ∃ s, skips'[j - 1]? = some s ∧ 0 < max s (badShift last' c j) ∧
        ∀ d < max s (badShift last' c j), ¬OccursAt [2,1,2] str (i + d) :=
  bmPinit_shifts [2,1,2] (fun _ => 7) [9,9,9] [11,11,11] (by decide) (by decide) (by decide) (by decide)

example : (bmPinit [2,1,2] (fun _ => 7) [9,9,9] [11,11,11] 9).map Prod.snd = some [2,2,1] := by decide

end Catlib.Matching.Arrays
