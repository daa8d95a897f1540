import Catlib.Matching.Kmp

/-! # The matcher of Boyer and Moore in match.c

An `ulong` counts modulo the word where the code goes down or may go up too far. A byte outside the
pattern or the text cannot be read.
-/
namespace Catlib.Matching
open Function

def ulongAdd (a b : ℕ) : ℕ := (a + b) % 2 ^ 64
def ulongSub (a b : ℕ) : ℕ := (a + (2 ^ 64 - b)) % 2 ^ 64

theorem ulongAdd_of_lt {a b : ℕ} (h : a + b < 2 ^ 64) : ulongAdd a b = a + b := Nat.mod_eq_of_lt h

theorem ulongSub_of_le {a b : ℕ} (h : b ≤ a) (ha : a < 2 ^ 64) : ulongSub a b = a - b := by
  rw [ulongSub,show a + (2 ^ 64 - b) = a - b + 2 ^ 64 by omega,Nat.add_mod_right,Nat.mod_eq_of_lt (by omega)]

/-- `struct bmpat`; the table of skips may be missing. -/
structure BmPat where
  pat : List UInt8
  last : UInt8 → ℕ
  skips : Option (ℕ → ℕ)

/-- The loop that notes the last place of every byte. -/
def lastFrom : List UInt8 → ℕ → (UInt8 → ℕ) → UInt8 → ℕ
  | [], _, last => last
  | c :: pp, i, last => lastFrom pp (i + 1) (update last c (i + 1))

/-- One turn of the inner loop of the first pass of `bm_pinit`, at the place `j`. -/
def borderBody (pp : List UInt8) (scratch : ℕ → ℕ) (j : ℕ) : ℕ × (ℕ → ℕ) → Option (Turn (ℕ × (ℕ → ℕ)) (ℕ × (ℕ → ℕ)))
  | (i,skips) =>
    if i < pp.length then do
      let a ← pp[i]?
      let b ← pp[j]?
      if a ≠ b then
        let skips := if skips i = 0 then update skips i (ulongSub i j) else skips
        return .again (ulongSub (scratch i) 1,skips)
      else return .leave (i,skips)
    else some (.leave (i,skips))

/-- One turn of its `do` loop. -/
def borderStep (pp : List UInt8) (fuel j i : ℕ) (skips scratch : ℕ → ℕ) : Option (ℕ × (ℕ → ℕ) × (ℕ → ℕ)) := do
  let scratch := update scratch j (i + 1)
  let (i,skips) ← loop (borderBody pp scratch j) fuel (i,skips)
  return (ulongSub i 1,skips,scratch)

/-- The first pass, from the place `j` down to the first one. -/
def borderPass (pp : List UInt8) (fuel : ℕ) : ℕ → ℕ → (ℕ → ℕ) → (ℕ → ℕ) → Option (ℕ × (ℕ → ℕ) × (ℕ → ℕ))
  | 0, i, skips, scratch => borderStep pp fuel 0 i skips scratch
  | j + 1, i, skips, scratch => do
    let (i,skips,scratch) ← borderStep pp fuel (j + 1) i skips scratch
    borderPass pp fuel j i skips scratch

/-- The second pass, with `n` places to come. -/
def fillPass (scratch : ℕ → ℕ) : ℕ → ℕ → ℕ → (ℕ → ℕ) → ℕ → ℕ
  | 0, _, _, skips => skips
  | n + 1, j, i, skips =>
    let skips := if skips j = 0 then update skips j (i + 1) else skips
    let i := if i = j then ulongSub (scratch j) 1 else i
    fillPass scratch n (j + 1) i skips

/-- `bm_pinit`; `last`, `skips` and `scratch` hold what they held before. -/
def bmPinit (pat : List UInt8) (last : UInt8 → ℕ) (skips scratch : ℕ → ℕ) (fuel : ℕ) : Option BmPat :=
  if 2 ^ 64 - 2 < pat.length then none
  else if pat.length = 0 then some ⟨pat,last,some skips⟩
  else do
    let last := lastFrom pat 0 fun _ => 0
    let skips := fun i => if i < pat.length then 0 else skips i
    let (i,skips,scratch) ← borderPass pat fuel (pat.length - 1) pat.length skips scratch
    return ⟨pat,last,some (fillPass scratch pat.length 0 i skips)⟩

def bmPinitLite (pat : List UInt8) (last : UInt8 → ℕ) : Option BmPat :=
  if 2 ^ 64 - 2 < pat.length then none
  else if pat.length = 0 then some ⟨pat,last,none⟩
  else some ⟨pat,lastFrom pat 0 fun _ => 0,none⟩

/-- `while ( j > 0 && pp[j-1] == sp[i+j-1] ) --j`. -/
def cmpDown (pp sp : List UInt8) (i : ℕ) : ℕ → Option ℕ
  | 0 => some 0
  | j + 1 => do
    let a ← pp[j]?
    let b ← sp[i + j]?
    if a = b then cmpDown pp sp i j else return j + 1

/-- One turn of the loop of `bm_match`. -/
def bmBody (pat : BmPat) (sp : List UInt8) (i : ℕ) : Option (Turn ℕ (Option ℕ)) :=
  if i ≤ ulongSub sp.length pat.pat.length then do
    let j ← cmpDown pat.pat sp i pat.pat.length
    if j = 0 then return .leave (some i)
    else
      let c ← sp[i + j - 1]?
      let skip := pat.last c
      let skip := if skip < j then j - skip else 1
      let skip :=
        match pat.skips with
        | some skips => if skip < skips (j - 1) then skips (j - 1) else skip
        | none => skip
      return .again (ulongAdd i skip)
  else some (.leave none)

def bmMatch (str : List UInt8) (pat : BmPat) (loc : Bool) (fuel : ℕ) : Option (ℤ × Option ℕ) :=
  if pat.skips.isNone then none else (loop (bmBody pat str) fuel 0).map (matched loc)

/-! ## The last places of the bytes -/

variable {p t : List UInt8} {last : UInt8 → ℕ} {skips scratch : ℕ → ℕ} {c : UInt8} {a b d i j k n x fuel : ℕ}

theorem lastFrom_ge (p : List UInt8) (i : ℕ) (last : UInt8 → ℕ) (c : UInt8) (hl : last c ≤ i) :
    last c ≤ lastFrom p i last c ∧ ∀ k, p[k]? = some c → i + k + 1 ≤ lastFrom p i last c := by
  induction p generalizing i last with
  | nil => exact ⟨le_rfl,fun k hk => by simp at hk⟩
  | cons b p ih =>
    by_cases hbc : b = c
    · obtain ⟨h1,h2⟩ := ih (i + 1) (update last b (i + 1)) (by rw [hbc,update_self])
      rw [hbc,update_self] at h1
      subst hbc
      refine ⟨by rw [lastFrom]; omega,fun k hk => ?_⟩
      rw [lastFrom]
      cases k with
      | zero => exact h1
      | succ k =>
        have := h2 k (by simpa using hk)
        omega
    · obtain ⟨h1,h2⟩ := ih (i + 1) (update last b (i + 1)) (by rw [update_of_ne (Ne.symm hbc)]; omega)
      rw [update_of_ne (Ne.symm hbc)] at h1
      refine ⟨h1,fun k hk => ?_⟩
      rw [lastFrom]
      cases k with
      | zero => exact absurd (by simpa using hk) hbc
      | succ k =>
        have := h2 k (by simpa using hk)
        omega

theorem lastFrom_last (hk : p[k]? = some c) : k + 1 ≤ lastFrom p 0 (fun _ => 0) c := by
  have := (lastFrom_ge p 0 (fun _ => 0) c (Nat.zero_le _)).2 k hk
  omega

/-! ## The first pass

Counting down, the pass has at the place `j` the next border of what lies behind `j`, and notes at the
place where a border fails to go on how far the pattern goes to it.
-/

/-- Every shift of the place `x` to one at `a` or behind it where the pattern differs is noted. -/
def Marked (p : List UInt8) (a : ℕ) (skips : ℕ → ℕ) : Prop :=
  ∀ x < p.length, ∀ d, 0 < d → d + a ≤ x → p[x - d]? ≠ p[x]? → Period p (x - d + 1) d → skips x ≠ 0 ∧ skips x ≤ d

/-- A shift that is noted leads to `a` or behind it. -/
def Valued (p : List UInt8) (a : ℕ) (skips : ℕ → ℕ) : Prop := ∀ x < p.length, skips x ≠ 0 → skips x + a ≤ x

/-- The inner loop at the place `j`: no border starts between `j` and `i`, and those of what lies behind `j`
that fail at `j` are noted. -/
structure Failing (p : List UInt8) (j i : ℕ) (skips : ℕ → ℕ) : Prop where
  lt : j < i
  le : i ≤ p.length
  period : Period p (j + 1) (i - j)
  first : ∀ x, j < x → x < i → ¬Period p j (x - j)
  noted : ∀ x, j < x → x < i → p[j]? ≠ p[x]? → Period p (j + 1) (x - j) → skips x ≠ 0 ∧ skips x ≤ x - j
  marked : Marked p (j + 1) skips
  valued : Valued p j skips

theorem NextBorder.failing (h : NextBorder p (j + 1) (i + 1)) (hm : Marked p (j + 1) skips) (hv : Valued p (j + 1) skips) :
    Failing p j i skips := by
  have hlt := h.lt
  have hle := h.le
  have hbefore : ∀ x, j < x → x < i → ¬Period p (j + 1) (x - j) := fun x hx hxi => by
    have hfirst := h.first (x + 1) (by omega) (by omega)
    rwa [Nat.add_sub_add_right] at hfirst
  refine ⟨by omega,by omega,?_,fun x hx hxi hp => hbefore x hx hxi (period_succ.mp hp).1,
    fun x hx hxi _ hp => absurd hp (hbefore x hx hxi),hm,fun x hx h0 => by have := hv x hx h0; omega⟩
  by_cases hi : i + 1 ≤ p.length
  · have hper := h.period hi
    rwa [Nat.add_sub_add_right] at hper
  · exact period_of_le (by omega)

/-- What the body notes at a place where the border fails. -/
def noteAt (skips : ℕ → ℕ) (i j : ℕ) : ℕ → ℕ := if skips i = 0 then update skips i (i - j) else skips

theorem noteAt_of_ne (h : x ≠ i) : noteAt skips i j x = skips x := by
  rw [noteAt]
  split
  · exact update_of_ne h _ _
  · rfl

theorem noteAt_self (hv : skips i ≠ 0 → skips i + j ≤ i) (hj : j < i) :
    noteAt skips i j i ≠ 0 ∧ noteAt skips i j i + j ≤ i ∧ (skips i ≠ 0 → noteAt skips i j i = skips i) := by
  rw [noteAt]
  by_cases h0 : skips i = 0
  · rw [if_pos h0,update_self]
    omega
  · rw [if_neg h0]
    exact ⟨h0,hv h0,fun _ => rfl⟩

theorem Failing.again {b : ℕ} (h : Failing p j i skips) (hi : i < p.length) (hdiff : p[i]? ≠ p[j]?)
    (hb : NextBorder p (i + 1) b) : Failing p j (b - 1) (noteAt skips i j) := by
  have hlt := h.lt
  have hblt := hb.lt
  have hble := hb.le
  obtain ⟨hat0,hatle,hatold⟩ := noteAt_self (h.valued i hi) hlt
  have hper : Period p (j + 1) (i + 1 - (j + 1)) := by rw [Nat.add_sub_add_right]; exact h.period
  obtain ⟨hnext,hbetween⟩ := hb.follow (Nat.add_lt_add_right hlt 1) hper
  have hskip : ∀ x, i < x → x < b - 1 → ¬Period p (j + 1) (x - j) := fun x hx hxb => by
    have hno := hbetween (x + 1) (by lia) (by lia)
    rwa [Nat.add_sub_add_right] at hno
  refine ⟨by lia,by lia,?_,fun x hx hxb hp => ?_,fun x hx hxb hne hp => ?_,fun x hx d hd hda hne hp => ?_,fun x hx h0 => ?_⟩
  · by_cases hbp : b ≤ p.length
    · have hp := hnext hbp
      rwa [show b - (j + 1) = b - 1 - j by lia] at hp
    · exact period_of_le (by lia)
  · rcases lt_trichotomy x i with hxi | rfl | hxi
    · exact h.first x hx hxi hp
    · refine hdiff ?_
      have hend := (period_succ.mp hp).2 (by lia)
      rw [hend,Nat.add_sub_cancel' (Nat.le_of_lt hx)]
    · exact hskip x hxi hxb (period_succ.mp hp).1
  · rcases lt_trichotomy x i with hxi | rfl | hxi
    · rw [noteAt_of_ne (Nat.ne_of_lt hxi)]
      exact h.noted x hx hxi hne hp
    · exact ⟨hat0,by lia⟩
    · exact absurd hp (hskip x hxi hxb)
  · obtain ⟨hold,hold'⟩ := h.marked x hx d hd hda hne hp
    by_cases hxi : x = i
    · subst hxi
      exact ⟨hat0,by rw [hatold hold]; exact hold'⟩
    · rw [noteAt_of_ne hxi]
      exact ⟨hold,hold'⟩
  · by_cases hxi : x = i
    · subst hxi
      exact hatle
    · rw [noteAt_of_ne hxi] at h0 ⊢
      exact h.valued x hx h0

theorem Failing.leave (h : Failing p j i skips) (hi : i < p.length → p[i]? = p[j]?) : NextBorder p j i ∧ Marked p j skips := by
  have hlt := h.lt
  have hle := h.le
  refine ⟨⟨hlt,by lia,fun _ => period_succ.mpr ⟨h.period,fun hji => ?_⟩,h.first⟩,fun x hx d hd hda hne hp => ?_⟩
  · rw [Nat.add_sub_cancel' (Nat.le_of_lt hlt)] at hji ⊢
    exact (hi hji).symm
  · by_cases hdj : d + (j + 1) ≤ x
    · exact h.marked x hx d hd hdj hne hp
    · rw [show x - d = j by lia] at hne hp
      obtain rfl : d = x - j := by lia
      rcases lt_trichotomy x i with hxi | rfl | hxi
      · exact h.noted x (by lia) hxi hne hp
      · exact absurd (hi hx).symm hne
      · -- the border at `i` carries the shift to one between `i` and `x`
        have hsub : Period p (i + 1) (x - i) := by
          have hsum : x - j = (i - j) + (x - i) := by lia
          have hrest := h.period.sub (hsum ▸ hp)
          rwa [show j + 1 + (i - j) = i + 1 by lia] at hrest
        have hxi' : x - (x - i) = i := by lia
        obtain ⟨h0,hnote⟩ := h.marked x hx (x - i) (by lia) (by lia) (by rw [hxi',hi (by lia)]; exact hne) (by rwa [hxi'])
        exact ⟨h0,by lia⟩

/-- The next borders of what lies behind the places from `a` on. -/
def Borders (p : List UInt8) (a : ℕ) (scratch : ℕ → ℕ) : Prop := ∀ x, a ≤ x → x < p.length → NextBorder p (x + 1) (scratch x)

theorem borderLoop_spec (hlen : p.length ≤ 2 ^ 64 - 2) (hs : Borders p (j + 1) scratch) (h : Failing p j i skips)
    (hfuel : p.length < fuel) :
    ∃ r, loop (borderBody p scratch j) fuel (i,skips) = some r ∧ NextBorder p j r.1 ∧ Marked p j r.2 ∧ Valued p j r.2 := by
  refine loop_total (I := fun n r => n = p.length - r.1 ∧ Failing p j r.1 r.2) (fun n r => ?_) ⟨rfl,h⟩ (by omega)
  obtain ⟨i,skips⟩ := r
  rintro ⟨rfl,h⟩
  have hlt := h.lt
  have hle := h.le
  obtain ⟨b,hb⟩ : ∃ b, p[j]? = some b := ⟨_,List.getElem?_eq_getElem (by omega)⟩
  by_cases hi : i < p.length
  · obtain ⟨a,ha⟩ : ∃ a, p[i]? = some a := ⟨_,List.getElem?_eq_getElem hi⟩
    by_cases hab : a = b
    · obtain ⟨hnext,hmark⟩ := h.leave (fun _ => by rw [ha,hb,hab])
      exact Or.inr ⟨(i,skips),by rw [borderBody,if_pos hi,ha,hb]; simp [hab],hnext,hmark,h.valued⟩
    · have hborder := hs i hlt hi
      have hblt := hborder.lt
      have hble := hborder.le
      refine Or.inl ⟨(scratch i - 1,noteAt skips i j),_,?_,?_,rfl,
        h.again hi (by rw [ha,hb]; exact fun he => hab (Option.some.inj he)) hborder⟩
      · rw [borderBody,if_pos hi,ha,hb,ulongSub_of_le (Nat.le_of_lt hlt) (show i < 2 ^ 64 by omega),
          ulongSub_of_le (show 1 ≤ scratch i by omega) (show scratch i < 2 ^ 64 by omega)]
        simp [hab, noteAt]
      · show p.length - (scratch i - 1) < p.length - i
        omega
  · obtain ⟨hnext,hmark⟩ := h.leave (fun hip => absurd hip hi)
    exact Or.inr ⟨(i,skips),by simp [borderBody, hi],hnext,hmark,h.valued⟩

theorem borderStep_spec (hlen : p.length ≤ 2 ^ 64 - 2) (hfuel : p.length < fuel) (hj : j < p.length) (hi : NextBorder p (j + 1) (i + 1))
    (hs : Borders p (j + 1) scratch) (hm : Marked p (j + 1) skips) (hv : Valued p (j + 1) skips) :
    ∃ i' skips' scratch', borderStep p fuel j i skips scratch = some (i',skips',scratch') ∧ NextBorder p j (i' + 1) ∧
      Borders p j scratch' ∧ Marked p j skips' ∧ Valued p j skips' := by
  have hs' : Borders p j (update scratch j (i + 1)) := by
    intro x hx hxp
    by_cases hxj : x = j
    · rw [hxj,update_self]
      exact hi
    · rw [update_of_ne hxj]
      exact hs x (by omega) hxp
  obtain ⟨⟨i',skips'⟩,hrun,hnext,hmark,hval⟩ := borderLoop_spec hlen (fun x hx => hs' x (by omega)) (hi.failing hm hv) hfuel
  have hlt := hnext.lt
  have hle := hnext.le_length hj
  refine ⟨i' - 1,skips',_,?_,?_,hs',hmark,hval⟩
  · rw [borderStep,hrun]
    simp only [Option.bind_eq_bind, Option.bind_some]
    rw [ulongSub_of_le (Nat.one_le_of_lt hlt) (by omega)]
    exact rfl
  · rwa [Nat.sub_add_cancel (Nat.one_le_of_lt hlt)]

theorem borderPass_spec (hlen : p.length ≤ 2 ^ 64 - 2) (hfuel : p.length < fuel) (hj : j < p.length) (hi : NextBorder p (j + 1) (i + 1))
    (hs : Borders p (j + 1) scratch) (hm : Marked p (j + 1) skips) (hv : Valued p (j + 1) skips) :
    ∃ i' skips' scratch', borderPass p fuel j i skips scratch = some (i',skips',scratch') ∧ NextBorder p 0 (i' + 1) ∧
      Borders p 0 scratch' ∧ Marked p 0 skips' ∧ Valued p 0 skips' := by
  induction j generalizing i skips scratch with
  | zero => exact borderStep_spec hlen hfuel hj hi hs hm hv
  | succ j ih =>
    obtain ⟨i',skips',scratch',hrun,hi',hs',hm',hv'⟩ := borderStep_spec hlen hfuel hj hi hs hm hv
    obtain ⟨i'',skips'',scratch'',hrest,h⟩ := ih (Nat.lt_of_succ_lt hj) hi' hs' hm' hv'
    exact ⟨i'',skips'',scratch'',by simp [borderPass, hrun, hrest],h⟩

/-! ## The second pass -/

/-- `i + 1` is the first period of the pattern behind `j`. -/
structure NextPeriod (p : List UInt8) (j i : ℕ) : Prop where
  le : j ≤ i
  bound : i ≤ p.length
  period : i < p.length → Period p 0 (i + 1)
  first : ∀ b, j < b → b ≤ i → ¬Period p 0 b

theorem NextBorder.nextPeriod (h : NextBorder p 0 (i + 1)) : NextPeriod p 0 i :=
  ⟨Nat.zero_le _,Nat.le_of_succ_le_succ h.le,h.period,fun b hb hbi => h.first b hb (Nat.lt_succ_of_le hbi)⟩

theorem NextPeriod.lt_length (h : NextPeriod p j i) (hj : j < p.length) : i < p.length := by
  by_contra hlt
  exact h.first p.length hj (Nat.le_of_not_lt hlt) (period_of_le (by omega))

theorem NextPeriod.succ (h : NextPeriod p j i) (hj : j < p.length) (hs : Borders p 0 scratch) :
    NextPeriod p (j + 1) (if i = j then scratch j - 1 else i) := by
  by_cases hij : i = j
  · subst hij
    have hb := hs i (Nat.zero_le _) hj
    have hlt := hb.lt
    have hle := hb.le
    obtain ⟨hnext,hbetween⟩ := hb.follow (Nat.succ_pos i) (h.period hj)
    rw [if_pos rfl]
    refine ⟨by omega,by omega,fun hi => ?_,fun b hb1 hb2 => hbetween b hb1 (by omega)⟩
    rw [Nat.sub_add_cancel (Nat.one_le_of_lt hlt)]
    exact hnext (by omega)
  · have hle := h.le
    rw [if_neg hij]
    exact ⟨by omega,h.bound,h.period,fun b hb hbi => h.first b (by omega) hbi⟩

/-- A table whose entries are safe, and whose empty ones lie at `j` or behind it and have no short shift. -/
structure Filling (p : List UInt8) (j : ℕ) (skips : ℕ → ℕ) : Prop where
  safe : ∀ x < p.length, skips x ≠ 0 → SafeShift p x (skips x)
  empty : ∀ x < p.length, skips x = 0 → j ≤ x ∧ ∀ d, 0 < d → d ≤ x → ¬Fits p x d

theorem Marked.filling (hm : Marked p 0 skips) (hv : Valued p 0 skips) : Filling p 0 skips := by
  have hshift : ∀ x < p.length, ∀ d, 0 < d → d ≤ x → Fits p x d → skips x ≠ 0 ∧ skips x ≤ d := by
    intro x hx d hd hdx hfit
    have hper := hfit.period
    rw [show x + 1 - d = x - d + 1 by omega] at hper
    exact hm x hx d hd hdx (hfit.differs hdx) hper
  refine ⟨fun x hx h0 => ?_,fun x hx h0 => ⟨Nat.zero_le _,fun d hd hdx hfit => (hshift x hx d hd hdx hfit).1 h0⟩⟩
  have hval := hv x hx h0
  refine ⟨Nat.pos_of_ne_zero h0,by omega,fun d hd hfit => ?_⟩
  by_cases hdx : d ≤ x
  · exact (hshift x hx d hd hdx hfit).2
  · omega

theorem Filling.succ (h : Filling p j skips) (hi : NextPeriod p j i) (hj : j < p.length) :
    Filling p (j + 1) (if skips j = 0 then update skips j (i + 1) else skips) := by
  by_cases h0 : skips j = 0
  · rw [if_pos h0]
    have hnew : SafeShift p j (i + 1) := by
      refine ⟨Nat.succ_pos i,hi.lt_length hj,fun d hd hfit => ?_⟩
      by_contra hlt
      by_cases hdj : d ≤ j
      · exact (h.empty j hj h0).2 d hd hdj hfit
      · have hper := hfit.period
        rw [show j + 1 - d = 0 by omega] at hper
        exact hi.first d (by omega) (by omega) hper
    refine ⟨fun x hx hx0 => ?_,fun x hx hx0 => ?_⟩
    · by_cases hxj : x = j
      · rw [hxj,update_self]
        exact hnew
      · rw [update_of_ne hxj] at hx0 ⊢
        exact h.safe x hx hx0
    · by_cases hxj : x = j
      · rw [hxj,update_self] at hx0
        omega
      · rw [update_of_ne hxj] at hx0
        obtain ⟨hle,hno⟩ := h.empty x hx hx0
        exact ⟨by omega,hno⟩
  · rw [if_neg h0]
    refine ⟨h.safe,fun x hx hx0 => ?_⟩
    obtain ⟨hle,hno⟩ := h.empty x hx hx0
    exact ⟨Nat.lt_of_le_of_ne hle fun he => h0 (he ▸ hx0),hno⟩

theorem fillPass_spec (hlen : p.length ≤ 2 ^ 64 - 2) (hn : j + n = p.length) (hs : Borders p 0 scratch) (hi : NextPeriod p j i)
    (h : Filling p j skips) : ∀ x < p.length, SafeShift p x (fillPass scratch n j i skips x) := by
  induction n generalizing j i skips with
  | zero =>
    refine fun x hx => h.safe x hx fun h0 => ?_
    have := (h.empty x hx h0).1
    omega
  | succ n ih =>
    have hj : j < p.length := by omega
    have hb := hs j (Nat.zero_le _) hj
    have hsub : ulongSub (scratch j) 1 = scratch j - 1 :=
      ulongSub_of_le (Nat.one_le_of_lt hb.lt) (by have := hb.le; omega)
    rw [fillPass,hsub]
    exact ih (by omega) (hi.succ hj hs) (h.succ hi hj)

/-! ## The search -/

theorem cmpDown_spec (hi : i + p.length ≤ t.length) (hk : k ≤ p.length) (hbehind : ∀ y, k ≤ y → y < p.length → p[y]? = t[i + y]?) :
    ∃ j, cmpDown p t i k = some j ∧ (j = 0 ∧ OccursAt p t i ∨
      0 < j ∧ j ≤ p.length ∧ (∀ y, j - 1 < y → y < p.length → p[y]? = t[i + y]?) ∧ p[j - 1]? ≠ t[i + (j - 1)]?) := by
  induction k with
  | zero => exact ⟨0,rfl,Or.inl ⟨rfl,occursAt_iff.mpr fun y hy => hbehind y (Nat.zero_le _) hy⟩⟩
  | succ k ih =>
    obtain ⟨a,ha⟩ : ∃ a, p[k]? = some a := ⟨_,List.getElem?_eq_getElem hk⟩
    obtain ⟨b,hb⟩ : ∃ b, t[i + k]? = some b := ⟨_,List.getElem?_eq_getElem (by omega)⟩
    by_cases hab : a = b
    · obtain ⟨j,hj,hr⟩ := ih (Nat.le_of_succ_le hk) (fun y hy hyp => by
        rcases Nat.lt_or_eq_of_le hy with hy | rfl
        · exact hbehind y hy hyp
        · rw [ha,hb,hab])
      exact ⟨j,by simp [cmpDown, ha, hb, hab, hj],hr⟩
    · refine ⟨k + 1,by simp [cmpDown, ha, hb, hab],Or.inr ⟨Nat.succ_pos k,hk,fun y hy hyp => hbehind y hy hyp,?_⟩⟩
      rw [Nat.add_sub_cancel,ha,hb]
      exact fun he => hab (Option.some.inj he)

/-- A pattern whose tables pass no occurrence over. -/
structure Prepared (p : List UInt8) (bmp : BmPat) : Prop where
  pat : bmp.pat = p
  last : ∀ c k, p[k]? = some c → k + 1 ≤ bmp.last c
  skips : ∀ s, bmp.skips = some s → ∀ x < p.length, SafeShift p x (s x)

theorem bmPinit_spec (hp : p ≠ []) (hlen : p.length ≤ 2 ^ 64 - 2) (last : UInt8 → ℕ) (skips scratch : ℕ → ℕ)
    (hfuel : p.length < fuel) : ∃ bmp s, bmPinit p last skips scratch fuel = some bmp ∧ bmp.skips = some s ∧ Prepared p bmp := by
  have hpos := List.length_pos_of_ne_nil hp
  have hend : NextBorder p (p.length - 1 + 1) (p.length + 1) := by
    rw [Nat.sub_add_cancel hpos]
    exact nextBorder_end
  have hzero : ∀ x < p.length, (fun i => if i < p.length then 0 else skips i) x = 0 := fun x hx => if_pos hx
  obtain ⟨i,skips',scratch',hrun,hi,hs,hm,hv⟩ := borderPass_spec hlen hfuel (show p.length - 1 < p.length by omega) hend
    (show Borders p (p.length - 1 + 1) scratch from fun x hx hxp => by omega)
    (show Marked p (p.length - 1 + 1) _ from fun x hx d hd hle => by omega)
    (show Valued p (p.length - 1 + 1) (fun i => if i < p.length then 0 else skips i) from fun x hx h0 => absurd (hzero x hx) h0)
  refine ⟨⟨p,lastFrom p 0 fun _ => 0,some (fillPass scratch' p.length 0 i skips')⟩,_,?_,rfl,rfl,fun c k hk => lastFrom_last hk,
    fun s hskips => ?_⟩
  · rw [bmPinit,if_neg (by omega),if_neg (Nat.pos_iff_ne_zero.mp hpos)]
    simp only [Option.bind_eq_bind, hrun, Option.bind_some]
    exact rfl
  · cases hskips
    exact fillPass_spec hlen (Nat.zero_add _) hs hi.nextPeriod (hm.filling hv)

theorem Prepared.skip {bmp : BmPat} (h : Prepared p bmp) (hj : 0 < j) (hjp : j ≤ p.length)
    (hbehind : ∀ y, j - 1 < y → y < p.length → p[y]? = t[i + y]?) (hdiff : p[j - 1]? ≠ t[i + (j - 1)]?) (hc : t[i + (j - 1)]? = some c) :
    ∃ s, 0 < s ∧ s ≤ p.length ∧ (∀ d, 0 < d → OccursAt p t (i + d) → s ≤ d) ∧
      (match bmp.skips with
        | some skips => if (if bmp.last c < j then j - bmp.last c else 1) < skips (j - 1) then skips (j - 1)
            else if bmp.last c < j then j - bmp.last c else 1
        | none => if bmp.last c < j then j - bmp.last c else 1) = s := by
  have hbad : ∀ d, 0 < d → OccursAt p t (i + d) → (if bmp.last c < j then j - bmp.last c else 1) ≤ d := by
    intro d hd hocc
    by_cases hl : bmp.last c < j
    · rw [if_pos hl]
      by_cases hdj : d ≤ j - 1
      · have hat := (occursAt_iff.mp hocc) (j - 1 - d) (by lia)
        rw [show i + d + (j - 1 - d) = i + (j - 1) by lia,hc] at hat
        have := h.last c _ hat
        lia
      · lia
    · rw [if_neg hl]
      exact hd
  have hbad0 : 0 < (if bmp.last c < j then j - bmp.last c else 1) ∧ (if bmp.last c < j then j - bmp.last c else 1) ≤ p.length := by
    split <;> lia
  cases hs : bmp.skips with
  | none => exact ⟨_,hbad0.1,hbad0.2,hbad,rfl⟩
  | some skips =>
    have hsafe := h.skips skips hs (j - 1) (by lia)
    by_cases hlt : (if bmp.last c < j then j - bmp.last c else 1) < skips (j - 1)
    · refine ⟨skips (j - 1),hsafe.pos,hsafe.le,fun d hd hocc => ?_,if_pos hlt⟩
      exact hsafe.least d hd (hocc.fits (by lia) hbehind hdiff)
    · exact ⟨_,hbad0.1,hbad0.2,hbad,if_neg hlt⟩

theorem bmLoop_spec {bmp : BmPat} (h : Prepared p bmp) (hp : 0 < p.length) (hpt : p.length ≤ t.length) (ht : t.length < 2 ^ 64)
    (hfuel : t.length + 1 < fuel) : ∃ found, loop (bmBody bmp t) fuel 0 = some found ∧ Finds p t found := by
  refine loop_total (I := fun m i => m = t.length + 1 - i ∧ i ≤ t.length ∧ ∀ j < i, ¬OccursAt p t j) (fun m i => ?_)
    ⟨rfl,Nat.zero_le _,fun j hj => absurd hj (Nat.not_lt_zero j)⟩ hfuel
  rintro ⟨rfl,hit,hno⟩
  have hsub : ulongSub t.length p.length = t.length - p.length := ulongSub_of_le hpt ht
  by_cases hi : i ≤ t.length - p.length
  · obtain ⟨j,hj,⟨rfl,hocc⟩ | ⟨hj0,hjp,hbehind,hdiff⟩⟩ := cmpDown_spec (show i + p.length ≤ t.length by lia)
      (le_refl p.length) (fun y hy hyp => absurd hyp (Nat.not_lt.mpr hy))
    · exact Or.inr ⟨some i,by simp [bmBody, hsub, hi, h.pat, hj],hocc,hno⟩
    · obtain ⟨c,hc⟩ : ∃ c, t[i + (j - 1)]? = some c := ⟨_,List.getElem?_eq_getElem (by lia)⟩
      obtain ⟨s,hs0,hsp,hleast,hskip⟩ := h.skip hj0 hjp hbehind hdiff hc
      have hc' : t[i + j - 1]? = some c := by rwa [Nat.add_sub_assoc hj0]
      refine Or.inl ⟨i + s,_,?_,?_,rfl,by lia,fun k hk hocc => ?_⟩
      · rw [bmBody,h.pat,if_pos (by rwa [hsub]),hj]
        simp only [Option.bind_eq_bind, Option.bind_some, if_neg (Nat.pos_iff_ne_zero.mp hj0), hc', hskip]
        rw [ulongAdd_of_lt (by lia)]
        exact rfl
      · lia
      · by_cases hki : k < i
        · exact hno k hki hocc
        · rcases Nat.lt_or_eq_of_le (Nat.not_lt.mp hki) with hlt | rfl
          · have := hleast (k - i) (by lia) (by rwa [show i + (k - i) = k by lia])
            lia
          · exact hdiff ((occursAt_iff.mp hocc) (j - 1) (by lia))
  · refine Or.inr ⟨none,by simp [bmBody, h.pat, hsub, hi],fun j hocc => ?_⟩
    have := hocc.length_le (List.ne_nil_of_length_pos hp)
    exact hno j (by lia) hocc

theorem bmMatch_short {bmp : BmPat} (h : bmp.pat = p) (hlt : t.length < p.length) (loc : Bool) (fuel : ℕ) :
    bmMatch t bmp loc fuel = none := by
  have hbody : bmBody bmp t 0 = none := by
    obtain ⟨k,hk⟩ : ∃ k, p.length = k + 1 := ⟨p.length - 1,by omega⟩
    have hread : t[0 + k]? = none := List.getElem?_eq_none (by omega)
    rw [bmBody,if_pos (Nat.zero_le _),h,hk,cmpDown,hread]
    cases p[k]? <;> rfl
  rw [bmMatch,loop_none hbody]
  split <;> rfl

/-- With a prepared pattern the search reads only bytes of the text and answers with the first
occurrence exactly if the text is no shorter than the pattern. -/
theorem bmMatch_spec_iff (pat str : List UInt8) (last : UInt8 → ℕ) (skips scratch : ℕ → ℕ) (hp : pat ≠ [])
    (hpat : pat.length ≤ 2 ^ 64 - 2) (hstr : str.length < 2 ^ 64) :
    ∃ fuel bmp, bmPinit pat last skips scratch fuel = some bmp ∧
      ((∃ fuel found, Finds pat str found ∧ ∀ loc, bmMatch str bmp loc fuel = some (matched loc found)) ↔ pat.length ≤ str.length) := by
  obtain ⟨bmp,s,hinit,hskips,hprep⟩ := bmPinit_spec hp hpat last skips scratch (Nat.lt_succ_self pat.length)
  refine ⟨_,bmp,hinit,fun ⟨fuel,found,_,hrun⟩ => ?_,fun hle => ?_⟩
  · by_contra hlt
    have hnone := bmMatch_short hprep.pat (Nat.lt_of_not_le hlt) true fuel
    rw [hrun] at hnone
    cases hnone
  · obtain ⟨found,hrun,hfinds⟩ := bmLoop_spec hprep (List.length_pos_of_ne_nil hp) hle hstr (Nat.lt_succ_self (str.length + 1))
    refine ⟨str.length + 2,found,hfinds,fun loc => ?_⟩
    rw [bmMatch,hskips,hrun]
    exact rfl

theorem bmMatch_spec_iff_border : ∃ fuel bmp, bmPinit [2,1,2] (fun _ => 7) (fun _ => 9) (fun _ => 11) fuel = some bmp ∧
    ((∃ fuel found, Finds ([2,1,2] : List UInt8) [2,1,1,2,1,2] found ∧
      ∀ loc, bmMatch [2,1,1,2,1,2] bmp loc fuel = some (matched loc found)) ↔ [2,1,2].length ≤ [2,1,1,2,1,2].length) :=
  bmMatch_spec_iff [2,1,2] [2,1,1,2,1,2] (fun _ => 7) (fun _ => 9) (fun _ => 11) (by decide) (by decide) (by decide)

/-- Two bytes looked for in a text of one byte. -/
theorem bmMatch_short_two : ¬∃ fuel bmp, bmPinit [1,2] (fun _ => 0) (fun _ => 0) (fun _ => 0) fuel = some bmp ∧
    ∃ fuel found, Finds ([1,2] : List UInt8) [2] found ∧ ∀ loc, bmMatch [2] bmp loc fuel = some (matched loc found) := by
  rintro ⟨fuel,bmp,hinit,fuel',found,-,hrun⟩
  have hpat : bmp.pat = [1,2] := by
    rw [bmPinit,if_neg (by decide),if_neg (by decide)] at hinit
    simp only [Option.bind_eq_bind, Option.bind_eq_some_iff] at hinit
    obtain ⟨r,-,hr⟩ := hinit
    cases hr
    rfl
  have hnone := bmMatch_short (t := [2]) hpat (by decide) true fuel'
  rw [hrun] at hnone
  cases hnone

example : (bmPinit [2,1,2] (fun _ => 7) (fun _ => 9) (fun _ => 11) 9).bind (fun bmp => bmMatch [2,1,1,2,1,2] bmp true 9) =
    some (1,some 3) := by
  decide

/-! ## The pattern without skips -/

theorem bmPinitLite_spec (hp : p ≠ []) (hlen : p.length ≤ 2 ^ 64 - 2) (last : UInt8 → ℕ) :
    ∃ lite, bmPinitLite p last = some lite ∧ lite.skips = none ∧ Prepared p lite := by
  refine ⟨⟨p,lastFrom p 0 fun _ => 0,none⟩,?_,rfl,rfl,fun c k hk => lastFrom_last hk,fun s hs => by cases hs⟩
  rw [bmPinitLite,if_neg (by omega),if_neg (Nat.pos_iff_ne_zero.mp (List.length_pos_of_ne_nil hp))]

theorem bmLoop_lite {bmp lite : BmPat} (hb : Prepared p bmp) (hl : Prepared p lite) (hp : 0 < p.length) (hpt : p.length ≤ t.length)
    (ht : t.length < 2 ^ 64) (hfuel : t.length + 1 < fuel) : loop (bmBody bmp t) fuel 0 = loop (bmBody lite t) fuel 0 := by
  obtain ⟨found,hrun,hfinds⟩ := bmLoop_spec hb hp hpt ht hfuel
  obtain ⟨found',hrun',hfinds'⟩ := bmLoop_spec hl hp hpt ht hfuel
  rw [hrun,hrun',hfinds.unique hfinds']

theorem bmMatch_lite {lite : BmPat} (h : lite.skips = none) (str : List UInt8) (loc : Bool) (fuel : ℕ) :
    bmMatch str lite loc fuel = none := by
  rw [bmMatch,h]
  exact rfl

/-- In no text does the search answer the same with both preparations: with the one it answers, with
the other it aborts. -/
theorem bmMatch_lite_ne (pat str : List UInt8) (last last' : UInt8 → ℕ) (skips scratch : ℕ → ℕ) (loc : Bool) (hp : pat ≠ [])
    (hpat : pat.length ≤ 2 ^ 64 - 2) (hle : pat.length ≤ str.length) (hstr : str.length < 2 ^ 64) :
    ∃ fuel bmp lite, bmPinit pat last skips scratch fuel = some bmp ∧ bmPinitLite pat last' = some lite ∧
      (∃ fuel, (bmMatch str bmp loc fuel).isSome) ∧ ¬∃ fuel r, bmMatch str bmp loc fuel = some r ∧ bmMatch str lite loc fuel = some r := by
  obtain ⟨bmp,s,hinit,hskips,hprep⟩ := bmPinit_spec hp hpat last skips scratch (Nat.lt_succ_self pat.length)
  obtain ⟨lite,hlite,hnone,-⟩ := bmPinitLite_spec hp hpat last'
  obtain ⟨found,hrun,-⟩ := bmLoop_spec hprep (List.length_pos_of_ne_nil hp) hle hstr (Nat.lt_succ_self (str.length + 1))
  refine ⟨_,bmp,lite,hinit,hlite,⟨str.length + 2,?_⟩,fun ⟨fuel,r,_,hr⟩ => ?_⟩
  · rw [bmMatch,hskips,hrun]
    exact rfl
  · rw [bmMatch_lite hnone] at hr
    cases hr

theorem bmMatch_lite_ne_border : ∃ fuel bmp lite, bmPinit [2,1,2] (fun _ => 7) (fun _ => 9) (fun _ => 11) fuel = some bmp ∧
    bmPinitLite [2,1,2] (fun _ => 7) = some lite ∧ (∃ fuel, (bmMatch [2,1,1,2,1,2] bmp true fuel).isSome) ∧
    ¬∃ fuel r, bmMatch [2,1,1,2,1,2] bmp true fuel = some r ∧ bmMatch [2,1,1,2,1,2] lite true fuel = some r :=
  bmMatch_lite_ne [2,1,2] [2,1,1,2,1,2] (fun _ => 7) (fun _ => 7) (fun _ => 9) (fun _ => 11) true (by decide) (by decide)
    (by decide) (by decide)

/-- One byte looked for in itself: the one search finds it at zero, the other one aborts. -/
theorem bmMatch_lite_one : (∃ fuel, (bmPinit [1] (fun _ => 0) (fun _ => 0) (fun _ => 0) fuel).bind (fun bmp => bmMatch [1] bmp true fuel) =
      some (1,some 0)) ∧
    ∀ fuel, (bmPinitLite [1] (fun _ => 0)).bind (fun lite => bmMatch [1] lite true fuel) = none :=
  ⟨⟨3,by decide⟩,fun fuel => bmMatch_lite rfl _ _ _⟩

end Catlib.Matching
