import Catlib.Rex.Terminates

/-! # The flag for an anchor at the start

`rex_match` with the flag against the search that tries one start after another. Whether the pattern
fails at a start does not depend on what earlier attempts wrote to the slots, so the attempts can be
compared one by one.
-/
namespace Catlib.Rex

variable {ns : List RexNode} {str pat : List UInt8} {i k k' cur last f g s t : ℕ} {x y : RexSlots} {r : RexRes × RexSlots} {junk : UInt8}
  {anchor : Bool} {m : List RexMatchLoc}

/-- `rex_match` without the test of the flag, with the starts up to `last`. -/
def rexMatchAll (ns : List RexNode) (str : List UInt8) (last : ℕ) (m : List RexMatchLoc) (fuel : ℕ) : Option (RexRes × RexSlots) := do
  let rgs ← ns[0]?
  let rge ← ns[1]?
  if rgs.repmin ≠ 1 ∨ rgs.repmax ≠ 1 ∨ rge.repmin ≠ 1 ∨ rge.repmax ≠ 1 then return (.error,{ locs := m })
  else
    let r ← rexMatchRxn ns str fuel (some 0) 0 0 [⟨0,0⟩] { locs := m.map fun _ => ⟨false,0,0⟩ }
    if r.rv ≠ .nomatch then return (r.rv,r.slots) else rexSearch ns str fuel last 1 r.aux r.slots

/-- What a caller reads: the slots only behind a match. -/
def answer (r : RexRes × RexSlots) : RexRes × Option (List RexMatchLoc) := (r.1,if r.1 = .matched then some r.2.locs else none)

/-- Two searches come back with the same answers. -/
def SameResult (p q : ℕ → Option (RexRes × RexSlots)) : Prop :=
  ∀ v, (∃ fuel r, p fuel = some r ∧ answer r = v) ↔ ∃ fuel r, q fuel = some r ∧ answer r = v

/-- The pattern does not match at a start. -/
def FailsAt (ns : List RexNode) (str : List UInt8) (s : ℕ) : Prop := ∃ y, Fails ns str (startCall s { locs := [] }) y

/-! ## The attempts -/

theorem start_rv (str : List UInt8) (hc : Compiled ns) (f s : ℕ) (x y : RexSlots) :
    ((startCall s x).run ns str f).map (·.rv) = ((startCall s y).run ns str f).map (·.rv) :=
  same_all f (some 0) [] [⟨s,0⟩] [⟨s,0⟩] s 0 x y hc.way .nil (Or.inl rfl)

theorem failsAt_of_run (hc : Compiled ns) {q : RexRet} (hr : (startCall s x).run ns str f = some q) :
    FailsAt ns str s ↔ q.rv = .nomatch := by
  have hrv := start_rv str hc f s { locs := [] } x
  rw [hr,Option.map_some,Option.map_eq_some_iff] at hrv
  obtain ⟨p,hp,hpq⟩ := hrv
  have haux := startCall_aux hp
  constructor
  · rintro ⟨y,hy⟩
    rw [← hpq,hy.agree hp]
  · intro hq
    obtain ⟨rv,aux,slots⟩ := p
    subst haux
    obtain rfl : rv = .nomatch := hpq.trans hq
    exact ⟨slots,f,hp⟩

theorem FailsAt.run (hc : Compiled ns) (h : FailsAt ns str s) (x : RexSlots) :
    ∃ f y, (startCall s x).run ns str f = some ⟨.nomatch,[⟨s,0⟩],y⟩ := by
  obtain ⟨y,f,hf⟩ := h
  have hrv := start_rv str hc f s x { locs := [] }
  rw [hf,Option.map_some,Option.map_eq_some_iff] at hrv
  obtain ⟨⟨rv,aux,slots⟩,hq,rfl⟩ := hrv
  have haux := startCall_aux hq
  subst haux
  exact ⟨f,slots,hq⟩

/-! ## The search -/

theorem rexSearch_succ (f k cur g : ℕ) (x : RexSlots) : rexSearch ns str f (k + 1) cur [⟨g,0⟩] x =
    ((startCall cur x).run ns str f).bind fun q =>
      if q.rv ≠ .nomatch then some (q.rv,q.slots) else rexSearch ns str f k (cur + 1) [⟨cur,0⟩] q.slots := by
  rw [rexSearch,Option.bind_eq_bind]
  show ((startCall cur x).run ns str f).bind _ = _
  cases hq : (startCall cur x).run ns str f with
  | none => rfl
  | some q =>
    rw [Option.bind_some,Option.bind_some,startCall_aux hq]
    exact rfl

theorem rexSearch_nomatch (hc : Compiled ns) (k cur g : ℕ) (x : RexSlots) :
    (∃ f y, rexSearch ns str f k cur [⟨g,0⟩] x = some (.nomatch,y)) ↔ ∀ s, cur ≤ s → s < cur + k → FailsAt ns str s := by
  induction k generalizing cur g x with
  | zero => exact ⟨fun _ s h1 h2 => by omega,fun _ => ⟨0,x,rfl⟩⟩
  | succ k ih =>
    constructor
    · rintro ⟨f,y,hr⟩ s hs hsk
      rw [rexSearch_succ,Option.bind_eq_some_iff] at hr
      obtain ⟨q,hq,hr⟩ := hr
      by_cases hnm : q.rv = .nomatch
      · rw [if_neg (not_not.mpr hnm)] at hr
        rcases Nat.lt_or_eq_of_le hs with hlt | rfl
        · exact (ih (cur + 1) cur q.slots).mp ⟨f,y,hr⟩ s hlt (by omega)
        · exact (failsAt_of_run hc hq).mpr hnm
      · rw [if_pos hnm] at hr
        exact absurd (congrArg Prod.fst (Option.some.inj hr)) hnm
    · intro hall
      obtain ⟨f,y,hq⟩ := (hall cur le_rfl (by omega)).run hc x
      obtain ⟨f',z,hr⟩ := (ih (cur + 1) cur y).mpr fun s hs hsk => hall s (by omega) (by omega)
      refine ⟨max f f',z,?_⟩
      rw [rexSearch_succ,RexCall.run_grows (le_max_left f f') _ hq,Option.bind_some]
      exact (if_neg (not_not.mpr rfl)).trans (rexSearch_grows (le_max_right f f') _ _ _ _ _ hr)

theorem rexSearch_extend (hkk : k ≤ k') (hr : rexSearch ns str f k cur [⟨g,0⟩] x = some r) (hne : r.1 ≠ .nomatch) :
    rexSearch ns str f k' cur [⟨g,0⟩] x = some r := by
  induction k generalizing k' cur g x with
  | zero =>
    cases hr
    exact absurd rfl hne
  | succ k ih =>
    obtain ⟨k',rfl⟩ : ∃ j, k' = j + 1 := ⟨k' - 1,by omega⟩
    rw [rexSearch_succ,Option.bind_eq_some_iff] at hr ⊢
    obtain ⟨q,hq,hr⟩ := hr
    refine ⟨q,hq,?_⟩
    by_cases hnm : q.rv = .nomatch
    · rw [if_neg (not_not.mpr hnm)] at hr ⊢
      exact ih (by omega) hr
    · rwa [if_pos hnm] at hr ⊢

theorem rexSearch_shrink (hc : Compiled ns) (hkk : k ≤ k') (hr : rexSearch ns str f k' cur [⟨g,0⟩] x = some r) (hne : r.1 ≠ .nomatch) :
    rexSearch ns str f k cur [⟨g,0⟩] x = some r ∨
      ∃ s, cur + k ≤ s ∧ s < cur + k' ∧ (∀ t, cur ≤ t → t < s → FailsAt ns str t) ∧ ¬FailsAt ns str s := by
  induction k' generalizing k cur g x with
  | zero =>
    cases hr
    exact absurd rfl hne
  | succ k' ih =>
    rw [rexSearch_succ,Option.bind_eq_some_iff] at hr
    obtain ⟨q,hq,hr⟩ := hr
    by_cases hnm : q.rv = .nomatch
    · rw [if_neg (not_not.mpr hnm)] at hr
      have hfail : FailsAt ns str cur := (failsAt_of_run hc hq).mpr hnm
      have hcons : ∀ s, (∀ t, cur + 1 ≤ t → t < s → FailsAt ns str t) → ∀ t, cur ≤ t → t < s → FailsAt ns str t := by
        intro s hbefore t ht hts
        rcases Nat.lt_or_eq_of_le ht with hlt | rfl
        · exact hbefore t hlt hts
        · exact hfail
      cases k with
      | zero =>
        rcases ih (Nat.zero_le _) hr with h | ⟨s,hs,hsk,hbefore,hno⟩
        · cases h
          exact absurd rfl hne
        · exact Or.inr ⟨s,by omega,by omega,hcons s hbefore,hno⟩
      | succ k =>
        rcases ih (Nat.le_of_succ_le_succ hkk) hr with h | ⟨s,hs,hsk,hbefore,hno⟩
        · left
          rw [rexSearch_succ,hq,Option.bind_some,if_neg (not_not.mpr hnm),h]
        · exact Or.inr ⟨s,by omega,by omega,hcons s hbefore,hno⟩
    · cases k with
      | zero => exact Or.inr ⟨cur,le_rfl,by omega,fun t ht htc => by omega,fun h => hnm ((failsAt_of_run hc hq).mp h)⟩
      | succ k =>
        left
        rw [if_pos hnm] at hr
        rw [rexSearch_succ,hq,Option.bind_some,if_pos hnm,hr]

/-! ## The flag -/

theorem rexMatchAll_eq (hc : Compiled ns) (last : ℕ) (m : List RexMatchLoc) (f : ℕ) :
    rexMatchAll ns str last m f = rexSearch ns str f (last + 1) 0 [⟨0,0⟩] { locs := m.map fun _ => ⟨false,0,0⟩ } := by
  obtain ⟨rgs,rge,hg,-,-,hmin,hmax,-⟩ := hc.group
  simp only [rexMatchAll, hg.start, hg.stop, Option.bind_eq_bind, Option.bind_some, hg.repmin, hg.repmax, hmin, hmax]
  exact rfl

theorem rexMatch_all (hc : Compiled ns) (anchor : Bool) (m : List RexMatchLoc) (f : ℕ) :
    rexMatch ns str anchor m f = rexMatchAll ns str (if anchor then 0 else str.length - 1) m f := by
  obtain ⟨rgs,rge,hg,-,-,hmin,hmax,-⟩ := hc.group
  rw [rexMatch_eq hg hmin hmax,rexMatchAll_eq hc,rexSearch_succ]
  cases hq : (startCall 0 { locs := m.map fun _ => ⟨false,0,0⟩ }).run ns str f with
  | none => rfl
  | some q =>
    rw [Option.bind_some,Option.bind_some]
    by_cases hnm : q.rv = .nomatch
    · rw [if_neg (not_not.mpr hnm)]
      by_cases hone : anchor = true ∨ str.length = 0
      · have hlast : (if anchor = true then 0 else str.length - 1) = 0 := by
          split
          · rfl
          · rw [hone.resolve_left (by assumption)]
        rw [if_pos (Or.inr hone),hlast,hnm]
        exact rfl
      · have hanchor : ¬anchor = true := fun h => hone (Or.inl h)
        rw [if_neg (fun h => h.elim (fun h => h hnm) hone),if_neg hanchor,startCall_aux hq]
    · rw [if_pos (Or.inl hnm),if_pos hnm]

theorem sameResult_iff (hc : Compiled ns) (hkk : k ≤ k') (m : List RexMatchLoc) :
    SameResult (rexMatchAll ns str k m) (rexMatchAll ns str k' m) ↔
      ∀ s ≤ k', (∀ t < s, FailsAt ns str t) → ¬FailsAt ns str s → s ≤ k := by
  have hall : ∀ last, (∃ f y, rexMatchAll ns str last m f = some (.nomatch,y)) ↔ ∀ s ≤ last, FailsAt ns str s := by
    intro last
    simp only [rexMatchAll_eq hc, rexSearch_nomatch hc]
    exact ⟨fun h s hs => h s (Nat.zero_le s) (by omega),fun h s _ hs => h s (by omega)⟩
  constructor
  · intro hsame s hs hbefore hno
    by_contra hks
    obtain ⟨f,y,hr⟩ := (hall k).mpr fun t ht => hbefore t (by omega)
    obtain ⟨f',r,hr',hv⟩ := (hsame (answer (.nomatch,y))).mp ⟨f,_,hr,rfl⟩
    have hr1 : r.1 = .nomatch := congrArg Prod.fst hv
    exact hno ((hall k').mp ⟨f',r.2,by rw [hr',← hr1]⟩ s hs)
  · intro hcond v
    have hrest : (∀ s ≤ k, FailsAt ns str s) → ∀ s ≤ k', FailsAt ns str s := by
      intro hk s
      induction s using Nat.strong_induction_on with
      | _ s ih =>
        intro hs
        by_contra hno
        exact hno (hk s (hcond s hs (fun t ht => ih t ht (by omega)) hno))
    constructor
    · rintro ⟨f,r,hr,rfl⟩
      by_cases hnm : r.1 = .nomatch
      · obtain ⟨f',y,hr'⟩ := (hall k').mpr (hrest ((hall k).mp ⟨f,r.2,by rw [hr,← hnm]⟩))
        exact ⟨f',_,hr',by rw [answer,answer,hnm]; rfl⟩
      · rw [rexMatchAll_eq hc] at hr
        exact ⟨f,r,by rw [rexMatchAll_eq hc]; exact rexSearch_extend (by omega) hr hnm,rfl⟩
    · rintro ⟨f,r,hr,rfl⟩
      by_cases hnm : r.1 = .nomatch
      · have hfail := (hall k').mp ⟨f,r.2,by rw [hr,← hnm]⟩
        obtain ⟨f',y,hr'⟩ := (hall k).mpr fun s hs => hfail s (by omega)
        exact ⟨f',_,hr',by rw [answer,answer,hnm]; rfl⟩
      · rw [rexMatchAll_eq hc] at hr
        rcases rexSearch_shrink hc (Nat.succ_le_succ hkk) hr hnm with h | ⟨s,hs,hsk,hbefore,hno⟩
        · exact ⟨f,r,by rw [rexMatchAll_eq hc]; exact h,rfl⟩
        · have := hcond s (by omega) (fun t ht => hbefore t (Nat.zero_le t) ht) hno
          omega

/-- Every way through the pattern comes to an anchor for the start first, also where a group is left out. -/
inductive AllStart (ns : List RexNode) : ℕ → Prop
  | banchor {i : ℕ} {n : RexNode} (hn : ns[i]? = some n) (ht : n.type = .banchor) : AllStart ns i
  | choice {i a b : ℕ} {n : RexNode} (hn : ns[i]? = some n) (ht : n.type = .choice) (h1 : n.opt1 = some a) (h2 : n.opt2 = some b)
      (ha : AllStart ns a) (hb : AllStart ns b) : AllStart ns i
  | group {i k : ℕ} {n : RexNode} (hn : ns[i]? = some n) (ht : n.type = .groupS) (hmin : n.repmin ≠ 0) (hk : n.next = some k)
      (h : AllStart ns k) : AllStart ns i
  | skipped {i j k l : ℕ} {rgs rge : RexNode} (hg : Group ns i j rgs rge) (hmin : rgs.repmin = 0) (hk : rgs.next = some k)
      (hl : rge.next = some l) (h : AllStart ns k) (h' : AllStart ns l) : AllStart ns i

theorem AllStart.fails (h : AllStart ns i) (hcur : 0 < cur) (fr : RexAux) (prev : List RexAux) (x : RexSlots) :
    ∃ f y, rexMatchRxn ns str f (some i) cur 0 (fr :: prev) x = some ⟨.nomatch,fr :: prev,y⟩ := by
  induction h generalizing fr prev x with
  | banchor hn ht =>
    refine ⟨1,x,rexMatchRxn_unanchored hn (Or.inl ht) fun ha => ?_⟩
    exact hcur.ne' (ha.1 ht)
  | choice hn ht h1 h2 _ _ iha ihb =>
    obtain ⟨f,y,hf⟩ := iha fr prev x
    obtain ⟨f',z,hf'⟩ := ihb fr prev y
    refine ⟨max f f' + 1,z,?_⟩
    rw [rexMatchRxn_choice hn ht,h1,h2,rexMatchRxn_grows (le_max_left f f') _ _ _ _ _ _ hf,Option.bind_some,if_neg (not_not.mpr rfl)]
    exact rexMatchRxn_grows (le_max_right f f') _ _ _ _ _ _ hf'
  | @group i k n hn ht hmin hk _ ih =>
    obtain ⟨f,y,hf⟩ := ih ⟨cur,1⟩ (fr :: prev) x
    refine ⟨f + 1,y,?_⟩
    simp only [rexMatchRxn, hn, Option.bind_eq_bind, Option.bind_some, ht, rexMatchGroupS, if_true, setGrep_cons, Nat.zero_add, hk]
    rw [hf,Option.bind_some,if_neg fun h => hmin h.2.1]
    exact rfl
  | @skipped i j k l rgs rge hg hmin hk hl _ _ ih ih' =>
    obtain ⟨f,y,hf⟩ := ih ⟨cur,1⟩ (fr :: prev) x
    obtain ⟨f',z,hf'⟩ := ih' fr prev (y.record rgs.num cur 0)
    have hrun : rexMatchRxn ns str (max f f' + 1) (some i) cur 0 (fr :: prev) x =
        some (if RexRes.nomatch ≠ .matched ∧ y.free rgs.num then ⟨.nomatch,fr :: prev,{ z with vain := rgs.num :: z.vain }⟩
          else ⟨.nomatch,fr :: prev,z⟩) := by
      rw [rexMatchRxn_groupS hg,hk,hl,rexMatchRxn_grows (le_max_left f f') _ _ _ _ _ _ hf,Option.bind_some,if_pos ⟨rfl,hmin⟩,
        rexMatchRxn_grows (le_max_right f f') _ _ _ _ _ _ hf',Option.map_some]
    split at hrun
    · exact ⟨_,_,hrun⟩
    · exact ⟨_,_,hrun⟩

/-- The nodes of `(^a)?b`. -/
def skippedNodes : List RexNode :=
  [{ type := .groupS, next := some 2, other := some 1 },{ type := .groupE, other := some 0 },
    { type := .groupS, repmin := 0, repmax := 1, next := some 3, num := 1, other := some 5 },
    { type := .banchor, next := some 4 },{ type := .string, str := [97], next := some 5 },
    { type := .groupE, repmin := 0, repmax := 1, next := some 6, num := 1, other := some 2 },
    { type := .string, str := [98], next := some 1 }]

end Catlib.Rex
