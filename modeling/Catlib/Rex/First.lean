import Catlib.Rex.Captures
import Catlib.Rex.Within

/-! # Matches at the first start

The slot of the whole pattern has the match, whatever was written in vain: its group is never
left out. So a match that begins at 0 is one of the first attempt.
-/
namespace Catlib.Rex

variable {ns : List RexNode} {str : List UInt8} {i j k cur rep f p q : ℕ} {n rgs rge : RexNode} {a e : Option ℕ} {es : List ℕ}
  {aux prev : List RexAux} {fr : RexAux} {x y : RexSlots} {r : RexRet} {c d : RexCall} {t : List RexStep}

/-! ## Traversals stay inside the string -/

theorem Reps.inside (h : Reps str i n k p q t) (hp : p ≤ str.length) : q ≤ str.length := by
  induction h with
  | zero => exact hp
  | succ hf _ ih => exact ih hf.le.2

mutual

theorem Trav.inside {a e : Option ℕ} {p q : ℕ} {t : List RexStep} : Trav ns str a e p q t → p ≤ str.length → q ≤ str.length
  | .done, hp => hp
  | .elem _ _ hr _ h, hp => h.inside (hr.inside hp)
  | .anchor _ _ _ h, hp => h.inside hp
  | .opt1 _ _ h, hp => h.inside hp
  | .opt2 _ _ h, hp => h.inside hp
  | .group _ hi _ h, hp => h.inside (hi.inside hp)

theorem Iters.inside {b : Option ℕ} {j k p q : ℕ} {t : List RexStep} : Iters ns str b j k p q t → p ≤ str.length → q ≤ str.length
  | .zero, hp => hp
  | .succ h hi, hp => hi.inside (h.inside hp)

end

/-! ## Slots written in vain -/

/-- The number of a group that may be left out. -/
def Skippable (ns : List RexNode) (k : ℕ) : Prop := ∃ i j rgs rge, Group ns i j rgs rge ∧ rgs.repmin = 0 ∧ rgs.num = k

/-- What is written in vain behind a call is so before it, or belongs to a group that may be left out. -/
def Wastes (ns : List RexNode) (x y : RexSlots) : Prop := ∀ k ∈ y.vain, k ∈ x.vain ∨ Skippable ns k

theorem Wastes.refl (x : RexSlots) : Wastes ns x x := fun _ h => Or.inl h

theorem Wastes.trans {z : RexSlots} (h : Wastes ns x y) (h' : Wastes ns y z) : Wastes ns x z :=
  fun k hk => (h' k hk).elim (h k) Or.inr

def WastesAll (ns : List RexNode) (str : List UInt8) (f : ℕ) : Prop :=
  ∀ es c r, Placed ns es c → c.run ns str f = some r → Wastes ns c.slots r.slots

section Step

variable (ih : WastesAll ns str f)
include ih

theorem elem_wastes (hn : ns[i]? = some n) (ht : n.type = .string ∨ n.type = .cls) (hself : Way ns (some i) es.head?)
    (hw : Way ns n.next es.head?) (hf : Twins ns es (fr :: prev) (fr :: prev))
    (hr : rexMatchRxn ns str (f + 1) (some i) cur rep (fr :: prev) x = some r) : Wastes ns x r.slots := by
  cases hp : behind str n cur with
  | none =>
    rw [rexMatchRxn_misfit hn ht hp] at hr
    split at hr
    · exact ih es ⟨n.next,cur,0,fr :: prev,x⟩ r ⟨hw,hf,Or.inl rfl⟩ hr
    · cases hr
      exact .refl x
  | some p =>
    have hrep : Repeats ns (some i) (rep + 1) := Or.inr ⟨i,n,rfl,hn,ht⟩
    rw [rexMatchRxn_elem hn ht hp,rexNext,Option.bind_eq_bind,Option.bind_eq_some_iff] at hr
    obtain ⟨r₁,h1,hr⟩ := hr
    have hfirst : Wastes ns x r₁.slots ∧ r₁.aux = fr :: prev := by
      rw [rexNextRep] at h1
      split at h1
      · exact ⟨ih es ⟨some i,p,rep + 1,fr :: prev,x⟩ r₁ ⟨hself,hf,hrep⟩ h1,rexMatchRxn_aux f _ _ _ _ _ _ hrep h1⟩
      · cases h1
        exact ⟨.refl x,rfl⟩
    rw [hfirst.2] at hr
    split at hr
    · cases hr
      exact hfirst.1
    split at hr
    · exact hfirst.1.trans (ih es ⟨n.next,p,0,fr :: prev,r₁.slots⟩ r ⟨hw,hf,Or.inl rfl⟩ hr)
    · cases hr
      exact hfirst.1

theorem choice_wastes (hn : ns[i]? = some n) (ht : n.type = .choice) (h1 : Way ns n.opt1 es.head?) (h2 : Way ns n.opt2 es.head?)
    (hf : Twins ns es (fr :: prev) (fr :: prev)) (hr : rexMatchRxn ns str (f + 1) (some i) cur 0 (fr :: prev) x = some r) :
    Wastes ns x r.slots := by
  rw [rexMatchRxn_choice hn ht,Option.bind_eq_some_iff] at hr
  obtain ⟨r₁,hr₁,hr⟩ := hr
  have hfirst := ih es ⟨n.opt1,cur,0,fr :: prev,x⟩ r₁ ⟨h1,hf,Or.inl rfl⟩ hr₁
  have haux : r₁.aux = fr :: prev := (rexMatchRxn_aux f).fresh hr₁
  split at hr
  · cases hr
    exact hfirst
  · rw [haux] at hr
    exact hfirst.trans (ih es ⟨n.opt2,cur,0,fr :: prev,r₁.slots⟩ r ⟨h2,hf,Or.inl rfl⟩ hr)

theorem groupS_wastes (hg : Group ns i j rgs rge) (hb : Way ns rgs.next (some j)) (hw : Way ns rge.next es.head?)
    (hf : Twins ns es (fr :: prev) (fr :: prev)) (hr : rexMatchRxn ns str (f + 1) (some i) cur 0 (fr :: prev) x = some r) :
    Wastes ns x r.slots := by
  rw [rexMatchRxn_groupS hg,Option.bind_eq_some_iff] at hr
  obtain ⟨r₁,h1,hr⟩ := hr
  have hbody : Placed ns (j :: es) ⟨rgs.next,cur,0,⟨cur,1⟩ :: fr :: prev,x⟩ :=
    ⟨hb,.cons hg hb hw ⟨Nat.one_pos,Nat.one_pos⟩ (Or.inl rfl) hf,Or.inl rfl⟩
  have hfirst := ih _ _ r₁ hbody h1
  split at hr
  · rename_i hs
    rw [Option.map_eq_some_iff] at hr
    obtain ⟨r₂,h2,rfl⟩ := hr
    have hskip := ih es ⟨rge.next,cur,0,fr :: prev,r₁.slots.record rgs.num cur 0⟩ r₂ ⟨hw,hf,Or.inl rfl⟩ h2
    have hrest : Wastes ns x r₂.slots := fun k hk => by
      refine (hskip k hk).elim (fun hk => ?_) Or.inr
      rw [record_vain] at hk
      exact hfirst k hk
    split
    · intro k hk
      rcases List.mem_cons.1 hk with rfl | hk
      · exact Or.inr ⟨i,j,rgs,rge,hg,hs.2,rfl⟩
      · exact hrest k hk
    · exact hrest
  · cases hr
    exact hfirst

theorem groupE_wastes (hg : Group ns i j rgs rge) (hb : Way ns rgs.next (some j)) (hw : Way ns rge.next es.head?) (hpos : 0 < fr.grep)
    (hf : Twins ns es prev prev) (hr : rexMatchRxn ns str (f + 1) (some j) cur rep (fr :: prev) x = some r) : Wastes ns x r.slots := by
  rw [rexMatchRxn_groupE hg,Option.bind_eq_some_iff] at hr
  obtain ⟨r₁,h1,hr⟩ := hr
  have hfirst : Wastes ns x r₁.slots := by
    rw [rexGroupRep_eq hg hpos] at h1
    split at h1
    · rw [Option.map_eq_some_iff] at h1
      obtain ⟨r₂,h2,rfl⟩ := h1
      have hbody : Placed ns (j :: es) ⟨rgs.next,cur,0,{ fr with grep := fr.grep + 1 } :: prev,x⟩ :=
        ⟨hb,.cons hg hb hw ⟨Nat.succ_pos _,Nat.succ_pos _⟩ (Or.inl rfl) hf,Or.inl rfl⟩
      exact ih _ _ r₂ hbody h2
    · cases h1
      exact .refl x
  split at hr
  · cases hr
    exact hfirst
  split at hr
  · rw [Option.map_eq_some_iff] at hr
    obtain ⟨r₂,h2,rfl⟩ := hr
    have hrest := hfirst.trans (ih es ⟨rge.next,cur,0,prev,r₁.slots⟩ r₂ ⟨hw,hf,Or.inl rfl⟩ h2)
    intro k hk
    refine hrest k ?_
    dsimp only at hk
    split at hk
    · rwa [record_vain] at hk
    · exact hk
  · cases hr
    exact hfirst

end Step

theorem wastes_all (f : ℕ) : WastesAll ns str f := by
  induction f with
  | zero => exact fun _ _ _ _ h => by cases h
  | succ f ih =>
    rintro es ⟨a,cur,rep,aux,x⟩ r hp hr
    have hself := hp.way
    have hf := hp.frames
    refine hp.cases ?_ ?_ ?_ ?_ ?_ ?_
    · rintro rfl
      cases hr
      exact .refl x
    · rintro i n fr prev rfl rfl hn ht hw
      exact elem_wastes ih hn ht hself hw hf hr
    · rintro i n fr prev rfl rfl hn ht hw
      by_cases ha : Anchored str n cur
      · rw [RexCall.run,rexMatchRxn_anchor hn ht ha] at hr
        exact ih es ⟨n.next,cur,0,fr :: prev,x⟩ r ⟨hw,hf,Or.inl rfl⟩ hr
      · rw [RexCall.run,rexMatchRxn_unanchored hn ht ha] at hr
        cases hr
        exact .refl x
    · rintro i n fr prev rfl rfl rfl hn ht h1 h2
      exact choice_wastes ih hn ht h1 h2 hf hr
    · rintro i j rgs rge fr prev rfl rfl rfl hg hb hw
      exact groupS_wastes ih hg hb hw hf hr
    · rintro i j rgs rge fr prev es' rfl rfl rfl hg hb hw hpos hf'
      exact groupE_wastes ih hg hb hw hpos hf' hr

theorem zero_not_vain {junk : UInt8} {pat : List UInt8} {anchor : Bool} (h : rexInit junk pat = some (.ok (ns,anchor))) (s : ℕ)
    (hx : 0 ∉ x.vain) (hr : (startCall s x).run ns str f = some r) : 0 ∉ r.slots.vain := by
  have hc := rexInit_compiled h
  obtain ⟨rgs,rge,hg,-,-,hmin,-,hnum⟩ := hc.group
  intro hk
  rcases wastes_all f [] _ r (startCall_placed hc s x) hr 0 hk with hk | ⟨i,j,rgs',rge',hg',hmin',hnum'⟩
  · exact hx hk
  · have hi := rexInit_numbers h i 0 0 ⟨rgs',hg'.start,hg'.groupS,hnum'⟩ ⟨rgs,hg.start,hg.groupS,hnum⟩
    subst hi
    obtain rfl := Option.some.inj (hg.start.symm.trans hg'.start)
    omega

/-! ## The attempts -/

section Match

variable {junk : UInt8} {pat : List UInt8} {anchor : Bool} (h : rexInit junk pat = some (.ok (ns,anchor)))
include h

theorem attempt_matched (hk : Linked ns) {s : ℕ} (hs : s ≤ str.length) (hv : 0 ∉ x.vain) (hx : x.locs[0]? = some ⟨false,0,0⟩)
    (hr : (startCall s x).run ns str f = some r) (hm : r.rv = .matched) :
    ∃ q t, Whole ns str s q t ∧ r.slots.locs[0]? = some ⟨true,s,q - s⟩ := by
  obtain ⟨q,t,ht,hcap⟩ := start_whole ((rexInit_compiled h).wellFormed hk) hs hr hm
  exact ⟨q,t,ht,hcap.whole_slot h ht (zero_not_vain h s hv hr) hx rfl⟩

theorem search_matched (hk : Linked ns) (hv : 0 ∉ x.vain) (hx : x.locs[0]? = some ⟨false,0,0⟩) (hle : cur + k ≤ str.length)
    {g : ℕ} (hr : rexSearch ns str f k cur [⟨g,0⟩] x = some (.matched,y)) : ∃ s n, cur ≤ s ∧ y.locs[0]? = some ⟨true,s,n⟩ := by
  induction k generalizing cur g x with
  | zero => cases hr
  | succ k ih =>
    simp only [rexSearch, Option.bind_eq_bind, Option.bind_eq_some_iff] at hr
    obtain ⟨r,hrun,hr⟩ := hr
    have hrun' : (startCall cur x).run ns str f = some r := hrun
    have haux := startCall_aux hrun'
    split at hr
    · obtain ⟨hrv,rfl⟩ := Prod.mk.inj (Option.some.inj hr)
      obtain ⟨q,-,-,hq⟩ := attempt_matched h hk (by omega) hv hx hrun' hrv
      exact ⟨cur,_,le_rfl,hq⟩
    · rename_i hnm
      have hv' := zero_not_vain h cur hv hrun'
      have hkept := (sound_all f).failed _ _ _ _ _ _ hrun (by rw [not_not.1 hnm]; rintro ⟨⟩)
      rw [haux] at hr
      obtain ⟨s,n,hs,hy⟩ := ih hv' ((hkept.same 0 hv').trans hx) (by omega) hr
      exact ⟨s,n,by omega,hy⟩

theorem rexMatch_first (hk : Linked ns) {l l' : RexMatchLoc} (hr : rexMatch ns str anchor [l] f = some (.matched,y))
    (hy : y.locs[0]? = some l') (hl : l'.start = 0) :
    ∃ r, (startCall 0 { locs := [⟨false,0,0⟩] }).run ns str f = some r ∧ r.rv = .matched ∧ r.slots = y := by
  obtain ⟨rgs,rge,hg,-,-,hmin,hmax,-⟩ := (rexInit_compiled h).group
  rw [rexMatch_eq hg hmin hmax,Option.bind_eq_some_iff] at hr
  obtain ⟨r,hrun,hr⟩ := hr
  have haux := startCall_aux hrun
  split at hr
  · obtain ⟨hrv,hslots⟩ := Prod.mk.inj (Option.some.inj hr)
    exact ⟨r,hrun,hrv,hslots⟩
  · rename_i hdone
    obtain ⟨hnm,-,hlen⟩ : r.rv = .nomatch ∧ ¬anchor = true ∧ ¬str.length = 0 := by simpa only [not_or, not_not, ne_eq] using hdone
    have hv : 0 ∉ r.slots.vain := zero_not_vain h 0 (by simp) hrun
    have hkept := (sound_all f).failed _ _ _ _ _ _ hrun (by rw [hnm]; exact nofun)
    rw [haux] at hr
    obtain ⟨s,n,hs,hy'⟩ := search_matched h hk hv (hkept.same 0 hv) (by omega) hr
    rw [hy] at hy'
    cases hy'
    have hs' : s = 0 := hl
    omega

theorem rexMatch_failed {l : RexMatchLoc} (hr : rexMatch ns str anchor [l] f = some (.nomatch,y)) :
    ∃ z, Fails ns str (startCall 0 { locs := [⟨false,0,0⟩] }) z := by
  obtain ⟨rgs,rge,hg,-,-,hmin,hmax,-⟩ := (rexInit_compiled h).group
  rw [rexMatch_eq hg hmin hmax,Option.bind_eq_some_iff] at hr
  obtain ⟨r,hrun,hr⟩ := hr
  refine ⟨r.slots,fails_of_run hrun (not_not.2 ?_) (startCall_aux hrun)⟩
  split at hr
  · exact (Prod.mk.inj (Option.some.inj hr)).1
  · rename_i hdone
    exact not_not.1 fun hne => hdone (Or.inl hne)

end Match

end Catlib.Rex
