import Catlib.Rex.Shape
import Catlib.Rex.Accepts

/-! # Compiled patterns

The invariant of the parser for every pattern that it accepts, and what it says about the table
in the end: the group of the nodes 0 and 1 is closed, and every way through it comes to node 1
or to a null pointer.
-/
namespace Catlib.Rex

variable {ns ns' : List RexNode} {n : RexNode} {b : Bool} {l r r' s : Loc} {o : Option Loc} {i j g c d lo hi hi' f : ℕ}
  {gs gs' lc lc' : Option ℕ}

/-! ## A choice behind an empty alternative -/

/-- The second alternatives of the choices end at a null pointer, with all the links in front of `d`. -/
inductive Broken (ns : List RexNode) (d : ℕ) : Loc → Prop
  | null {l : Loc} (hd : l.idx < d) (hl : link ns l = none) : Broken ns d l
  | step {l : Loc} {c : ℕ} (hd : l.idx < d) (hl : link ns l = some c) (ht : typeOf ns c = some .choice)
      (h : Broken ns d (.opt2 c)) : Broken ns d l

theorem Broken.lt (h : Broken ns d l) : l.idx < d := by
  cases h with
  | null hd => exact hd
  | step hd => exact hd

theorem Broken.frame (h : Broken ns d l) (htype : ∀ i, i < d → typeOf ns' i = typeOf ns i)
    (hlink : ∀ l : Loc, l.idx < d → link ns' l = link ns l) : Broken ns' d l := by
  induction h with
  | null hd hl => exact .null hd ((hlink _ hd).trans hl)
  | step hd hl ht h ih => exact .step hd ((hlink _ hd).trans hl) ((htype _ h.lt).trans ht) ih

theorem link_setLink_ne (h : l ≠ r) (o : Option ℕ) : link (setLink ns o r) l = link ns l := by
  by_cases hr : r.idx < ns.length
  · rw [link_setLink o hr,if_neg h]
  · have hsame : setLink ns o r = ns := by
      cases r <;> exact List.modify_eq_self (not_lt.1 hr)
    rw [hsame]

theorem finalizeBody_opts {t : ℕ} (hf : finalizeBody j (ns,c) = some (.again (ns',t))) :
    link ns (.opt2 c) = some t ∧ (∀ i, coreOf ns' i = coreOf ns i) ∧ ∀ i, link ns' (.opt2 i) = link ns (.opt2 i) := by
  simp only [finalizeBody, Option.bind_eq_bind, Option.bind_eq_some_iff] at hf
  obtain ⟨n,-,hf⟩ := hf
  split at hf
  · simp only [Option.bind_eq_some_iff] at hf
    obtain ⟨u,hu,rc,hrc,t',ht',hf⟩ := hf
    obtain ⟨rfl,rfl⟩ := Prod.mk.inj (Turn.again.inj (Option.some.inj hf))
    have hopts : ∀ i, link (setLink (setLink ns (some j) (.next c)) (some j) u) (.opt2 i) = link ns (.opt2 i) := by
      intro i
      have hne : Loc.opt2 i ≠ u := by
        rcases trav_kind hu with rfl | ⟨k,rfl⟩ <;> rintro ⟨⟩
      exact (link_setLink_ne hne _).trans (link_setLink_ne (by rintro ⟨⟩) _)
    refine ⟨?_,fun i => (coreOf_setLink _).trans (coreOf_setLink _),hopts⟩
    rw [← hopts c,link,show (Loc.opt2 c).idx = c from rfl,hrc]
    exact ht'
  · cases hf

theorem Broken.opts (h : Broken ns d (.opt2 c)) (hcore : ∀ i, coreOf ns' i = coreOf ns i)
    (hlink : ∀ i, link ns' (.opt2 i) = link ns (.opt2 i)) : Broken ns' d (.opt2 c) := by
  generalize hl : Loc.opt2 c = l at h
  induction h generalizing c with
  | null hd h =>
    subst hl
    exact .null hd ((hlink c).trans h)
  | step hd h ht _ ih =>
    subst hl
    exact .step hd ((hlink c).trans h) ((typeOf_congr (hcore _)).trans ht) (ih rfl)

theorem finalize_broken (h : Broken ns d l) (hl : link ns l = some c) (hf : loop (finalizeBody j) f (ns,c) = some ns') : False := by
  induction f generalizing ns l c with
  | zero => cases hf
  | succ f ih =>
    cases h with
    | null _ h =>
      rw [hl] at h
      cases h
    | step _ h ht h' =>
      rw [hl] at h
      cases h
      obtain ⟨ns1,t,hb,hf⟩ := finalize_step ht hf
      obtain ⟨ht',hcore,hlink⟩ := finalizeBody_opts hb
      exact ih (h'.opts hcore hlink) ((hlink c).trans ht') hf

theorem finalize_invariant {I : List RexNode → Prop} (hstep : ∀ ns c ns' t, I ns → finalizeBody j (ns,c) = some (.again (ns',t)) → I ns')
    (h : I ns) (hf : finalizeChoices ns g j lc = some ns') : I ns' := by
  cases lc with
  | none =>
    cases hf
    exact h
  | some c =>
    simp only [finalizeChoices, Option.bind_eq_bind, Option.bind_eq_some_iff] at hf
    obtain ⟨rg,-,head,-,rn,-,hf⟩ := hf
    split at hf
    · refine loop_partial (I := fun x => I x.1) (Q := I) (fun x y hx hb => hstep _ _ _ _ hx hb) ?_ h hf
      intro x r hx hb
      simp only [finalizeBody, Option.bind_eq_bind, Option.bind_eq_some_iff] at hb
      obtain ⟨rn,-,hb⟩ := hb
      split at hb
      · simp only [Option.bind_eq_some_iff] at hb
        obtain ⟨_,-,_,-,_,-,hb⟩ := hb
        cases hb
      · cases hb
        exact hx
    · cases hf

theorem finalizeChoices_core (h : finalizeChoices ns g j lc = some ns') (i : ℕ) : coreOf ns' i = coreOf ns i :=
  finalize_invariant (I := fun ns' => coreOf ns' i = coreOf ns i) (fun _ _ _ _ h hb => ((finalizeBody_opts hb).2.1 i).trans h) rfl h

theorem last_step {t : ℕ} (h : loop (lastBody ns) (f + 1) c = some t) :
    ∃ o, link ns (.opt2 c) = some o ∧ (typeOf ns o = some .choice ∧ loop (lastBody ns) f o = some t ∨
      typeOf ns o ≠ some .choice ∧ t = c) := by
  cases hb : lastBody ns c with
  | none =>
    rw [loop,hb] at h
    cases h
  | some x =>
    have hb' := hb
    simp only [lastBody, Option.bind_eq_bind, Option.bind_eq_some_iff] at hb'
    obtain ⟨n,hn,o,ho,m,hm,hb'⟩ := hb'
    have hlink : link ns (.opt2 c) = some o := by
      rw [link,show (Loc.opt2 c).idx = c from rfl,hn]
      exact ho
    refine ⟨o,hlink,?_⟩
    rw [typeOf,hm]
    split at hb'
    · rename_i hm'
      cases hb'
      rw [loop_again hb] at h
      exact Or.inl ⟨congrArg some hm',h⟩
    · rename_i hm'
      cases hb'
      rw [loop_leave hb] at h
      exact Or.inr ⟨fun he => hm' (Option.some.inj he),(Option.some.inj h).symm⟩

theorem last_broken (h : Broken ns d l) (hl : link ns l = some c) {t : ℕ} (hf : loop (lastBody ns) f c = some t) : False := by
  induction f generalizing l c with
  | zero => cases hf
  | succ f ih =>
    cases h with
    | null _ h =>
      rw [hl] at h
      cases h
    | step _ h ht h' =>
      rw [hl] at h
      cases h
      obtain ⟨o,ho,⟨-,hf⟩ | ⟨hne,-⟩⟩ := last_step hf
      · exact ih h' ho hf
      · cases h' with
        | null _ h =>
          rw [ho] at h
          cases h
        | step _ h ht' =>
          rw [ho] at h
          cases h
          exact hne ht'

theorem last_arms (h : Arms ns b lo l c) (hne : ∀ t, link ns (.opt2 c) = some t → typeOf ns t ≠ some .choice) {h' t : ℕ}
    (hl : link ns l = some h') (hf : loop (lastBody ns) f h' = some t) : t = c := by
  induction f generalizing b lo l h' with
  | zero => cases hf
  | succ f ih =>
    obtain ⟨o,ho,hcase⟩ := last_step hf
    cases h with
    | last h ha =>
      rw [hl] at h
      cases h
      rcases hcase with ⟨hty,-⟩ | ⟨-,ht⟩
      · exact absurd hty (hne o ho)
      · exact ht
    | cons h ha hc =>
      rw [hl] at h
      cases h
      obtain ⟨o',ho'⟩ := hc.start
      have hty : typeOf ns o = some .choice := by
        cases hc with
        | last h ha =>
          rw [ho] at h
          cases h
          exact ha.type
        | cons h ha =>
          rw [ho] at h
          cases h
          exact ha.type
      rcases hcase with ⟨-,hf⟩ | ⟨hno,-⟩
      · exact ih hc ho hf
      · exact absurd hty hno

/-! ## Open groups -/

/-- What is known of an open group `g`, the nodes of which are behind `lo` up to `hi`: its list, or its
choices with the list behind the last, or a choice behind an empty alternative. -/
inductive Stage (ns : List RexNode) (b : Bool) (g lo hi : ℕ) : Option ℕ → Loc → Prop
  | first {r : Loc} (h : Part ns b lo hi (some r) (.next g)) : Stage ns b g lo hi none r
  | later {c : ℕ} {r : Loc} (hc : c < hi) (ha : Arms ns b lo (.next g) c) (h : Part ns false c hi (some r) (.opt2 c)) :
      Stage ns b g lo hi (some c) r
  | broken {c d : ℕ} {r : Loc} (hb : Broken ns d (.next g)) (hd : lo < d ∧ d ≤ c ∧ c < hi ∧ d ≤ r.idx)
      (hp : b = true → Part ns true lo d none (.next g)) : Stage ns b g lo hi (some c) r

/-- The nodes behind `lo` up to `hi` stay, but for the link that waits. -/
structure Untouched (ns ns' : List RexNode) (r : Loc) (lo hi : ℕ) : Prop where
  core : ∀ i, lo < i → i < hi → coreOf ns' i = coreOf ns i
  type : ∀ i, i < hi → typeOf ns' i = typeOf ns i
  link : ∀ l : Loc, l.idx < hi → l ≠ r → link ns' l = link ns l
  hole : ∀ v, Rex.link ns r = some v → Rex.link ns' r = some v
  kind : ∀ c, r = .next c → typeOf ns c = some .choice → Rex.link ns' (.next c) = Rex.link ns (.next c)

theorem Untouched.keeps (h : Untouched ns ns' r lo hi) (hc : lo ≤ c) (hd : d ≤ hi) : Keeps ns ns' (some r) c d := by
  refine ⟨fun i h1 h2 => h.core i (by omega) (by omega),fun l _ hl hne => h.link l (by omega) fun he => hne (congrArg some he),?_⟩
  rintro r v ⟨⟩ hv
  exact h.hole v hv

theorem Stage.frame (h : Stage ns b g lo hi lc r) (hk : Untouched ns ns' r lo hi) (hg : g ≤ lo) (hlo : lo < hi) : Stage ns' b g lo hi lc r := by
  have hkind : ∀ b, b = true → ∀ c, some r = some (.next c) → typeOf ns c = some .choice → link ns' (.next c) = link ns (.next c) :=
    fun _ _ c hr => hk.kind c (Option.some.inj hr)
  have hsome : ∀ {l : Loc}, some l ≠ some r → l ≠ r := fun h he => h (congrArg some he)
  cases h with
  | first h =>
    exact .first (h.frame (hk.keeps le_rfl le_rfl) (hkind _) (fun hr => hk.link (.next g) (show g < hi by omega) (hsome hr)) le_rfl le_rfl)
  | @later c _ hc ha h =>
    have hlt := ha.lt
    have hr : r = .opt2 c ∨ c < r.idx := h.end_mem.imp_right fun h => h.1
    have hout : ∀ l : Loc, l.idx ≤ c → l ≠ .opt2 c → link ns' l = link ns l := by
      refine fun l hl hne => hk.link l (by omega) ?_
      rintro rfl
      rcases hr with hr | hr
      · exact hne hr
      · omega
    refine .later hc (ha.frame (fun i h1 h2 => hk.core i h1 (by omega)) (fun l _ hl hne => hout l hl hne)
      (hout (.next g) (show g ≤ c by omega) nofun)) ?_
    exact h.frame (hk.keeps hlt.le le_rfl) (hkind _) (fun hr => hk.link (.opt2 c) hc (hsome hr)) le_rfl le_rfl
  | @broken c d _ hb hd hp =>
    have hin : ∀ l : Loc, l.idx < d → link ns' l = link ns l := by
      refine fun l hl => hk.link l (by omega) ?_
      rintro rfl
      omega
    refine .broken (hb.frame (fun i hi => hk.type i (by omega)) hin) hd fun hb' => ?_
    exact (hp hb').frame ⟨fun i h1 h2 => hk.core i h1 (by omega),fun l _ hl _ => hin l hl,nofun⟩ (fun _ => nofun)
      (fun _ => hin _ hb.lt) le_rfl le_rfl

theorem Stage.advance (h : Stage ns b g lo hi lc r) (hp : ∀ d, d < hi → Part ns false d hi' (some r') r) (hlo : lo < hi)
    (hhi : hi ≤ hi') (hr : hi ≤ r'.idx) : Stage ns b g lo hi' lc r' := by
  cases h with
  | first h => exact .first ((h.mono le_rfl hhi).plug (hp lo hlo).loosen)
  | later hc ha h => exact .later (by omega) ha ((h.mono le_rfl hhi).plug (hp _ hc))
  | broken hb hd hp' => exact .broken hb (by omega) hp'

theorem Stage.hole_ge (h : Stage ns false g lo hi lc r) (hg : g ≤ lo) : g ≤ r.idx := by
  cases h with
  | first h =>
    rcases h.end_mem with rfl | h
    · exact le_rfl
    · omega
  | @later c _ hc ha h =>
    have hlt := ha.lt
    rcases h.end_mem with rfl | h
    · exact show g ≤ c by omega
    · omega
  | broken hb hd =>
    have : g < _ := hb.lt
    omega

theorem link_branch (hs : s.idx < ns.length) (hr : r.idx < ns.length) (hn : link ns r = none) (l : Loc) :
    link (branch ns s r (link ns s)) l =
      if l = .opt1 ns.length then link ns s else if l = r then none else if l = s then some ns.length else link ns l := by
  rw [branch,link_concat,length_setLink,length_setLink,link_setLink _ (by rwa [length_setLink]),link_setLink _ hs]
  by_cases hl : l.idx = ns.length
  · rw [if_pos hl,if_neg (show l ≠ r by rintro rfl; omega),if_neg (show l ≠ s by rintro rfl; omega),link_of_ge hl.ge]
    cases l <;> simp only [Loc.idx] at hl <;> simp [RexNode.link, hl]
  · rw [if_neg hl,if_neg (show l ≠ .opt1 ns.length by rintro rfl; exact hl rfl)]

theorem Arms.broken (h : Arms ns b lo l c) (hl : l.idx < d) (hc : c < d) (hn : link ns (.opt2 c) = none) : Broken ns d l := by
  induction h with
  | last h ha => exact .step hl h ha.type (.null hc hn)
  | @cons _ _ h' c _ h ha hcs ih =>
    have hlt := hcs.lt
    exact .step hl h ha.type (ih (show h' < d by omega) hc hn)

theorem Stage.branch (h : Stage ns b g lo ns.length lc r) (hg : g ≤ lo) (hlo : lo < ns.length) (hr : link ns r = none)
    (hrl : r.idx < ns.length) (hk : ∀ c, r = .next c → typeOf ns c ≠ some .choice) :
    Stage (branch ns (slotOf g lc) r (link ns (slotOf g lc))) b g lo (ns.length + 1) (some ns.length) (.opt2 ns.length) := by
  have hsl : (slotOf g lc).idx < ns.length := by
    cases h with
    | first => exact show g < ns.length by omega
    | later hc => exact hc
    | broken _ hd => exact hd.2.2.1
  have hlink := link_branch hsl hrl hr
  have hcore : ∀ i, i < ns.length → coreOf (Rex.branch ns (slotOf g lc) r (link ns (slotOf g lc))) i = coreOf ns i := fun i hi => by
    rw [coreOf_branch,if_neg (by omega)]
  have htype : typeOf (Rex.branch ns (slotOf g lc) r (link ns (slotOf g lc))) ns.length = some .choice := by
    rw [typeOf_core,coreOf_branch,if_pos rfl]
    rfl
  generalize hs : slotOf g lc = s at *
  generalize Rex.branch ns s r (link ns s) = ns' at *
  have hold : ∀ l : Loc, l.idx < ns.length → l ≠ s → link ns' l = link ns l := by
    intro l hl hne
    rw [hlink,if_neg (by rintro rfl; exact lt_irrefl _ hl)]
    by_cases he : l = r
    · rw [if_pos he,he,hr]
    · rw [if_neg he,if_neg hne]
  have hopt : link ns' (.opt1 ns.length) = link ns s := (hlink _).trans (if_pos rfl)
  have hnext : link ns' (.next ns.length) = none := by
    rw [hlink,if_neg nofun,if_neg (by rintro rfl; exact lt_irrefl _ hrl),if_neg (by rintro rfl; exact lt_irrefl _ hsl),link_of_ge le_rfl]
  have hne1 : s ≠ .opt1 ns.length := by
    rintro rfl
    exact lt_irrefl _ hsl
  have hkeeps : ∀ lo', s.idx ≤ lo' → Keeps ns ns' (some r) lo' ns.length := by
    refine fun lo' hle => ⟨fun i _ hi => hcore i hi,fun l h1 h2 _ => hold l h2 (by rintro rfl; omega),?_⟩
    rintro r v ⟨⟩ hv
    rw [hr] at hv
    cases hv
  have hkind : b = true → ∀ c, some r = some (.next c) → typeOf ns c = some .choice → link ns' (.next c) = link ns (.next c) :=
    fun _ c he hc => absurd hc (hk c (Option.some.inj he))
  have hslot : r ≠ s → link ns' s = some ns.length := fun hne => by
    rw [hlink,if_neg hne1,if_neg hne.symm,if_pos rfl]
  have hempty : r = s → link ns' s = none := fun he => by
    rw [hlink,if_neg hne1,if_pos he.symm]
  cases h with
  | first h =>
    change Loc.next g = s at hs
    subst hs
    by_cases he : r = .next g
    · exact .broken (.null (show g < ns.length by omega) (hempty he)) ⟨hlo,le_rfl,Nat.lt_succ_self _,le_rfl⟩ fun _ => .null (hempty he)
    refine .later (Nat.lt_succ_self _) (.last (hslot he) ⟨hlo,htype,hnext,?_⟩) .hole
    cases b with
    | true =>
      have hk' : Keeps ns ns' none lo ns.length := by
        refine ⟨(hkeeps lo hg).core,fun l h1 h2 _ => hold l h2 ?_,nofun⟩
        rintro rfl
        exact absurd h1 (not_lt.2 hg)
      exact Or.inl ⟨rfl,(h.seal hr).restart hk' (fun _ => nofun) nofun hopt⟩
    | false =>
      refine Or.inr ⟨r,h.restart (hkeeps lo hg) nofun (fun hh => he (Option.some.inj hh).symm) hopt,?_,h.end_mem.resolve_left he⟩
      rw [hold r hrl he,hr]
  | @later c _ hc ha h =>
    change Loc.opt2 c = s at hs
    subst hs
    have hlt := ha.lt
    have ha' : Arms ns' b lo (.next g) c := by
      refine ha.frame (fun i _ hi => hcore i (by omega)) (fun l _ hl hne => hold l (by omega) hne) ?_
      exact hold _ (show g < ns.length by omega) nofun
    by_cases he : r = .opt2 c
    · refine .broken (ha'.broken (show g < ns.length by omega) hc (hempty he)) ⟨hlo,le_rfl,Nat.lt_succ_self _,le_rfl⟩ fun _ => ?_
      exact ha'.part (.null (hempty he)) le_rfl hc
    · refine .later (Nat.lt_succ_self _) (ha'.snoc (hslot he) ⟨hc,htype,hnext,Or.inr ⟨r,?_,?_,h.end_mem.resolve_left he⟩⟩) .hole
      · exact h.restart (hkeeps c le_rfl) nofun (fun hh => he (Option.some.inj hh).symm) hopt
      · rw [hold r hrl he,hr]
  | @broken c d _ hb hd hp =>
    change Loc.opt2 c = s at hs
    subst hs
    have hin : ∀ l : Loc, l.idx < d → link ns' l = link ns l := by
      refine fun l hl => hold l (by omega) ?_
      rintro rfl
      exact absurd hl (not_lt.2 hd.2.1)
    refine .broken (hb.frame (fun i hi => typeOf_congr (hcore i (by omega))) hin) ⟨hd.1,by omega,Nat.lt_succ_self _,show d ≤ ns.length by omega⟩ fun hb' => ?_
    exact (hp hb').frame ⟨fun i _ hi => hcore i (by omega),fun l _ hl _ => hin l hl,nofun⟩ (fun _ => nofun)
      (fun _ => hin _ hb.lt) le_rfl le_rfl

theorem Stage.close (h : Stage ns b g lo hi lc r) (hg : g ≤ lo) (hr : link ns r = some j)
    (hj : typeOf ns j ≠ some .choice) (hf : finalizeChoices ns g j lc = some ns') :
    Leads ns' b lo hi (.next g) j ∧ ns'.length = ns.length ∧ (∀ i, coreOf ns' i = coreOf ns i) ∧
      ∀ l : Loc, l.idx ≤ lo ∨ hi ≤ l.idx → link ns' l = link ns l := by
  have hhead : ∀ {c}, finalizeChoices ns g j (some c) = some ns' → ∃ h' f, link ns (.next g) = some h' ∧
      loop (finalizeBody j) f (ns,h') = some ns' := by
    intro c hf
    simp only [finalizeChoices, Option.bind_eq_bind, Option.bind_eq_some_iff] at hf
    obtain ⟨rg,hrg,h',hh',rn,-,hf⟩ := hf
    split at hf
    · refine ⟨h',_,?_,hf⟩
      rw [link,show (Loc.next g).idx = g from rfl,hrg]
      exact hh'
    · cases hf
  cases h with
  | first h =>
    cases hf
    exact ⟨h.leads fun _ he => Or.inl (by cases he; exact hr),rfl,fun _ => rfl,fun _ _ => rfl⟩
  | @later c _ hc ha h =>
    have hlt := ha.lt
    obtain ⟨h',f,hl,hf⟩ := hhead hf
    have hp : Leads ns false c hi (.opt2 c) j := h.leads fun _ he => Or.inl (by cases he; exact hr)
    have hne : ∀ t, link ns (.opt2 c) = some t → typeOf ns t ≠ some .choice := by
      intro t ht
      cases h with
      | hole =>
        rw [hr] at ht
        cases ht
        exact hj
      | lone h _ hn hlone =>
        rw [h] at ht
        cases ht
        rw [typeOf_core,hn]
        exact fun he => hlone.ne_choice (Option.some.inj he)
      | group h _ hg =>
        rw [h] at ht
        cases ht
        rw [hg.type]
        rintro ⟨⟩
    obtain ⟨h1,h2,h3,h4⟩ := finalize_arms ha hg hc hp hne hl hf
    exact ⟨h1,h2,h3,fun l hl => h4 l (hl.imp_right fun hl => Or.inl (by omega))⟩
  | broken hb =>
    obtain ⟨h',f,hl,hf⟩ := hhead hf
    exact (finalize_broken hb hl hf).elim

theorem Stage.lose (h : Stage ns true g lo hi lc r) : Stage ns true g lo hi none r := by
  cases h with
  | first h => exact .first h
  | later hc ha h => exact .first (ha.part (h.loosen.mono ha.lt.le le_rfl) le_rfl hc)
  | broken _ hd hp => exact .first ((hp rfl).anywhere.mono le_rfl (by omega))

/-- The groups that are open, the innermost first. -/
inductive Nest (ns : List RexNode) : Option ℕ → Option ℕ → Loc → ℕ → Prop
  | top {lc : Option ℕ} {r : Loc} {hi : ℕ} (hhi : 1 < hi) (h : Stage ns true 0 1 hi lc r) : Nest ns none lc r hi
  | group {gs lc lc' : Option ℕ} {r r' : Loc} {hi g : ℕ} {n : RexNode} (hg : 1 < g ∧ g < hi) (hn : coreOf ns g = some n)
      (ht : n.type = .groupS) (ho : n.other = gs) (hr : link ns r' = some g) (hr' : r'.idx < g)
      (h : Stage ns false g g hi lc r) (hs : Nest ns gs lc' r' g) : Nest ns (some g) lc r hi

theorem Nest.lt (h : Nest ns gs lc r hi) : 1 < hi := by
  cases h with
  | top hhi => exact hhi
  | group hg => omega

theorem Nest.frame (h : Nest ns gs lc r hi) (hcore : ∀ i, i < hi → coreOf ns' i = coreOf ns i)
    (hlink : ∀ l : Loc, l.idx < hi → l ≠ r → link ns' l = link ns l) (hhole : ∀ v, link ns r = some v → link ns' r = some v)
    (hkind : ∀ c, r = .next c → typeOf ns c = some .choice → link ns' (.next c) = link ns (.next c)) : Nest ns' gs lc r hi := by
  induction h with
  | top hhi h =>
    exact .top hhi (h.frame ⟨fun i _ => hcore i,fun i hi => typeOf_congr (hcore i hi),hlink,hhole,hkind⟩ (Nat.zero_le _) hhi)
  | @group gs lc lc' r r' hi g n hg hn ht ho hr hr' h hs ih =>
    have hge := h.hole_ge le_rfl
    have hout : ∀ l : Loc, l.idx < g → link ns' l = link ns l := by
      refine fun l hl => hlink l (by omega) ?_
      rintro rfl
      omega
    have hs' : Nest ns' gs lc' r' g := by
      refine ih (fun i hi => hcore i (by omega)) (fun l hl _ => hout l hl) (fun v hv => (hout r' hr').trans hv) ?_
      rintro c rfl -
      exact hout _ hr'
    exact .group hg ((hcore g hg.2).trans hn) ht ho ((hout r' hr').trans hr) hr'
      (h.frame ⟨fun i _ => hcore i,fun i hi => typeOf_congr (hcore i hi),hlink,hhole,hkind⟩ le_rfl hg.2) hs'

theorem Nest.advance (h : Nest ns gs lc r hi) (hp : ∀ d, d < hi → Part ns false d hi' (some r') r) (hhi : hi ≤ hi')
    (hr : hi ≤ r'.idx) : Nest ns gs lc r' hi' := by
  cases h with
  | top h1 h => exact .top (by omega) (h.advance hp h1 hhi hr)
  | group hg hn ht ho hl hl' h hs => exact .group ⟨hg.1,by omega⟩ hn ht ho hl hl' (h.advance hp hg.2 hhi hr) hs

theorem Nest.last (h : Nest ns gs lc r hi) (hr : link ns r = some i) (hi' : typeOf ns i = some .groupS)
    (hf : lastChoice ns gs = some lc') : Nest ns gs lc' r hi := by
  cases h with
  | top h1 h =>
    cases hf
    exact .top h1 h.lose
  | @group _ _ _ _ _ _ g _ hg hn ht ho hl hl' h hs =>
    suffices he : lc' = lc by
      rw [he]
      exact .group hg hn ht ho hl hl' h hs
    simp only [lastChoice, Option.bind_eq_bind, Option.bind_eq_some_iff] at hf
    obtain ⟨m,hm,head,hhead,k,hk,hf⟩ := hf
    have hlink : link ns (.next g) = some head := by
      rw [link,show (Loc.next g).idx = g from rfl,hm]
      exact hhead
    have hty : typeOf ns head = some k.type := by rw [typeOf,hk]; rfl
    -- the first node of a list is no choice
    have hfirst : ∀ {lo l t}, Part ns false lo hi (some r) l → link ns l = some t → typeOf ns t ≠ some .choice := by
      intro lo l t hp ht
      cases hp with
      | hole =>
        rw [hr] at ht
        cases ht
        rw [hi']
        rintro ⟨⟩
      | lone h _ hn hlone =>
        rw [h] at ht
        cases ht
        rw [typeOf_core,hn]
        exact fun he => hlone.ne_choice (Option.some.inj he)
      | group h _ hg =>
        rw [h] at ht
        cases ht
        rw [hg.type]
        rintro ⟨⟩
    cases h with
    | first h =>
      rw [if_neg] at hf
      · cases hf
        rfl
      · intro he
        rw [he] at hty
        exact hfirst h hlink hty
    | later hc ha h =>
      split at hf
      · obtain ⟨t,ht,rfl⟩ := Option.map_eq_some_iff.1 hf
        rw [last_arms ha (fun t => hfirst h) hlink ht]
      · rename_i hno
        refine absurd ?_ hno
        cases ha with
        | last h ha =>
          rw [hlink] at h
          cases h
          have := ha.type
          rw [hty] at this
          exact Option.some.inj this
        | cons h ha =>
          rw [hlink] at h
          cases h
          have := ha.type
          rw [hty] at this
          exact Option.some.inj this
    | broken hb =>
      split at hf
      · obtain ⟨t,ht,rfl⟩ := Option.map_eq_some_iff.1 hf
        exact (last_broken hb hlink ht).elim
      · rename_i hno
        cases hb with
        | null _ h =>
          rw [hlink] at h
          cases h
        | step _ h ht =>
          rw [hlink] at h
          cases h
          rw [hty] at ht
          exact absurd (Option.some.inj ht) hno

/-! ## The invariant of the parser -/

/-- What is known of the table while a pattern is read. -/
structure Shape (ns : List RexNode) (gs lc : Option ℕ) (r : Loc) : Prop where
  start : coreOf ns 0 = some { type := .groupS, other := some 1 }
  stop : coreOf ns 1 = some { type := .groupE, other := some 0 }
  last : link ns (.next 1) = none
  hole : link ns r = none
  hole_lt : r.idx < ns.length
  hole_ne : r.idx ≠ 1
  kind : ∀ c, r = .next c → typeOf ns c ≠ some .choice
  nest : Nest ns gs lc r ns.length

theorem Shape.one_lt (h : Shape ns gs lc r) : 1 < ns.length := h.nest.lt

theorem Shape.new_ne (h : Shape ns gs lc r) : Loc.next ns.length ≠ r := by
  rintro rfl
  exact lt_irrefl _ h.hole_lt

theorem Shape.nest_grow (h : Shape ns gs lc r) (hn : Blank n) : Nest (grow ns r n) gs lc r ns.length := by
  have hlink := link_grow h.hole_lt hn
  refine h.nest.frame (fun i hi => ?_) (fun l _ hne => ?_) (fun v hv => ?_) fun c hr hc => absurd hc (h.kind c hr)
  · rw [coreOf_grow,if_neg (by omega)]
  · rw [hlink,if_neg hne]
  · rw [h.hole] at hv
    cases hv

theorem Shape.grow (h : Shape ns gs lc r) (hn : Blank n) (ht : n.type ≠ .choice)
    (hs : Nest (Rex.grow ns r n) gs' lc' (.next ns.length) (ns.length + 1)) : Shape (Rex.grow ns r n) gs' lc' (.next ns.length) := by
  have hlt := h.one_lt
  have hr := h.hole_lt
  have hlink := link_grow hr hn
  refine ⟨?_,?_,?_,?_,?_,?_,?_,?_⟩
  · rw [coreOf_grow,if_neg (by omega),h.start]
  · rw [coreOf_grow,if_neg (by omega),h.stop]
  · rw [hlink,if_neg (by rintro rfl; exact h.hole_ne rfl),h.last]
  · rw [hlink,if_neg h.new_ne,link_of_ge le_rfl]
  · rw [length_grow]
    exact Nat.lt_succ_self _
  · exact ne_of_gt hlt
  · rintro c ⟨⟩
    rw [typeOf_core,coreOf_grow,if_pos rfl]
    exact fun he => ht (Option.some.inj he)
  · rwa [length_grow]

theorem Shape.lone (h : Shape ns gs lc r) (hn : Blank n) (hl : Lone n) : Shape (Rex.grow ns r n) gs lc (.next ns.length) := by
  refine h.grow hn hl.ne_choice ((h.nest_grow hn).advance (fun d hd => ?_) (Nat.le_succ _) le_rfl)
  refine .lone (i := ns.length) (n := n.core) ?_ ⟨hd,Nat.lt_succ_self _⟩ ?_ hl .hole
  · rw [link_grow h.hole_lt hn,if_pos rfl]
  · rw [coreOf_grow,if_pos rfl]

theorem Shape.groupS (h : Shape ns gs lc r) (num : ℕ) :
    Shape (Rex.grow ns r { type := .groupS, num := num, other := gs }) (some ns.length) none (.next ns.length) := by
  have hn : Blank { type := .groupS, num := num, other := gs } := ⟨rfl,rfl,rfl⟩
  refine h.grow hn nofun ?_
  refine .group (n := { type := .groupS, num := num, other := gs }) ⟨h.one_lt,Nat.lt_succ_self _⟩ ?_ rfl rfl ?_ h.hole_lt
    (.first .hole) (h.nest_grow hn)
  · rw [coreOf_grow,if_pos rfl]
    rfl
  · rw [link_grow h.hole_lt hn,if_pos rfl]

theorem Nest.branch (h : Nest ns gs lc r ns.length) (hr : link ns r = none) (hrl : r.idx < ns.length)
    (hk : ∀ c, r = .next c → typeOf ns c ≠ some .choice) :
    (slotOf (gs.getD 0) lc).idx < ns.length ∧ (slotOf (gs.getD 0) lc).idx ≠ 1 ∧
      Nest (Rex.branch ns (slotOf (gs.getD 0) lc) r (link ns (slotOf (gs.getD 0) lc))) gs (some ns.length) (.opt2 ns.length)
        (ns.length + 1) := by
  have hslot : ∀ {b g lo}, Stage ns b g lo ns.length lc r → g ≤ lo → lo < ns.length → g ≠ 1 → 1 ≤ lo →
      g ≤ (slotOf g lc).idx ∧ (slotOf g lc).idx < ns.length ∧ (slotOf g lc).idx ≠ 1 := by
    intro b g lo h hg hlo hne h1
    cases h with
    | first => exact ⟨le_rfl,show g < ns.length by omega,hne⟩
    | @later c _ hc ha =>
      have := ha.lt
      exact ⟨show g ≤ c by omega,hc,show c ≠ 1 by omega⟩
    | @broken c d _ hb hd hp =>
      exact ⟨show g ≤ c by omega,hd.2.2.1,show c ≠ 1 by omega⟩
  cases h with
  | top h1 h =>
    obtain ⟨-,hlt,hne⟩ := hslot h (Nat.zero_le _) h1 Nat.zero_ne_one le_rfl
    exact ⟨hlt,hne,.top (by omega) (h.branch (Nat.zero_le _) h1 hr hrl hk)⟩
  | @group _ _ _ _ r' _ g n hg hn ht ho hl hl' h hs =>
    obtain ⟨hge,hlt,hne⟩ := hslot h le_rfl hg.2 (by omega) (by omega)
    refine ⟨hlt,hne,?_⟩
    have hst := h.branch le_rfl hg.2 hr hrl hk
    have hlink := link_branch hlt hrl hr
    have hcore : ∀ i, i < ns.length → coreOf (Rex.branch ns (slotOf g lc) r (link ns (slotOf g lc))) i = coreOf ns i := fun i hi => by
      rw [coreOf_branch,if_neg (by omega)]
    have hrg := h.hole_ge le_rfl
    change Nest (Rex.branch ns (slotOf g lc) r (link ns (slotOf g lc))) _ _ _ _
    generalize slotOf g lc = s at *
    have hout : ∀ l : Loc, l.idx < g → link (Rex.branch ns s r (link ns s)) l = link ns l := by
      intro l hl
      rw [hlink,if_neg (by rintro rfl; exact absurd hl (not_lt.2 hg.2.le)),if_neg (by rintro rfl; omega),if_neg (by rintro rfl; omega)]
    have hs' := hs.frame (fun i hi => hcore i (by omega)) (fun l hl _ => hout l hl) (fun v hv => (hout r' hl').trans hv)
      fun c hc _ => by
        subst hc
        exact hout _ hl'
    exact .group ⟨hg.1,by omega⟩ ((hcore g hg.2).trans hn) ht ho ((hout r' hl').trans hl) hl' hst hs'

theorem Shape.choice (h : Shape ns gs lc r) :
    Shape (Rex.branch ns (slotOf (gs.getD 0) lc) r (link ns (slotOf (gs.getD 0) lc))) gs (some ns.length) (.opt2 ns.length) := by
  obtain ⟨hlt,hne,hn⟩ := h.nest.branch h.hole h.hole_lt h.kind
  have hone := h.one_lt
  have hr := h.hole_lt
  have hlink := link_branch hlt hr h.hole
  generalize slotOf (gs.getD 0) lc = s at *
  refine ⟨?_,?_,?_,?_,?_,?_,nofun,?_⟩
  · rw [coreOf_branch,if_neg (by omega),h.start]
  · rw [coreOf_branch,if_neg (by omega),h.stop]
  · rw [hlink,if_neg nofun,if_neg (by rintro rfl; exact h.hole_ne rfl),if_neg (by rintro rfl; exact hne rfl),h.last]
  · rw [hlink,if_neg nofun,if_neg (by rintro rfl; exact lt_irrefl _ hr),if_neg (by rintro rfl; exact lt_irrefl _ hlt),
      link_of_ge le_rfl]
  · rw [length_branch]
    exact Nat.lt_succ_self _
  · exact ne_of_gt hone
  · rwa [length_branch]

theorem coreOf_modify (f : RexNode → RexNode) (k : ℕ) :
    coreOf (ns.modify i f) k = if i = k then (ns[k]?).map fun n => (f n).core else coreOf ns k := by
  rw [coreOf,List.getElem?_modify]
  split
  · cases ns[k]? <;> rfl
  · cases hn : ns[k]? <;> simp [coreOf, hn]

theorem link_set {e : RexNode} (hi : ns[i]? = some n) (he : ∀ l, e.link l = n.link l) (l : Loc) : link (ns.set i e) l = link ns l := by
  have hlt := (List.getElem?_eq_some_iff.1 hi).1
  rw [link,link,List.getElem?_set,if_pos hlt]
  split
  · rename_i h
    rw [← h,hi]
    exact he l
  · rfl

theorem coreOf_set {e : RexNode} (hi : i < ns.length) (k : ℕ) : coreOf (ns.set i e) k = if i = k then some e.core else coreOf ns k := by
  rw [coreOf,List.getElem?_set,if_pos hi]
  split <;> rfl

theorem rexCheckRepitions_some {pat : List UInt8} {p q : ℕ} {n' : RexNode} (h : rexCheckRepitions pat n p = some (.ok (n',q))) :
    ∃ a b, n' = { n with repmin := a, repmax := b } := by
  unfold rexCheckRepitions at h
  split at h
  · cases h
    exact ⟨_,_,rfl⟩
  simp only [Option.bind_eq_bind, Option.bind_eq_some_iff] at h
  obtain ⟨c,-,h⟩ := h
  split_ifs at h
  · cases h
    exact ⟨_,_,rfl⟩
  · cases h
    exact ⟨_,_,rfl⟩
  · cases h
    exact ⟨_,_,rfl⟩
  · simp only [Option.bind_eq_some_iff] at h
    obtain ⟨x,-,h⟩ := h
    cases x with
    | error e => cases h
    | ok x =>
      cases h
      exact ⟨_,_,rfl⟩
  · cases h
    exact ⟨_,_,rfl⟩

/-- The two nodes of a group with the bounds of its repetition. -/
structure Bounded (ns ns' : List RexNode) (g k : ℕ) : Prop where
  length : ns'.length = ns.length
  core : ∀ i, i ≠ g → i ≠ k → coreOf ns' i = coreOf ns i
  link : ∀ l, link ns' l = link ns l
  paired : Paired ns' g k

theorem bounded_group {k num : ℕ} {m e : RexNode} (a b : ℕ) (hg : ns[g]? = some m) (hk : ns[k]? = some e) (hne : g ≠ k)
    (hm : m.type = .groupS ∧ m.other = some k ∧ m.num = num) (he : e.type = .groupE ∧ e.other = some g ∧ e.num = num) :
    Bounded ns ((ns.set k { e with repmin := a, repmax := b }).modify g fun n => { n with repmin := a, repmax := b }) g k := by
  have hlt := (List.getElem?_eq_some_iff.1 hk).1
  have hgs : (ns.set k { e with repmin := a, repmax := b })[g]? = some m := by
    rw [List.getElem?_set_ne hne.symm,hg]
  refine ⟨by simp,fun i h1 h2 => ?_,fun l => ?_,?_⟩
  · rw [coreOf_modify,if_neg h1.symm,coreOf_set hlt,if_neg h2.symm]
  · rw [link_modify _ (fun n _ l => by cases l <;> rfl),link_set hk fun l => by cases l <;> rfl]
  · refine ⟨{ m with repmin := a, repmax := b },{ e with repmin := a, repmax := b },?_,?_,hm.1,he.1,hm.2.1,he.2.1,
      he.2.2.trans hm.2.2.symm,rfl,rfl⟩
    · rw [List.getElem?_modify,hgs]
      exact congrArg some (if_pos rfl)
    · rw [List.getElem?_modify,List.getElem?_set_self hlt]
      exact congrArg some (if_neg hne)

/-- The table with the end node of a group. -/
def endGroup (ns : List RexNode) (r : Loc) (g num : ℕ) : List RexNode :=
  (grow ns r { type := .groupE, num := num, other := some g }).modify g fun n => { n with other := some ns.length }

theorem length_endGroup (ns : List RexNode) (r : Loc) (g num : ℕ) : (endGroup ns r g num).length = ns.length + 1 := by
  rw [endGroup,List.length_modify,length_grow]

theorem link_endGroup (hr : r.idx < ns.length) (num : ℕ) (l : Loc) :
    link (endGroup ns r g num) l = if l = r then some ns.length else link ns l := by
  rw [endGroup,link_modify _ (fun n _ l => by cases l <;> rfl),link_grow hr ⟨rfl,rfl,rfl⟩]

theorem coreOf_endGroup (hi : i ≠ g) (num : ℕ) :
    coreOf (endGroup ns r g num) i = if i = ns.length then some { type := .groupE, num := num, other := some g } else coreOf ns i := by
  rw [endGroup,coreOf_modify,if_neg hi.symm,coreOf_grow]
  rfl

theorem coreOf_endGroup_start (hg : coreOf ns g = some n) (hlt : g < ns.length) (num : ℕ) :
    coreOf (endGroup ns r g num) g = some { n with other := some ns.length } := by
  have hgrow : coreOf (grow ns r { type := .groupE, num := num, other := some g }) g = some n := by
    rw [coreOf_grow,if_neg (by omega),hg]
  obtain ⟨m,hm,rfl⟩ := node_of_core hgrow
  rw [endGroup,coreOf_modify,if_pos rfl,hm]
  rfl

theorem Shape.ends {rg : RexNode} (h : Shape ns (some g) lc r) (hrg : ns[g]? = some rg)
    (hf : finalizeChoices (endGroup ns r g rg.num) g ns.length lc = some ns') :
    Leads ns' false g ns.length (.next g) ns.length ∧ ns'.length = ns.length + 1 ∧
      (∀ i, coreOf ns' i = coreOf (endGroup ns r g rg.num) i) ∧
      ∀ l : Loc, l.idx ≤ g ∨ ns.length ≤ l.idx → link ns' l = link (endGroup ns r g rg.num) l := by
  have hlen := h.hole_lt
  cases h.nest with
  | @group gs _ _ _ _ _ _ n hg hn ht ho hl hl' hst hs =>
    have hcore0 : coreOf ns g = some rg.core := by rw [coreOf,hrg]; rfl
    have hlink2 := link_endGroup (g := g) hlen rg.num
    have hcore2 : ∀ i, i ≠ g → coreOf (endGroup ns r g rg.num) i = _ := fun i hi => coreOf_endGroup hi rg.num
    have hcoreg := coreOf_endGroup_start (r := r) hcore0 hg.2 rg.num
    have hlen2 := length_endGroup ns r g rg.num
    generalize endGroup ns r g rg.num = ns2 at *
    have hend : coreOf ns2 ns.length = some { type := .groupE, num := rg.num, other := some g } :=
      (hcore2 _ (by omega)).trans (if_pos rfl)
    have hold : ∀ i, i ≠ g → i < ns.length → coreOf ns2 i = coreOf ns i := fun i h1 h2 => (hcore2 i h1).trans (if_neg (by omega))
    have htype2 : ∀ i, i < ns.length → typeOf ns2 i = typeOf ns i := by
      intro i hi
      by_cases hig : i = g
      · rw [hig,typeOf_core,hcoreg,typeOf_core,hcore0]
        rfl
      · exact typeOf_congr (hold i hig hi)
    have hst2 : Stage ns2 false g g ns.length lc r := by
      refine hst.frame ⟨fun i h1 h2 => hold i (by omega) h2,htype2,fun l _ hne => (hlink2 l).trans (if_neg hne),?_,?_⟩ le_rfl hg.2
      · intro v hv
        rw [h.hole] at hv
        cases hv
      · exact fun c hr hc => absurd hc (h.kind c hr)
    obtain ⟨hleads,hlen3,hcore3,hlink3⟩ :=
      hst2.close le_rfl ((hlink2 r).trans (if_pos rfl)) (by rw [typeOf_core,hend]; rintro ⟨⟩) hf
    exact ⟨hleads,hlen3.trans hlen2,hcore3,hlink3⟩

theorem Shape.groupE {pat : List UInt8} {x y : RexSt} (h : Shape x.nodes x.gstack x.lastch x.rxnn)
    (hp : rexParseGroupE pat x = some (.ok y)) : Shape y.nodes y.gstack y.lastch y.rxnn := by
  unfold rexParseGroupE at hp
  obtain ⟨p,r,ns,gs,lc,gnum⟩ := x
  dsimp only at h hp
  cases gs with
  | none => cases hp
  | some g =>
    simp only [RexSt.append, Option.bind_eq_bind, Option.bind_eq_some_iff] at hp
    obtain ⟨rg,hrg,ns3,hns3,lc',hlc,e,he,z,hz,hp⟩ := hp
    cases z with
    | error e => cases hp
    | ok z =>
      obtain ⟨e',q⟩ := z
      obtain rfl := Except.ok.inj (Option.some.inj hp)
      obtain ⟨a,b,rfl⟩ := rexCheckRepitions_some hz
      have hlen := h.hole_lt
      cases h.nest with
      | @group gs _ lc0 _ r' _ _ n hg hn ht ho hl hl' hst hs =>
        have hge := hst.hole_ge le_rfl
        have hcore0 : coreOf ns g = some rg.core := by rw [coreOf,hrg]; rfl
        rw [hcore0] at hn
        cases hn
        change rg.type = .groupS at ht
        change rg.other = gs at ho
        rw [ho] at hlc
        -- the table with the end node
        change finalizeChoices (endGroup ns r g rg.num) g ns.length lc = some ns3 at hns3
        obtain ⟨hleads,hlen3,hcore3,hlink3⟩ := h.ends hrg hns3
        have hlink2 := link_endGroup (g := g) hlen rg.num
        have hcore2 : ∀ i, i ≠ g → coreOf (endGroup ns r g rg.num) i = _ := fun i hi => coreOf_endGroup hi rg.num
        have hcoreg := coreOf_endGroup_start (r := r) hcore0 hg.2 rg.num
        generalize endGroup ns r g rg.num = ns2 at *
        have hend : coreOf ns2 ns.length = some { type := .groupE, num := rg.num, other := some g } :=
          (hcore2 _ (by lia)).trans (if_pos rfl)
        have hold : ∀ i, i ≠ g → i < ns.length → coreOf ns2 i = coreOf ns i := fun i h1 h2 => (hcore2 i h1).trans (if_neg (by lia))
        have htype2 : ∀ i, i < ns.length → typeOf ns2 i = typeOf ns i := by
          intro i hi
          by_cases hig : i = g
          · rw [hig,typeOf_core,hcoreg,typeOf_core,hcore0]
            rfl
          · exact typeOf_congr (hold i hig hi)
        -- the enclosing group
        have hout : ∀ l : Loc, l.idx < g → link ns3 l = link ns l := by
          intro l hl
          rw [hlink3 l (Or.inl hl.le),hlink2,if_neg (by rintro rfl; lia)]
        have hs3 : Nest ns3 gs lc' r' g := by
          refine Nest.last (hs.frame (fun i hi => ?_) (fun l hl _ => hout l hl) (fun v hv => (hout r' hl').trans hv) ?_)
            ((hout r' hl').trans hl) ?_ hlc
          · exact (hcore3 i).trans (hold i (by lia) (by lia))
          · rintro c rfl -
            exact hout _ hl'
          · rw [typeOf_congr (hcore3 g),htype2 g hg.2,typeOf_core,hcore0]
            exact congrArg some ht
        -- the bounds of the group
        obtain ⟨m,hm,hmcore⟩ := node_of_core ((hcore3 g).trans hcoreg)
        have hecore : e.core = { type := .groupE, num := rg.num, other := some g } := by
          have h1 := (hcore3 ns.length).trans hend
          rw [coreOf,he] at h1
          exact Option.some.inj h1
        have hbound := bounded_group a b hm he (by lia)
          ⟨(congrArg (·.type) hmcore).trans ht,congrArg (·.other) hmcore,congrArg (·.num) hmcore⟩
          ⟨congrArg (·.type) hecore,congrArg (·.other) hecore,congrArg (·.num) hecore⟩
        generalize (ns3.set ns.length { e with repmin := a, repmax := b }).modify g (fun n => { n with repmin := a, repmax := b }) = ns5 at *
        obtain ⟨hlen5,hcore5,hlink5,hpair⟩ := hbound
        have hs5 : Nest ns5 gs lc' r' g := by
          refine hs3.frame (fun i hi => hcore5 i (by lia) (by lia)) (fun l _ _ => hlink5 l) (fun v hv => (hlink5 r').trans hv) ?_
          exact fun c _ _ => hlink5 _
        have hbody : Leads ns5 false g ns.length (.next g) ns.length :=
          hleads.frame (fun i h1 h2 => hcore5 i (by lia) (by lia)) (fun l _ _ => hlink5 l) (hlink5 _)
        have hnest : Nest ns5 gs lc' (.next ns.length) (ns.length + 1) := by
          refine hs5.advance (fun d hd => ?_) (by lia) hg.2.le
          exact .group ((hlink5 r').trans ((hout r' hl').trans hl)) ⟨hd,hg.2,Nat.lt_succ_self _⟩ hpair
            (hbody.mono hd.le (Nat.le_succ _)) .hole
        have hone := h.one_lt
        have hcorek : ∀ i, i ≤ 1 → coreOf ns5 i = coreOf ns i := fun i hi =>
          (hcore5 i (by lia) (by lia)).trans ((hcore3 i).trans (hold i (by lia) (by lia)))
        refine ⟨(hcorek 0 (Nat.zero_le _)).trans h.start,(hcorek 1 le_rfl).trans h.stop,?_,?_,?_,ne_of_gt hone,?_,?_⟩
        · exact (hlink5 _).trans ((hout (.next 1) hg.1).trans h.last)
        · change link ns5 (.next ns.length) = none
          rw [hlink5,hlink3 _ (Or.inr le_rfl),hlink2,if_neg h.new_ne,link_of_ge le_rfl]
        · change ns.length < ns5.length
          lia
        · rintro c ⟨⟩
          change typeOf ns5 ns.length ≠ _
          obtain ⟨_,rge,hgr⟩ := hpair
          rw [typeOf,hgr.stop]
          exact fun he => by cases hgr.groupE.symm.trans (Option.some.inj he)
        · have hlast : ns5.length = ns.length + 1 := by lia
          change Nest ns5 rg.other lc' (.next ns.length) ns5.length
          rw [ho,hlast]
          exact hnest

/-! ## What a pattern is compiled to -/

/-- The table of a pattern that is accepted. -/
structure Compiled (ns : List RexNode) : Prop where
  start : coreOf ns 0 = some { type := .groupS, other := some 1 }
  stop : coreOf ns 1 = some { type := .groupE, other := some 0 }
  last : link ns (.next 1) = none
  list : Leads ns true 1 ns.length (.next 0) 1

theorem Shape.compiled (h : Shape ns none lc r) (hf : finalizeChoices (setLink ns (some 1) r) 0 1 lc = some ns') : Compiled ns' := by
  have hlink := link_setLink (some 1) h.hole_lt
  have hcore : ∀ i, coreOf (setLink ns (some 1) r) i = coreOf ns i := fun i => coreOf_setLink _
  have hlen : (setLink ns (some 1) r).length = ns.length := length_setLink _
  cases h.nest with
  | top hone hst =>
    have hst1 : Stage (setLink ns (some 1) r) true 0 1 ns.length lc r := by
      refine hst.frame ⟨fun i _ _ => hcore i,fun i _ => typeOf_congr (hcore i),fun l _ hne => ?_,fun v hv => ?_,?_⟩ (Nat.zero_le _) hone
      · rw [hlink,if_neg hne]
      · rw [h.hole] at hv
        cases hv
      · exact fun c hr hc => absurd hc (h.kind c hr)
    have hj : typeOf (setLink ns (some 1) r) 1 ≠ some .choice := by
      rw [typeOf_core,hcore,h.stop]
      exact nofun
    obtain ⟨hleads,hlen',hcore',hlink'⟩ := hst1.close (Nat.zero_le _) (by rw [hlink,if_pos rfl]) hj hf
    refine ⟨(hcore' 0).trans ((hcore 0).trans h.start),(hcore' 1).trans ((hcore 1).trans h.stop),?_,?_⟩
    · rw [hlink' _ (Or.inl le_rfl),hlink,if_neg (by rintro rfl; exact h.hole_ne rfl),h.last]
    · rwa [hlen',hlen]

/-! ## A turn of the parser -/

/-- A node that stands alone has been linked, or two in a row. -/
inductive Gains (x : RexSt) : RexSt → Prop
  | one {n : RexNode} {p : ℕ} (hn : Blank n) (hl : Lone n) : Gains x (x.append n p)
  | two {n n' : RexNode} {p p' : ℕ} (hn : Blank n) (hl : Lone n) (hn' : Blank n') (hl' : Lone n') :
      Gains x ((x.append n p).append n' p')

theorem finish_gains {pat : List UInt8} {x y : RexSt} {p : ℕ} (hn : Blank n) (hl : Lone n) (hf : x.finish pat n p = some (.ok y)) :
    Gains x y := by
  simp only [RexSt.finish, Option.bind_eq_bind, Option.bind_eq_some_iff] at hf
  obtain ⟨z,hz,hf⟩ := hf
  cases z with
  | error e => cases hf
  | ok z =>
    obtain ⟨m,q⟩ := z
    obtain rfl := Except.ok.inj (Option.some.inj hf)
    obtain ⟨a,b,rfl⟩ := rexCheckRepitions_some hz
    exact .one ⟨hn.next,hn.opt1,hn.opt2⟩ hl

theorem rexParseClass_gains {pat : List UInt8} {x y : RexSt} (hp : rexParseClass pat x = some (.ok y)) : Gains x y := by
  unfold rexParseClass at hp
  split at hp
  · cases hp
  simp only [Option.bind_eq_bind, Option.bind_eq_some_iff] at hp
  obtain ⟨c,-,hp⟩ := hp
  generalize (if (decide (c = 94)) = true then x.p + 2 else x.p + 1) = start at hp
  split at hp
  · cases hp
  simp only [Option.bind_eq_some_iff] at hp
  obtain ⟨d,-,hp⟩ := hp
  split at hp
  · cases hp
  · exact finish_gains ⟨rfl,rfl,rfl⟩ (Or.inr (Or.inl rfl)) hp

theorem strBody_some {pat : List UInt8} {x : StrSt} {t : Turn StrSt (Except ℤ (List UInt8 × ℕ))} (h : strBody pat x = some t) :
    (spanRegular (pat.drop x.p) x.maxlen = some 0 ∧ ∃ c, pat[x.p]? = some c ∧ (c ≠ 92 ∧ t = .leave (.ok (x.str,x.p)) ∨
      c = 92 ∧ ((∃ e, t = .leave (.error e)) ∨ ∃ p m e, t = strTest ⟨p,m,x.str ++ [e]⟩))) ∨
    ∃ n p m, spanRegular (pat.drop x.p) x.maxlen = some n ∧ n ≠ 0 ∧ t = strTest ⟨p,m,x.str ++ (pat.drop x.p).take n⟩ := by
  simp only [strBody, Option.bind_eq_bind, Option.bind_eq_some_iff] at h
  obtain ⟨n,hn,h⟩ := h
  split at h
  · rename_i h0
    subst h0
    simp only [Option.bind_eq_some_iff] at h
    obtain ⟨c,hc,h⟩ := h
    refine Or.inl ⟨hn,c,hc,?_⟩
    split at h
    · rename_i hne
      cases h
      exact Or.inl ⟨hne,rfl⟩
    · rename_i hne
      refine Or.inr ⟨not_not.1 hne,?_⟩
      split at h
      · cases h
        exact Or.inl ⟨_,rfl⟩
      · simp only [Option.bind_eq_some_iff] at h
        obtain ⟨e,-,h⟩ := h
        cases h
        exact Or.inr ⟨_,_,e,rfl⟩
  · rename_i h0
    cases h
    exact Or.inr ⟨n,_,_,hn,h0,rfl⟩

theorem strTest_again {x y : StrSt} (h : strTest x = .again y) : y.str = x.str := by
  unfold strTest at h
  split at h
  · cases h
    rfl
  · cases h

theorem strTest_leave {x : StrSt} {str : List UInt8} {q : ℕ} (h : strTest x = .leave (.ok (str,q))) : str = x.str := by
  unfold strTest at h
  split at h
  · cases h
  · cases h
    rfl

theorem parseChars_ne {pat str : List UInt8} {p q : ℕ} {c : UInt8} (hc : pat[p]? = some c) (hs : c ∉ special ∨ c = 92)
    (h : parseChars pat p = some (.ok (str,q))) : str ≠ [] := by
  have hlt := (List.getElem?_eq_some_iff.1 hc).1
  have hdrop : pat.drop p = c :: pat.drop (p + 1) := by
    rw [List.drop_eq_getElem_cons hlt]
    rw [List.getElem?_eq_getElem hlt] at hc
    rw [Option.some.inj hc]
  -- what a turn stores is not empty
  have hturn : ∀ {x : StrSt} {t}, (x.str ≠ [] ∨ x = ⟨p,min (pat.length - p) 32,[]⟩) → strBody pat x = some t →
      (∃ str q, str ≠ [] ∧ t = .leave (.ok (str,q))) ∨ (∃ e, t = .leave (.error e)) ∨ ∃ y, y.str ≠ [] ∧ t = strTest y := by
    intro x t hx hb
    rcases strBody_some hb with ⟨hspan,c',hc',hcase⟩ | ⟨n,p',m,hspan,hn,rfl⟩
    · rcases hcase with ⟨hne,rfl⟩ | ⟨-,⟨e,rfl⟩ | ⟨p',m,e,rfl⟩⟩
      · rcases hx with hx | rfl
        · exact Or.inl ⟨_,_,hx,rfl⟩
        · -- the first character is an ordinary one
          obtain ⟨k,hk⟩ : ∃ k, min (pat.length - p) 32 = k + 1 := ⟨min (pat.length - p) 32 - 1,by omega⟩
          rw [hc] at hc'
          cases hc'
          have hno : c ∉ special := hs.resolve_right hne
          rw [hk,hdrop,spanRegular,if_neg hno] at hspan
          obtain ⟨k,-,h⟩ := Option.map_eq_some_iff.1 hspan
          cases h
      · exact Or.inr (Or.inl ⟨e,rfl⟩)
      · exact Or.inr (Or.inr ⟨_,by simp,rfl⟩)
    · refine Or.inr (Or.inr ⟨_,?_,rfl⟩)
      rcases hx with hx | rfl
      · simp [hx]
      · obtain ⟨n,rfl⟩ : ∃ n', n = n' + 1 := ⟨n - 1,by omega⟩
        simp [hdrop]
  refine loop_partial (I := fun x => x.str ≠ [] ∨ x = ⟨p,min (pat.length - p) 32,[]⟩)
    (Q := fun r => ∀ str q, r = .ok (str,q) → str ≠ []) ?_ ?_ (Or.inr rfl) h str q rfl
  · intro x y hx hb
    rcases hturn hx hb with ⟨_,_,-,ht⟩ | ⟨_,ht⟩ | ⟨z,hz,ht⟩
    · cases ht
    · cases ht
    · exact Or.inl (by rwa [strTest_again ht.symm])
  · rintro x r hx hb str q rfl
    rcases hturn hx hb with ⟨_,_,hne,ht⟩ | ⟨_,ht⟩ | ⟨z,hz,ht⟩
    · cases ht
      exact hne
    · cases ht
    · rwa [strTest_leave ht.symm]

theorem rexParseStr_gains {junk : UInt8} {pat : List UInt8} {x y : RexSt} {c : UInt8} (hc : pat[x.p]? = some c)
    (hs : c ∉ special ∨ c = 92) (hp : rexParseStr junk pat x = some (.ok y)) : Gains x y := by
  simp only [rexParseStr, Option.bind_eq_bind, Option.bind_eq_some_iff] at hp
  obtain ⟨z,hz,hp⟩ := hp
  cases z with
  | error e => cases hp
  | ok z =>
    obtain ⟨str,op⟩ := z
    have hne := parseChars_ne hc hs hz
    simp only [Option.bind_eq_some_iff] at hp
    obtain ⟨w,hw,hp⟩ := hp
    cases w with
    | error e => cases hp
    | ok w =>
      obtain ⟨n,q⟩ := w
      obtain ⟨a,b,rfl⟩ := rexCheckRepitions_some hw
      simp only at hp
      split at hp
      · rename_i htwo
        obtain rfl := Except.ok.inj (Option.some.inj hp)
        have hinit : str.dropLast ≠ [] := by
          rw [← List.length_pos_iff,List.length_dropLast]
          omega
        exact .two ⟨rfl,rfl,rfl⟩ (Or.inl ⟨rfl,hinit⟩) ⟨rfl,rfl,rfl⟩ (Or.inl ⟨rfl,List.cons_ne_nil _ _⟩)
      · obtain rfl := Except.ok.inj (Option.some.inj hp)
        exact .one ⟨rfl,rfl,rfl⟩ (Or.inl ⟨rfl,hne⟩)

theorem rexBody_goOn {junk : UInt8} {pat : List UInt8} {x : RexSt} {t : Turn RexSt (Except ℤ (List RexNode))} (hp : x.p ≠ pat.length)
    (h : rexBody junk pat x = some t) : ∃ c s, At pat x.p (c :: s) ∧ pat[x.p]? = some c := by
  cases hc : pat[x.p]? with
  | none =>
    rw [rexBody,if_neg hp,hc] at h
    cases h
  | some c =>
    have hlt := (List.getElem?_eq_some_iff.1 hc).1
    refine ⟨c,pat.drop (x.p + 1),⟨hlt.le,?_⟩,rfl⟩
    rw [List.drop_eq_getElem_cons hlt,(List.getElem?_eq_some_iff.1 hc).2]

theorem goOn_again {r : Option (Except ℤ RexSt)} {y : RexSt} (h : goOn r = some (.again y)) : r = some (.ok y) := by
  obtain ⟨z,rfl,h⟩ := Option.bind_eq_some_iff.1 h
  cases z with
  | error e => cases h
  | ok z =>
    cases h
    rfl

theorem rexBody_again {junk : UInt8} {pat : List UInt8} {x y : RexSt} (hb : rexBody junk pat x = some (.again y)) :
    Gains x y ∨ y = rexParseGroupS x ∨ rexParseGroupE pat x = some (.ok y) ∨ pat[x.p]? = some 124 ∧ rexParseChoice x = some y := by
  by_cases hp : x.p = pat.length
  · rw [rexBody,if_pos hp] at hb
    split at hb
    · cases hb
    · simp only [Option.bind_eq_bind, Option.bind_eq_some_iff] at hb
      obtain ⟨ns,-,hb⟩ := hb
      cases hb
  · obtain ⟨c,s,hat,hc⟩ := rexBody_goOn hp hb
    rw [rexBody_cons hat] at hb
    have hr := goOn_again hb
    by_cases hstop : c ∈ [42,93,43,63,123,125]
    · rw [if_pos hstop] at hr
      cases hr
    rw [if_neg hstop] at hr
    split_ifs at hr with h1 h2 h3 h4 h5 h6 h7
    · cases hr
      exact Or.inl (.one ⟨rfl,rfl,rfl⟩ (Or.inr (Or.inr (Or.inl rfl))))
    · cases hr
      exact Or.inl (.one ⟨rfl,rfl,rfl⟩ (Or.inr (Or.inr (Or.inr rfl))))
    · cases hr
      exact Or.inr (Or.inl rfl)
    · exact Or.inl (rexParseClass_gains hr)
    · exact Or.inr (Or.inr (Or.inl hr))
    · exact Or.inl (finish_gains ⟨rfl,rfl,rfl⟩ (Or.inr (Or.inl rfl)) hr)
    · obtain ⟨w,hw,he⟩ := Option.map_eq_some_iff.1 hr
      cases he
      exact Or.inr (Or.inr (Or.inr ⟨hc.trans (congrArg some h7),hw⟩))
    · refine Or.inl (rexParseStr_gains hc ?_ hr)
      by_cases h92 : c = 92
      · exact Or.inr h92
      · refine Or.inl fun hs => ?_
        simp only [special, List.mem_cons, List.not_mem_nil, or_false] at hs hstop
        tauto

theorem Shape.gains {x y : RexSt} (h : Shape x.nodes x.gstack x.lastch x.rxnn) (hg : Gains x y) :
    Shape y.nodes y.gstack y.lastch y.rxnn := by
  cases hg with
  | one hn hl => exact h.lone hn hl
  | two hn hl hn' hl' => exact (h.lone hn hl).lone hn' hl'

/-- The state behind a `|`. -/
structure Branched (x y : RexSt) : Prop where
  nodes : y.nodes = branch x.nodes (slotOf (x.gstack.getD 0) x.lastch) x.rxnn (link x.nodes (slotOf (x.gstack.getD 0) x.lastch))
  stack : y.gstack = x.gstack
  last : y.lastch = some x.nodes.length
  hole : y.rxnn = .opt2 x.nodes.length

theorem rexParseChoice_some {x y : RexSt} (hp : rexParseChoice x = some y) : Branched x y := by
  obtain ⟨p,r,ns,gs,lc,gnum⟩ := x
  cases lc <;> simp only [rexParseChoice, Option.bind_eq_bind, Option.bind_eq_some_iff] at hp <;>
    obtain ⟨opt1,hopt,hp⟩ := hp <;> cases hp <;> exact ⟨by rw [← link_of_getLink hopt]; rfl,rfl,rfl,rfl⟩

theorem Shape.parseChoice {x y : RexSt} (h : Shape x.nodes x.gstack x.lastch x.rxnn) (hp : rexParseChoice x = some y) :
    Shape y.nodes y.gstack y.lastch y.rxnn := by
  obtain ⟨hnodes,hstack,hlast,hhole⟩ := rexParseChoice_some hp
  rw [hnodes,hstack,hlast,hhole]
  exact h.choice

theorem rexBody_shape {junk : UInt8} {pat : List UInt8} {x y : RexSt} (h : Shape x.nodes x.gstack x.lastch x.rxnn)
    (hb : rexBody junk pat x = some (.again y)) : Shape y.nodes y.gstack y.lastch y.rxnn := by
  rcases rexBody_again hb with hg | rfl | hg | ⟨-,hg⟩
  · exact h.gains hg
  · exact h.groupS (x.gnum + 1)
  · exact h.groupE hg
  · exact h.parseChoice hg

theorem shape_start : Shape rexGroups none none (.next 0) := by
  refine ⟨rfl,rfl,rfl,rfl,by decide,by decide,?_,.top (by decide) (.first .hole)⟩
  rintro c ⟨⟩
  exact nofun

theorem rexInit_invariant {junk : UInt8} {pat : List UInt8} {a : Bool} {I : RexSt → Prop}
    (hagain : ∀ x y, I x → rexBody junk pat x = some (.again y) → I y) (hstart : I ⟨0,.next 0,rexGroups,none,none,0⟩)
    (h : rexInit junk pat = some (.ok (ns,a))) :
    ∃ x, I x ∧ x.gstack = none ∧ finalizeChoices (setLink x.nodes (some 1) x.rxnn) 0 1 x.lastch = some ns := by
  simp only [rexInit, Option.bind_eq_bind, Option.bind_eq_some_iff] at h
  obtain ⟨r,hr,h⟩ := h
  cases r with
  | error e => cases h
  | ok ns' =>
    simp only [Option.bind_eq_some_iff] at h
    obtain ⟨a',-,h⟩ := h
    cases h
    refine loop_partial (Q := fun r => ∀ ns, r = .ok ns → ∃ x, I x ∧ x.gstack = none ∧
      finalizeChoices (setLink x.nodes (some 1) x.rxnn) 0 1 x.lastch = some ns) hagain ?_ hstart hr ns rfl
    rintro x r hx hb ns rfl
    by_cases hp : x.p = pat.length
    · rw [rexBody,if_pos hp] at hb
      split at hb
      · cases hb
      · rename_i hg
        simp only [Option.bind_eq_bind, Option.bind_eq_some_iff] at hb
        obtain ⟨ns',hf,hb⟩ := hb
        cases hb
        exact ⟨x,hx,Option.not_isSome_iff_eq_none.1 hg,hf⟩
    · obtain ⟨c,s,hat,-⟩ := rexBody_goOn hp hb
      rw [rexBody_cons hat] at hb
      obtain ⟨z,-,hb⟩ := Option.bind_eq_some_iff.1 hb
      cases z <;> cases hb

theorem rexInit_compiled {junk : UInt8} {pat : List UInt8} {a : Bool} (h : rexInit junk pat = some (.ok (ns,a))) : Compiled ns := by
  obtain ⟨x,hx,hg,hf⟩ := rexInit_invariant (fun x y hx hb => rexBody_shape hx hb) shape_start h
  rw [hg] at hx
  exact hx.compiled hf

theorem link_next (hn : ns[i]? = some n) : link ns (.next i) = n.next := by
  rw [link,show (Loc.next i).idx = i from rfl,hn]
  rfl

theorem Compiled.group (h : Compiled ns) : ∃ rgs rge, Group ns 0 1 rgs rge ∧ rgs.next = link ns (.next 0) ∧ rge.next = none ∧
    rgs.repmin = 1 ∧ rgs.repmax = 1 ∧ rgs.num = 0 := by
  obtain ⟨rgs,hs,hcs⟩ := node_of_core h.start
  obtain ⟨rge,he,hce⟩ := node_of_core h.stop
  have hlast := h.last
  rw [link_next he] at hlast
  simp only [RexNode.core, RexNode.mk.injEq, true_and] at hcs hce
  obtain ⟨h1,h2,h3,-,-,h4,h5⟩ := hcs
  obtain ⟨h1',h2',h3',-,-,h4',h5'⟩ := hce
  refine ⟨rgs,rge,⟨hs,he,h1,h1',h5,h5',h4'.trans h4.symm,h2'.trans h2.symm,h3'.trans h3.symm⟩,?_,hlast,h2,h3,h4⟩
  exact (link_next hs).symm

end Catlib.Rex
