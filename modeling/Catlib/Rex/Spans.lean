import Catlib.Rex.Compiled
import Catlib.Rex.Memory

/-! # The lists that a release goes over

A release follows the links from the start of a list up to a node or a null pointer. Of every list of the table
it is known which nodes it meets: the nodes between two indices, each of them once. The parser keeps this for the
closed lists and for those of the open groups, as long as no alternative in front of a `|` is empty.
-/
namespace Catlib.Rex

variable {ns ns' : List RexNode} {n : RexNode} {b : Bool} {l r s : Loc} {o : Option Loc} {i j g k c d lo lo' hi hi' f num : ℕ}
  {e gs lc lc' : Option ℕ}

/-! ## Marks -/

/-- What a release reads of a node besides its links. -/
def markOf (ns : List RexNode) (i : ℕ) : Option (RexType × Option ℕ × ℕ) := (ns[i]?).map fun n => (n.type,n.other,n.num)

theorem markOf_core : markOf ns i = (coreOf ns i).map fun n => (n.type,n.other,n.num) := by
  rw [markOf,coreOf]
  cases ns[i]? <;> rfl

theorem markOf_congr (h : coreOf ns' i = coreOf ns i) : markOf ns' i = markOf ns i := by
  rw [markOf_core,markOf_core,h]

theorem typeOf_mark : typeOf ns i = (markOf ns i).map (·.1) := by
  rw [typeOf,markOf]
  cases ns[i]? <;> rfl

theorem typeOf_of_mark (h : markOf ns' i = markOf ns i) : typeOf ns' i = typeOf ns i := by
  rw [typeOf_mark,typeOf_mark,h]

theorem type_of_mark {t : RexType} {e : Option ℕ} (h : markOf ns i = some (t,e,num)) : typeOf ns i = some t := by
  rw [typeOf_mark,h]
  rfl

/-! ## Spans -/

/-- A release that starts at the link and stops at `e` meets the nodes between `lo` and `hi`, each of them once,
and behind them the link `r` if there is one. A loose list may end at a null pointer as well. -/
inductive Span (ns : List RexNode) : Bool → Option ℕ → ℕ → ℕ → Option Loc → Loc → Prop
  | hole {b : Bool} {e : Option ℕ} {lo hi : ℕ} {l : Loc} (hhi : hi = lo + 1) : Span ns b e lo hi (some l) l
  | done {b : Bool} {e : Option ℕ} {lo hi : ℕ} {l : Loc} (hhi : hi = lo + 1) (hl : link ns l = e) : Span ns b e lo hi none l
  | null {e : Option ℕ} {lo hi : ℕ} {l : Loc} (hhi : hi = lo + 1) (hl : link ns l = none) : Span ns true e lo hi none l
  | lone {b : Bool} {e : Option ℕ} {lo hi : ℕ} {o : Option Loc} {l : Loc} {t : RexType} (hl : link ns l = some (lo + 1))
      (ht : typeOf ns (lo + 1) = some t) (hleaf : t ≠ .choice ∧ t ≠ .groupS) (h : Span ns b e (lo + 1) hi o (.next (lo + 1))) :
      Span ns b e lo hi o l
  | choice {b : Bool} {e : Option ℕ} {lo hi c : ℕ} {o : Option Loc} {l : Loc} (hl : link ns l = some c)
      (ht : typeOf ns c = some .choice) (h1 : Span ns b e lo c none (.opt1 c)) (h2 : Span ns b e c hi o (.opt2 c)) :
      Span ns b e lo hi o l
  | group {b : Bool} {e : Option ℕ} {lo hi k num : ℕ} {o : Option Loc} {l : Loc} (hl : link ns l = some (lo + 1))
      (hs : markOf ns (lo + 1) = some (.groupS,some k,num + 1)) (he : typeOf ns k = some .groupE)
      (hb : Span ns false (some k) (lo + 1) k none (.next (lo + 1))) (h : Span ns b e k hi o (.next k)) : Span ns b e lo hi o l

theorem Span.lt (h : Span ns b e lo hi o l) : lo < hi := by
  induction h with
  | hole h => omega
  | done h => omega
  | null h => omega
  | lone _ _ _ _ ih => omega
  | choice _ _ _ _ ih1 ih2 => omega
  | group _ _ _ _ _ ihb ih => omega

theorem Span.hole_mem (h : Span ns b e lo hi (some r) l) : r = l ∨ lo < r.idx ∧ r.idx < hi := by
  generalize ho : some r = o at h
  induction h with
  | hole h =>
    cases ho
    exact Or.inl rfl
  | done => cases ho
  | null => cases ho
  | @lone b e lo hi o l t _ _ _ h ih =>
    have hlt := h.lt
    rcases ih ho with rfl | h
    · exact Or.inr ⟨show lo < lo + 1 by omega,hlt⟩
    · exact Or.inr (by omega)
  | @choice b e lo hi c o l _ _ h1 h2 _ ih =>
    have h1 := h1.lt
    have h2 := h2.lt
    rcases ih ho with rfl | h
    · exact Or.inr ⟨h1,h2⟩
    · exact Or.inr (by omega)
  | @group b e lo hi k num o l _ _ _ hb h _ ih =>
    have hb := hb.lt
    have h := h.lt
    rcases ih ho with rfl | h
    · exact Or.inr ⟨show lo < k by omega,h⟩
    · exact Or.inr (by omega)

theorem Span.ne_hole (h : Span ns b e lo hi o l) (hs : s.idx ≤ lo ∨ hi ≤ s.idx) (hne : s ≠ l) : some s ≠ o := by
  rintro rfl
  rcases h.hole_mem with rfl | h
  · exact hne rfl
  · omega

theorem Span.move (h : Span ns b e lo hi o l) (hmark : ∀ i, lo < i → i < hi → markOf ns' i = markOf ns i)
    (hlink : ∀ l : Loc, lo < l.idx → l.idx < hi → some l ≠ o → link ns' l = link ns l) (hout : l.idx ≤ lo ∨ hi ≤ l.idx)
    (hs : some l = o → s = l) (hl : some l ≠ o → link ns' s = link ns l) : Span ns' b e lo hi o s := by
  induction h generalizing s with
  | hole h =>
    rw [hs rfl]
    exact .hole h
  | done h h' => exact .done h ((hl (by rintro ⟨⟩)).trans h')
  | null h h' => exact .null h ((hl (by rintro ⟨⟩)).trans h')
  | @lone b e lo hi o l t h ht hleaf hr ih =>
    have hlt := hr.lt
    have hne : some l ≠ o := hr.ne_hole (by lia) (by rintro rfl; simp only [Loc.idx] at hout; lia)
    refine .lone ((hl hne).trans h) ((typeOf_of_mark (hmark _ (by lia) hlt)).trans ht) hleaf ?_
    exact ih (fun i h1 => hmark i (by lia)) (fun l h1 => hlink l (by lia)) (Or.inl le_rfl) (fun _ => rfl)
      (hlink (.next (lo + 1)) (Nat.lt_succ_self _) hlt)
  | @choice b e lo hi c o l h ht h1 h2 ih1 ih2 =>
    have hlt1 := h1.lt
    have hlt2 := h2.lt
    have hne : some l ≠ o := h2.ne_hole (by lia) (by rintro rfl; simp only [Loc.idx] at hout; lia)
    refine .choice ((hl hne).trans h) ((typeOf_of_mark (hmark _ hlt1 hlt2)).trans ht) ?_ ?_
    · refine ih1 (fun i h1 h2 => hmark i h1 (by lia)) (fun l h3 h4 _ => ?_) (Or.inr le_rfl) (by rintro ⟨⟩) fun _ => ?_
      · exact hlink l h3 (by lia) (h2.ne_hole (by lia) (by rintro rfl; simp only [Loc.idx] at h4; lia))
      · exact hlink (.opt1 c) hlt1 hlt2 (h2.ne_hole (Or.inl le_rfl) (by rintro ⟨⟩))
    · exact ih2 (fun i h1 => hmark i (by lia)) (fun l h1 => hlink l (by lia)) (Or.inl le_rfl) (fun _ => rfl)
        (hlink (.opt2 c) hlt1 hlt2)
  | @group b e lo hi k num o l h hm he hb hr ihb ih =>
    have hlt1 := hb.lt
    have hlt2 := hr.lt
    have hne : some l ≠ o := hr.ne_hole (by lia) (by rintro rfl; simp only [Loc.idx] at hout; lia)
    have hnext : ∀ l : Loc, l.idx < k → some l ≠ o := fun l hl => hr.ne_hole (Or.inl hl.le) (by rintro rfl; exact lt_irrefl _ hl)
    refine .group ((hl hne).trans h) ((hmark _ (by lia) (by lia)).trans hm)
      ((typeOf_of_mark (hmark k (by lia) hlt2)).trans he) ?_ ?_
    · refine ihb (fun i h1 h2 => hmark i (by lia) (by lia)) (fun l h3 h4 _ => ?_) (Or.inl le_rfl) (by rintro ⟨⟩) fun _ => ?_
      · exact hlink l (by lia) (by lia) (hnext l h4)
      · exact hlink (.next (lo + 1)) (Nat.lt_succ_self _) (show lo + 1 < hi by lia) (hnext _ hlt1)
    · exact ih (fun i h1 => hmark i (by lia)) (fun l h1 => hlink l (by lia)) (Or.inl le_rfl) (fun _ => rfl)
        (hlink (.next k) (show lo < k by lia) hlt2)

theorem Span.frame (h : Span ns b e lo hi o l) (hmark : ∀ i, lo < i → i < hi → markOf ns' i = markOf ns i)
    (hlink : ∀ l : Loc, lo < l.idx → l.idx < hi → some l ≠ o → link ns' l = link ns l) (hout : l.idx ≤ lo ∨ hi ≤ l.idx)
    (hl : some l ≠ o → link ns' l = link ns l) : Span ns' b e lo hi o l := h.move hmark hlink hout (fun _ => rfl) hl

theorem Span.plug (h : Span ns b e lo hi' (some r) l) (hd : hi' = d + 1) (h' : Span ns b e d hi o r) : Span ns b e lo hi o l := by
  generalize ho : some r = o' at h
  induction h with
  | hole h =>
    cases ho
    obtain rfl : d = _ := Nat.succ.inj (hd.symm.trans h)
    exact h'
  | done => cases ho
  | null => cases ho
  | lone h ht hleaf _ ih => exact .lone h ht hleaf (ih hd h' ho)
  | choice h ht h1 _ _ ih => exact .choice h ht h1 (ih hd h' ho)
  | group h hs he hb _ _ ih => exact .group h hs he hb (ih hd h' ho)

theorem Span.seal (h : Span ns true e lo hi (some r) l) (hr : link ns r = none) : Span ns true e lo hi none l := by
  have hlt := h.lt
  obtain ⟨d,rfl⟩ : ∃ d, hi = d + 1 := ⟨hi - 1,by omega⟩
  exact h.plug rfl (.null rfl hr)

theorem Span.split (h : Span ns b e lo hi (some r) l) (hl : link ns l = some j) (hj : typeOf ns j = some .choice)
    (hr : ∀ i, link ns r = some i → typeOf ns i ≠ some .choice) (hf : loop (lastBody ns) f j = some c) :
    Span ns b e lo (c + 1) (some (.opt2 c)) l ∧ Span ns b e c hi (some r) (.opt2 c) := by
  induction f generalizing lo l j with
  | zero => cases hf
  | succ f ih =>
    obtain ⟨i,hi,hcase⟩ := last_step hf
    cases h with
    | hole => exact absurd hj (hr j hl)
    | lone h ht hleaf _ =>
      rw [hl] at h
      cases h
      rw [hj] at ht
      exact absurd (Option.some.inj ht).symm hleaf.1
    | choice h ht h1 h2 =>
      rw [hl] at h
      cases h
      rcases hcase with ⟨hty,hf⟩ | ⟨-,rfl⟩
      · obtain ⟨h3,h4⟩ := ih h2 hi hty hf
        exact ⟨.choice hl ht h1 h3,h4⟩
      · exact ⟨.choice hl ht h1 (.hole rfl),h2⟩
    | group h hs _ _ _ =>
      rw [hl] at h
      cases h
      rw [type_of_mark hs] at hj
      cases hj

/-! ## The end of a group -/

/-- Null pointers and the links behind choices get a value, the other links and the nodes between `lo` and `hi` stay. -/
structure Patch (ns ns' : List RexNode) (lo hi j : ℕ) : Prop where
  mark : ∀ i, lo < i → i < hi → markOf ns' i = markOf ns i
  value : ∀ l, link ns' l = link ns l ∨
    link ns' l = some j ∧ (link ns l = none ∨ ∃ c, l = .next c ∧ typeOf ns c = some .choice)

theorem Patch.mono (h : Patch ns ns' lo hi j) (hlo : lo ≤ lo') (hhi : hi' ≤ hi) : Patch ns ns' lo' hi' j :=
  ⟨fun i h1 h2 => h.mark i (by omega) (by omega),h.value⟩

theorem Patch.type (h : Patch ns ns' lo hi j) (h1 : lo < i) (h2 : i < hi) : typeOf ns' i = typeOf ns i := typeOf_of_mark (h.mark i h1 h2)

theorem Patch.keep (h : Patch ns ns' lo hi j) (hl : link ns l = some i) (hc : ∀ c, l = .next c → typeOf ns c ≠ some .choice) :
    link ns' l = some i := by
  rcases h.value l with h | ⟨-,h | ⟨c,rfl,ht⟩⟩
  · exact h.trans hl
  · rw [hl] at h
    cases h
  · exact absurd ht (hc c rfl)

theorem Patch.null (h : Patch ns ns' lo hi j) (hl : link ns l = none) : link ns' l = none ∨ link ns' l = some j := by
  rcases h.value l with h | ⟨h,-⟩
  · exact Or.inl (h.trans hl)
  · exact Or.inr h

theorem Patch.trans {ns1 : List RexNode} (h : Patch ns ns1 lo hi j) (h' : Patch ns1 ns' lo hi j)
    (ht : ∀ c, typeOf ns1 c = some .choice → typeOf ns c = some .choice) : Patch ns ns' lo hi j := by
  refine ⟨fun i h1 h2 => (h'.mark i h1 h2).trans (h.mark i h1 h2),fun l => ?_⟩
  rcases h'.value l with h1 | ⟨h1,h2⟩
  · rw [h1]
    exact h.value l
  · rcases h.value l with h3 | ⟨-,h4⟩
    · rw [← h3]
      exact Or.inr ⟨h1,h2.imp_right fun ⟨c,hl,hc⟩ => ⟨c,hl,ht c hc⟩⟩
    · exact Or.inr ⟨h1,h4⟩

theorem patch_setLink (hl : link ns l = none ∨ ∃ c, l = .next c ∧ typeOf ns c = some .choice) :
    Patch ns (setLink ns (some j) l) lo hi j := by
  refine ⟨fun i _ _ => markOf_congr (coreOf_setLink _),fun s => ?_⟩
  by_cases hs : s = l
  · subst hs
    by_cases hlt : s.idx < ns.length
    · exact Or.inr ⟨by rw [link_setLink _ hlt,if_pos rfl],hl⟩
    · left
      rw [link_of_ge (not_lt.1 hlt),link_of_ge (by rw [length_setLink]; exact not_lt.1 hlt)]
  · exact Or.inl (link_setLink_ne hs _)

theorem trav_null {t : Loc} (h : loop (travBody ns) f l = some t) : link ns t = none := by
  refine loop_partial (I := fun _ => True) (Q := fun t => link ns t = none) (fun _ _ _ _ => trivial) ?_ trivial h
  intro l t _ hb
  simp only [travBody, Option.bind_eq_bind, Option.bind_eq_some_iff] at hb
  obtain ⟨o,ho,hb⟩ := hb
  cases o with
  | none =>
    cases hb
    exact link_of_getLink ho
  | some j => cases hb

theorem finalizeBody_patch {t : ℕ} (hf : finalizeBody j (ns,c) = some (.again (ns',t))) : Patch ns ns' lo hi j := by
  simp only [finalizeBody, Option.bind_eq_bind, Option.bind_eq_some_iff] at hf
  obtain ⟨n,hn,hf⟩ := hf
  split at hf
  · rename_i ht
    simp only [Option.bind_eq_some_iff] at hf
    obtain ⟨u,hu,rc,-,t',-,hf⟩ := hf
    obtain ⟨rfl,rfl⟩ := Prod.mk.inj (Turn.again.inj (Option.some.inj hf))
    have htype : typeOf ns c = some .choice := by
      rw [typeOf,hn]
      exact congrArg some ht
    refine (patch_setLink (Or.inr ⟨c,rfl,htype⟩)).trans (patch_setLink (Or.inl (trav_null hu))) fun i hi => ?_
    rwa [typeOf_setLink] at hi
  · cases hf

theorem finalize_patch (hf : finalizeChoices ns g j lc = some ns') : Patch ns ns' lo hi j := by
  refine (finalize_invariant (I := fun ns' => Patch ns ns' lo hi j ∧ ∀ i, coreOf ns' i = coreOf ns i) ?_ ?_ hf).1
  · rintro ns1 c ns2 t ⟨hp,hcore⟩ hb
    exact ⟨hp.trans (finalizeBody_patch hb) fun i hi => (typeOf_congr (hcore i)).symm.trans hi,
      fun i => ((finalizeBody_opts hb).2.1 i).trans (hcore i)⟩
  · exact ⟨⟨fun _ _ _ => rfl,fun _ => Or.inl rfl⟩,fun _ => rfl⟩

theorem next_ne_choice {t : RexType} (ht : typeOf ns i = some t) (hne : t ≠ .choice) :
    ∀ c, Loc.next i = .next c → typeOf ns c ≠ some .choice := by
  rintro c ⟨⟩ h
  exact hne (Option.some.inj (ht.symm.trans h))

theorem Span.patch_tight (h : Span ns false (some k) lo hi none l) (hp : Patch ns ns' lo hi j)
    (hc : ∀ c, l = .next c → typeOf ns c ≠ some .choice) : Span ns' false (some k) lo hi none l := by
  generalize hb : false = b at h ⊢
  generalize he : some k = e at h ⊢
  generalize ho : none = o at h ⊢
  induction h generalizing k with
  | hole => cases ho
  | done h h' =>
    subst he
    exact .done h (hp.keep h' hc)
  | null => cases hb
  | @lone b e lo hi o l t h ht hleaf hs ih =>
    have hlt := hs.lt
    exact .lone (hp.keep h hc) ((hp.type (Nat.lt_succ_self _) hlt).trans ht) hleaf
      (ih (hp.mono (Nat.le_succ _) le_rfl) (next_ne_choice ht hleaf.1) hb he ho)
  | @choice b e lo hi c o l h ht h1 h2 ih1 ih2 =>
    have hlt1 := h1.lt
    have hlt2 := h2.lt
    exact .choice (hp.keep h hc) ((hp.type hlt1 hlt2).trans ht) (ih1 (hp.mono le_rfl hlt2.le) nofun hb he rfl)
      (ih2 (hp.mono hlt1.le le_rfl) nofun hb he ho)
  | @group b e lo hi k num o l h hs he' hb' hr ihb ih =>
    have hlt1 := hb'.lt
    have hlt2 := hr.lt
    refine .group (hp.keep h hc) ((hp.mark _ (by omega) (by omega)).trans hs) ((hp.type (by omega) hlt2).trans he') ?_ ?_
    · exact ihb (hp.mono (Nat.le_succ _) hlt2.le) (next_ne_choice (type_of_mark hs) nofun) rfl rfl rfl
    · exact ih (hp.mono (by omega) le_rfl) (next_ne_choice he' nofun) hb he ho

theorem Span.patch (h : Span ns true e lo hi o l) (hp : Patch ns ns' lo hi j) (he : e = none ∨ e = some j)
    (ho : ∀ r, o = some r → link ns r = none) (hc : ∀ c, l = .next c → typeOf ns c ≠ some .choice) :
    Span ns' true (some j) lo hi none l := by
  have hend : ∀ {lo hi : ℕ} {l : Loc}, hi = lo + 1 → link ns' l = none ∨ link ns' l = some j → Span ns' true (some j) lo hi none l := by
    rintro lo hi l hhi (hl | hl)
    · exact .null hhi hl
    · exact .done hhi hl
  generalize hb : true = b at h ⊢
  induction h with
  | hole h =>
    subst hb
    exact hend h (hp.null (ho _ rfl))
  | done h h' =>
    subst hb
    rcases he with rfl | rfl
    · exact hend h (hp.null h')
    · exact hend h (Or.inr (hp.keep h' hc))
  | null h h' => exact hend h (hp.null h')
  | @lone b e lo hi o l t h ht hleaf hs ih =>
    have hlt := hs.lt
    exact .lone (hp.keep h hc) ((hp.type (Nat.lt_succ_self _) hlt).trans ht) hleaf
      (ih (hp.mono (Nat.le_succ _) le_rfl) he ho (next_ne_choice ht hleaf.1) hb)
  | @choice b e lo hi c o l h ht h1 h2 ih1 ih2 =>
    have hlt1 := h1.lt
    have hlt2 := h2.lt
    exact .choice (hp.keep h hc) ((hp.type hlt1 hlt2).trans ht) (ih1 (hp.mono le_rfl hlt2.le) he nofun nofun hb)
      (ih2 (hp.mono hlt1.le le_rfl) he ho nofun hb)
  | @group b e lo hi k num o l h hs he' hb' hr _ ih =>
    have hlt1 := hb'.lt
    have hlt2 := hr.lt
    refine .group (hp.keep h hc) ((hp.mark _ (by omega) (by omega)).trans hs) ((hp.type (by omega) hlt2).trans he') ?_ ?_
    · exact hb'.patch_tight (hp.mono (Nat.le_succ _) hlt2.le) (next_ne_choice (type_of_mark hs) nofun)
    · exact ih (hp.mono (by omega) le_rfl) he ho (next_ne_choice he' nofun) hb

theorem Span.tighten (h : Span ns true (some k) lo hi none l) (hk : hi ≤ k) (hl : Leads ns false c d l k) :
    Span ns false (some k) lo hi none l := by
  generalize hb : true = b at h
  generalize ho : none = o at h ⊢
  generalize he : some k = e at h ⊢
  induction h with
  | hole => cases ho
  | done h h' => exact .done h h'
  | @null e lo hi l h h' =>
    cases hl with
    | done h | lone h | choice h | group h =>
      rw [h] at h'
      cases h'
  | @lone b e lo hi o l t h ht hleaf hs ih =>
    have hlt := hs.lt
    cases hl with
    | done h' =>
      have := Option.some.inj (h.symm.trans h')
      omega
    | lone h' _ _ _ hr =>
      obtain rfl := Option.some.inj (h.symm.trans h')
      exact .lone h ht hleaf (ih hk hr hb ho he)
    | choice h' _ ht' =>
      obtain rfl := Option.some.inj (h.symm.trans h')
      exact absurd (Option.some.inj (ht.symm.trans ht')) hleaf.1
    | group h' _ hg =>
      obtain rfl := Option.some.inj (h.symm.trans h')
      exact absurd (Option.some.inj (ht.symm.trans hg.type)) hleaf.2
  | @choice b e lo hi c o l h ht h1 h2 ih1 ih2 =>
    have hlt1 := h1.lt
    have hlt2 := h2.lt
    cases hl with
    | done h' =>
      have := Option.some.inj (h.symm.trans h')
      omega
    | lone h' _ hn hlone _ =>
      obtain rfl := Option.some.inj (h.symm.trans h')
      rw [typeOf_core,hn] at ht
      exact absurd (Option.some.inj ht) hlone.ne_choice
    | choice h' _ _ _ hr1 hr2 =>
      obtain rfl := Option.some.inj (h.symm.trans h')
      exact .choice h ht (ih1 (hlt2.le.trans hk) hr1 hb rfl he) (ih2 hk hr2 hb ho he)
    | group h' _ hg =>
      obtain rfl := Option.some.inj (h.symm.trans h')
      cases ht.symm.trans hg.type
  | @group b e lo hi k' num o l h hs he' hb' hr _ ih =>
    have hlt1 := hb'.lt
    have hlt2 := hr.lt
    have ht := type_of_mark hs
    cases hl with
    | done h' =>
      have := Option.some.inj (h.symm.trans h')
      omega
    | lone h' _ hn hlone _ =>
      obtain rfl := Option.some.inj (h.symm.trans h')
      rw [typeOf_core,hn] at ht
      rcases hlone with ⟨hlone,-⟩ | hlone | hlone | hlone <;> exact absurd ((congrArg some hlone).symm.trans ht) nofun
    | choice h' _ ht' =>
      obtain rfl := Option.some.inj (h.symm.trans h')
      cases ht.symm.trans ht'
    | @group _ _ _ _ k'' _ _ h' _ hg _ hr' =>
      obtain rfl := Option.some.inj (h.symm.trans h')
      obtain ⟨rgs,rge,hg⟩ := hg
      rw [markOf,hg.start] at hs
      obtain rfl : k' = k'' := by
        have := congrArg (fun m => m.2.1) (Option.some.inj hs)
        exact (Option.some.inj (hg.forth.symm.trans this)).symm
      exact .group h (by rw [markOf,hg.start]; exact hs) he' hb' (ih hk hr' hb ho he)

/-! ## Open groups -/

/-- Where a release of the list of an open group stops. -/
def stopOf : Option ℕ → Option ℕ
  | none => some 1
  | some _ => none

/-- Of each group that is open the list before it leads to its start. -/
inductive Around (ns : List RexNode) : Option ℕ → Prop
  | top : Around ns none
  | group {g num : ℕ} {gs : Option ℕ} {r : Loc} (hm : markOf ns g = some (.groupS,gs,num + 1)) (hl : link ns r = some g)
      (hs : Span ns true (stopOf gs) (gs.getD 1) g (some r) (.next (gs.getD 0))) (h : Around ns gs) : Around ns (some g)

theorem head_le (gs : Option ℕ) : gs.getD 0 ≤ gs.getD 1 := by
  cases gs with
  | none => exact Nat.zero_le _
  | some g => exact le_rfl

theorem Around.one_le (h : Around ns gs) : 1 ≤ gs.getD 1 := by
  induction h with
  | top => exact le_rfl
  | group _ _ hs _ ih => exact ih.trans hs.lt.le

theorem Around.frame {m : ℕ} (h : Around ns gs) (hg : ∀ g, gs = some g → g ≤ m) (hmark : ∀ i, i ≤ m → markOf ns' i = markOf ns i)
    (hlink : ∀ l : Loc, l.idx < m → link ns' l = link ns l) : Around ns' gs := by
  induction h with
  | top => exact .top
  | @group g num gs r hm hl hs h ih =>
    have hgm := hg g rfl
    have hlt := hs.lt
    have hhead := head_le gs
    have hr : r.idx < g := by
      rcases hs.hole_mem with rfl | h
      · exact show gs.getD 0 < g by omega
      · exact h.2
    refine .group ((hmark g hgm).trans hm) ((hlink r (by omega)).trans hl) ?_ (ih ?_)
    · exact hs.frame (fun i _ hi => hmark i (by omega)) (fun l _ hl _ => hlink l (by omega)) (Or.inl hhead)
        fun _ => hlink _ (show gs.getD 0 < m by omega)
    · rintro g' rfl
      exact (show g' < g from hlt).le.trans hgm

/-- The list of the innermost open group leads over its last choice to the link `r` that waits, and to `hi`. -/
structure Spun (ns : List RexNode) (gs lc : Option ℕ) (r : Loc) (hi : ℕ) : Prop where
  around : Around ns gs
  lists : ∃ d, Span ns true (stopOf gs) (gs.getD 1) (d + 1) (some (slotOf (gs.getD 0) lc)) (.next (gs.getD 0)) ∧
    Span ns true (stopOf gs) d hi (some r) (slotOf (gs.getD 0) lc)

theorem Spun.whole (h : Spun ns gs lc r hi) : Span ns true (stopOf gs) (gs.getD 1) hi (some r) (.next (gs.getD 0)) := by
  obtain ⟨d,h1,h2⟩ := h.lists
  exact h1.plug rfl h2

theorem Spun.hole_ge (h : Spun ns (some g) lc r hi) : g ≤ r.idx := by
  rcases h.whole.hole_mem with rfl | h
  · exact le_rfl
  · exact h.1.le

theorem slot_le (h : Span ns b e (gs.getD 1) (d + 1) (some s) (.next (gs.getD 0))) : s.idx ≤ d := by
  have hlt := h.lt
  have hhead := head_le gs
  rcases h.hole_mem with rfl | h
  · exact show gs.getD 0 ≤ d by omega
  · omega

theorem Spun.frame (h : Spun ns gs lc r hi) (hmark : ∀ i, i < hi → markOf ns' i = markOf ns i)
    (hlink : ∀ l : Loc, l.idx < hi → l ≠ r → link ns' l = link ns l) : Spun ns' gs lc r hi := by
  have hhead := head_le gs
  have hwhole := h.whole
  obtain ⟨ha,d,h1,h2⟩ := h
  have hlt1 := h1.lt
  have hlt2 := h2.lt
  have hs := slot_le h1
  have hne : ∀ l : Loc, l.idx ≤ d → some l ≠ some (slotOf (gs.getD 0) lc) → l ≠ r := by
    rintro l hl hne rfl
    rcases h2.hole_mem with rfl | h
    · exact hne rfl
    · omega
  refine ⟨?_,d,?_,?_⟩
  · cases gs with
    | none => exact .top
    | some g =>
      have hg : g < hi := hwhole.lt
      refine ha.frame (m := g) ?_ (fun i hi => hmark i (by omega)) fun l hl => hlink l (by omega) ?_
      · rintro _ ⟨⟩
        exact le_rfl
      · rintro rfl
        rcases hwhole.hole_mem with rfl | h
        · exact lt_irrefl _ hl
        · exact absurd hl (not_lt.2 h.1.le)
  · refine h1.frame (fun i _ hi => hmark i (by omega)) (fun l _ hl hn => hlink l (by omega) (hne l (by omega) hn)) (Or.inl hhead) ?_
    exact hlink (.next (gs.getD 0)) (show gs.getD 0 < hi by omega) ∘ hne (.next (gs.getD 0)) (show gs.getD 0 ≤ d by omega)
  · exact h2.frame (fun i _ hi => hmark i hi) (fun l _ hl hn => hlink l hl fun he => hn (congrArg some he)) (Or.inl hs)
      fun hn => hlink _ (by omega) fun he => hn (congrArg some he)

/-! ## The steps of the parser -/

theorem markOf_grow : markOf (grow ns r n) i = if i = ns.length then some (n.type,n.other,n.num) else markOf ns i := by
  rw [markOf_core,coreOf_grow,markOf_core]
  split <;> rfl

theorem Spun.grow (h : Spun ns gs lc r ns.length) (hr : r.idx < ns.length) (hn : Blank n) : Spun (grow ns r n) gs lc r ns.length := by
  refine h.frame (fun i hi => ?_) fun l _ hne => ?_
  · rw [markOf_grow,if_neg (by omega)]
  · rw [link_grow hr hn,if_neg hne]

theorem Spun.lone (h : Spun ns gs lc r ns.length) (hr : r.idx < ns.length) (hn : Blank n) (hleaf : n.type ≠ .choice ∧ n.type ≠ .groupS) :
    Spun (Rex.grow ns r n) gs lc (.next ns.length) (ns.length + 1) := by
  obtain ⟨ha,d,h1,h2⟩ := h.grow hr hn
  have hlt := h2.lt
  obtain ⟨m,hm⟩ : ∃ m, ns.length = m + 1 := ⟨ns.length - 1,by omega⟩
  refine ⟨ha,d,h1,h2.plug hm (.lone (t := n.type) ?_ ?_ hleaf ?_)⟩
  · rw [link_grow hr hn,if_pos rfl,hm]
  · rw [typeOf_grow,if_pos hm.symm]
  · rw [← hm]
    exact .hole rfl

theorem Spun.groupS (h : Spun ns gs lc r ns.length) (hr : r.idx < ns.length) (num : ℕ) :
    Spun (Rex.grow ns r { type := .groupS, num := num + 1, other := gs }) (some ns.length) none (.next ns.length) (ns.length + 1) := by
  have hn : Blank { type := .groupS, num := num + 1, other := gs } := ⟨rfl,rfl,rfl⟩
  have hg := h.grow hr hn
  have hm : markOf (Rex.grow ns r { type := .groupS, num := num + 1, other := gs }) ns.length = some (.groupS,gs,num + 1) := by
    rw [markOf_grow,if_pos rfl]
  refine ⟨.group hm ?_ hg.whole hg.around,ns.length,.hole rfl,.hole rfl⟩
  rw [link_grow hr hn,if_pos rfl]

theorem Spun.choice (h : Spun ns gs lc r ns.length) (hr : r.idx < ns.length) (hn : link ns r = none) (hne : r ≠ slotOf (gs.getD 0) lc) :
    Spun (branch ns (slotOf (gs.getD 0) lc) r (link ns (slotOf (gs.getD 0) lc))) gs (some ns.length) (.opt2 ns.length) (ns.length + 1) := by
  have hhead := head_le gs
  have hwhole := h.whole
  obtain ⟨ha,d,h1,h2⟩ := h
  have hlt1 := h1.lt
  have hlt2 := h2.lt
  have hs := slot_le h1
  have hge : ∀ g, gs = some g → g ≤ (slotOf (gs.getD 0) lc).idx := by
    rintro g rfl
    rcases h1.hole_mem with h | h
    · rw [h]
      exact le_rfl
    · exact h.1.le
  have hrd := h2.hole_mem.resolve_left hne
  have hlink := link_branch (s := slotOf (gs.getD 0) lc) (by omega) hr hn
  have hmark : ∀ i, i < ns.length → markOf (branch ns (slotOf (gs.getD 0) lc) r (link ns (slotOf (gs.getD 0) lc))) i = markOf ns i := by
    intro i hi
    exact markOf_congr (by rw [coreOf_branch,if_neg (by omega)])
  have htype : typeOf (branch ns (slotOf (gs.getD 0) lc) r (link ns (slotOf (gs.getD 0) lc))) ns.length = some .choice := by
    rw [typeOf_branch,if_pos rfl]
  generalize slotOf (gs.getD 0) lc = s at *
  generalize branch ns s r (link ns s) = ns' at *
  have hold : ∀ l : Loc, l.idx < ns.length → l ≠ s → link ns' l = link ns l := by
    intro l hl hls
    rw [hlink,if_neg (show l ≠ .opt1 ns.length by rintro rfl; exact lt_irrefl _ hl),if_neg hls]
    split
    · rename_i he
      rw [he,hn]
    · rfl
  have hnew : link ns' s = some ns.length := by
    rw [hlink,if_neg (by rintro rfl; exact absurd hs (by simp only [Loc.idx]; omega)),if_neg hne.symm,if_pos rfl]
  have hopt : link ns' (.opt1 ns.length) = link ns s := by rw [hlink,if_pos rfl]
  -- the old list from the slot on is the first alternative
  have halt : Span ns' true (stopOf gs) d ns.length none (.opt1 ns.length) := by
    refine Span.move (h2.seal hn) (fun i _ => hmark i) (fun l h1 h2 _ => hold l h2 ?_) (Or.inl hs) (by rintro ⟨⟩) fun _ => hopt
    rintro rfl
    omega
  refine ⟨?_,ns.length,?_,.hole rfl⟩
  · cases gs with
    | none => exact .top
    | some g =>
      refine ha.frame (m := g) ?_ (fun i hi => hmark i ?_) fun l hl => hold l ?_ ?_
      · rintro _ ⟨⟩
        exact le_rfl
      · have : g < d + 1 := hlt1
        omega
      · have : g < d + 1 := hlt1
        omega
      · rintro rfl
        exact absurd hl (not_lt.2 (hge g rfl))
  · have hkeep : ∀ l : Loc, gs.getD 1 < l.idx → l.idx < d + 1 → some l ≠ some s → link ns' l = link ns l :=
      fun l _ hl hls => hold l (by omega) fun he => hls (congrArg some he)
    refine (h1.frame (fun i _ hi => hmark i (by omega)) hkeep (Or.inl hhead) fun hls => ?_).plug rfl (.choice hnew htype halt (.hole rfl))
    exact hold (.next (gs.getD 0)) (show gs.getD 0 < ns.length by omega) fun he => hls (congrArg some he)

theorem lists_last (h : Span ns true (stopOf gs) (gs.getD 1) hi (some r) (.next (gs.getD 0))) (hr : link ns r = none)
    (hf : lastChoice ns gs = some lc) :
    ∃ d, Span ns true (stopOf gs) (gs.getD 1) (d + 1) (some (slotOf (gs.getD 0) lc)) (.next (gs.getD 0)) ∧
      Span ns true (stopOf gs) d hi (some r) (slotOf (gs.getD 0) lc) := by
  cases gs with
  | none =>
    cases hf
    exact ⟨1,.hole rfl,h⟩
  | some g =>
    simp only [lastChoice, Option.bind_eq_bind, Option.bind_eq_some_iff] at hf
    obtain ⟨n,hn,j,hj,m,hm,hf⟩ := hf
    split at hf
    · rename_i ht
      obtain ⟨c,hc,rfl⟩ := Option.map_eq_some_iff.1 hf
      refine ⟨c,h.split (j := j) ?_ ?_ ?_ hc⟩
      · exact (link_next hn).trans hj
      · rw [typeOf,hm]
        exact congrArg some ht
      · intro i hi
        rw [hr] at hi
        cases hi
    · cases hf
      exact ⟨g,.hole rfl,h⟩

theorem Spun.groupE {rg : RexNode} (hs : Shape ns (some g) lc r) (h : Spun ns (some g) lc r ns.length) (hrg : ns[g]? = some rg)
    (hf : finalizeChoices (endGroup ns r g rg.num) g ns.length lc = some ns') (hlc : lastChoice ns' rg.other = some lc') :
    Spun ns' rg.other lc' (.next ns.length) (ns.length + 1) := by
  obtain ⟨hleads,-,hcore,hlink⟩ := hs.ends hrg hf
  have hlink2 := link_endGroup (g := g) hs.hole_lt rg.num
  have hold2 : ∀ i, i ≠ g → i ≠ ns.length → coreOf (endGroup ns r g rg.num) i = coreOf ns i := fun i h1 h2 =>
    (coreOf_endGroup h1 rg.num).trans (if_neg h2)
  have hgr := h.hole_ge
  have hwhole := h.whole
  have hlt : g < ns.length := hwhole.lt
  have hend : coreOf ns' ns.length = some { type := .groupE, num := rg.num, other := some g } :=
    (hcore _).trans ((coreOf_endGroup (by omega) rg.num).trans (if_pos rfl))
  have hstart : coreOf ns' g = some { rg.core with other := some ns.length } :=
    (hcore g).trans (coreOf_endGroup_start (by rw [coreOf,hrg]; rfl) hlt rg.num)
  cases h.around with
  | @group _ num gs r' hm hl hsp ha =>
    have hrgm : some (rg.type,rg.other,rg.num) = some (RexType.groupS,gs,num + 1) := by
      rw [← hm,markOf,hrg]
      rfl
    obtain ⟨htype,rfl,hnum⟩ : rg.type = .groupS ∧ rg.other = gs ∧ rg.num = num + 1 := by simpa using hrgm
    -- the list of the group gets its end
    have hpatch : Patch ns ns' g ns.length ns.length := by
      refine Patch.trans ⟨fun i h1 h2 => markOf_congr (hold2 i (by omega) (by omega)),fun l => ?_⟩ (finalize_patch hf) fun c hc => ?_
      · rw [hlink2]
        split
        · rename_i he
          exact Or.inr ⟨rfl,Or.inl (he ▸ hs.hole)⟩
        · exact Or.inl rfl
      · have hc' : typeOf ns' c = some .choice := (typeOf_congr (hcore c)).trans hc
        by_cases hcg : c = g
        · rw [hcg,typeOf_core,hstart] at hc'
          exact absurd ((Option.some.inj hc').symm.trans htype) (by rintro ⟨⟩)
        · by_cases hcl : c = ns.length
          · rw [hcl,typeOf_core,hend] at hc'
            cases hc'
          · rwa [typeOf_congr (hold2 c hcg hcl)] at hc
    have hbody : Span ns' false (some ns.length) g ns.length none (.next g) := by
      refine (hwhole.patch hpatch (Or.inl rfl) ?_ (next_ne_choice (type_of_mark hm) (by rintro ⟨⟩))).tighten le_rfl hleads
      rintro _ ⟨⟩
      exact hs.hole
    -- the list around it goes on behind it
    have hout : ∀ l : Loc, l.idx < g → link ns' l = link ns l := by
      intro l hl
      rw [hlink l (Or.inl hl.le),hlink2,if_neg (by rintro rfl; omega)]
    have hmark : ∀ i, i < g → markOf ns' i = markOf ns i := fun i hi => markOf_congr ((hcore i).trans (hold2 i (by omega) (by omega)))
    have hbase := hsp.lt
    have hhead := head_le rg.other
    obtain ⟨m,rfl⟩ : ∃ m, g = m + 1 := ⟨g - 1,by omega⟩
    have hr' : r'.idx < m + 1 := by
      rcases hsp.hole_mem with rfl | h
      · exact show rg.other.getD 0 < m + 1 by omega
      · exact h.2
    have hsp' : Span ns' true (stopOf rg.other) (rg.other.getD 1) (m + 1) (some r') (.next (rg.other.getD 0)) :=
      hsp.frame (fun i _ hi => hmark i hi) (fun l _ hl _ => hout l hl) (Or.inl hhead) fun _ =>
        hout _ (show rg.other.getD 0 < m + 1 by omega)
    have hall : Span ns' true (stopOf rg.other) (rg.other.getD 1) (ns.length + 1) (some (.next ns.length)) (.next (rg.other.getD 0)) := by
      have hm' : markOf ns' (m + 1) = some (.groupS,some ns.length,num + 1) := by
        rw [markOf_core,hstart,← hnum,← htype]
        rfl
      refine hsp'.plug rfl (.group ((hout r' hr').trans hl) hm' ?_ hbody (.hole rfl))
      rw [typeOf_core,hend]
      rfl
    refine ⟨ha.frame (m := m) ?_ (fun i hi => hmark i (by omega)) fun l hl => hout l (by omega),lists_last hall ?_ hlc⟩
    · intro g' hg'
      rw [hg'] at hbase
      exact Nat.lt_succ_iff.1 hbase
    · rw [hlink _ (Or.inr le_rfl),hlink2,if_neg hs.new_ne,link_of_ge le_rfl]

end Catlib.Rex
