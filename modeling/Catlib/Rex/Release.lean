import Catlib.Rex.Spans

/-! # What a release frees

The steps of the release as rules, the nodes that a list of known nodes gives back, and the two ways in which a
release goes wrong: a node that nothing points at is never freed, and an open group that lies in another is
never left.
-/
namespace Catlib.Rex

variable {ns ns' : List RexNode} {n : RexNode} {b : Bool} {l r : Loc} {o : Option Loc} {i g k c lo hi f f' num : ℕ}
  {e gs lc node stop other : Option ℕ} {fr fr1 fr2 ys : List ℕ} {P Q : ℕ → Prop}

/-! ## The rules -/

/-- A call of `rex_free_help`, with the calls in it as a relation. -/
inductive FreeStep (ns : List RexNode) (R : Option ℕ → Option ℕ → List ℕ → List ℕ → Prop) :
    Option ℕ → Option ℕ → List ℕ → List ℕ → Prop
  | null {stop : Option ℕ} {fr : List ℕ} : FreeStep ns R none stop fr fr
  | stop {i : ℕ} {fr : List ℕ} : FreeStep ns R (some i) (some i) fr fr
  | groupS {i num : ℕ} {other stop : Option ℕ} {fr fr1 fr2 : List ℕ} (hs : stop ≠ some i) (hi : i ∉ fr)
      (hm : markOf ns i = some (.groupS,other,num)) (hb : R (link ns (.next i)) other fr fr1) (h1 : i ∉ fr1)
      (h : R other stop fr1 fr2) (h2 : i ∉ fr2) : FreeStep ns R (some i) stop fr (if num > 0 then i :: fr2 else fr2)
  | choice {i : ℕ} {stop : Option ℕ} {fr fr1 fr2 : List ℕ} (hs : stop ≠ some i) (hi : i ∉ fr) (ht : typeOf ns i = some .choice)
      (hb : R (link ns (.opt1 i)) stop fr fr1) (h1 : i ∉ fr1) (h : R (link ns (.opt2 i)) stop fr1 fr2) (h2 : i ∉ fr2) :
      FreeStep ns R (some i) stop fr (i :: fr2)
  | lone {i : ℕ} {t : RexType} {stop : Option ℕ} {fr fr1 : List ℕ} (hs : stop ≠ some i) (hi : i ∉ fr) (ht : typeOf ns i = some t)
      (hleaf : t ≠ .choice ∧ t ≠ .groupS) (h : R (link ns (.next i)) stop fr fr1) (h1 : i ∉ fr1) :
      FreeStep ns R (some i) stop fr (i :: fr1)

theorem FreeStep.mono {R R' : Option ℕ → Option ℕ → List ℕ → List ℕ → Prop} (h : FreeStep ns R node stop fr ys)
    (hR : ∀ n e a b, R n e a b → R' n e a b) : FreeStep ns R' node stop fr ys := by
  cases h with
  | null => exact .null
  | stop => exact .stop
  | groupS hs hi hm hb h1 h h2 => exact .groupS hs hi hm (hR _ _ _ _ hb) h1 (hR _ _ _ _ h) h2
  | choice hs hi ht hb h1 h h2 => exact .choice hs hi ht (hR _ _ _ _ hb) h1 (hR _ _ _ _ h) h2
  | lone hs hi ht hleaf h h1 => exact .lone hs hi ht hleaf (hR _ _ _ _ h) h1

theorem rexFreeHelp_succ : rexFreeHelp ns (f + 1) node stop fr = some ys ↔
    FreeStep ns (fun n e a b => rexFreeHelp ns f n e a = some b) node stop fr ys := by
  constructor
  · intro h
    unfold rexFreeHelp at h
    cases node with
    | none =>
      cases h
      exact .null
    | some i =>
      dsimp only at h
      split at h
      · rename_i hs
        cases h
        rw [hs]
        exact .stop
      · rename_i hs
        split at h
        · cases h
        · rename_i hi
          simp only [Option.bind_eq_bind, Option.bind_eq_some_iff] at h
          obtain ⟨n,hn,h⟩ := h
          have hlink : ∀ l : Loc, l.idx = i → link ns l = n.link l := by
            intro l hl
            rw [link,hl,hn]
            rfl
          split at h
          · rename_i ht
            simp only [Option.bind_eq_some_iff] at h
            obtain ⟨fr1,hb,h⟩ := h
            split at h
            · cases h
            rename_i h1
            simp only [Option.bind_eq_some_iff] at h
            obtain ⟨fr2,h,hr⟩ := h
            split at hr
            · cases hr
            rename_i h2
            cases hr
            refine .groupS hs hi ?_ (by rw [hlink _ rfl]; exact hb) h1 h h2
            rw [markOf,hn,← ht]
            rfl
          · rename_i ht
            simp only [Option.bind_eq_some_iff] at h
            obtain ⟨fr1,hb,h⟩ := h
            split at h
            · cases h
            rename_i h1
            simp only [Option.bind_eq_some_iff] at h
            obtain ⟨fr2,h,hr⟩ := h
            split at hr
            · cases hr
            rename_i h2
            cases hr
            refine .choice hs hi ?_ (by rw [hlink _ rfl]; exact hb) h1 (by rw [hlink _ rfl]; exact h) h2
            rw [typeOf,hn,← ht]
            rfl
          · rename_i hg hc
            simp only [Option.bind_eq_some_iff] at h
            obtain ⟨fr1,h,hr⟩ := h
            split at hr
            · cases hr
            rename_i h1
            cases hr
            refine .lone (t := n.type) hs hi ?_ ⟨hc,hg⟩ (by rw [hlink _ rfl]; exact h) h1
            rw [typeOf,hn]
            rfl
  · intro h
    cases h with
    | null => rfl
    | stop => simp [rexFreeHelp]
    | @groupS i num other _ _ _ _ hs hi hm hb h1 h h2 =>
      rw [markOf] at hm
      obtain ⟨n,hn,hm⟩ := Option.map_eq_some_iff.1 hm
      obtain ⟨ht,ho,hnum⟩ : n.type = .groupS ∧ n.other = other ∧ n.num = num := by simpa using hm
      have hnext : n.next = link ns (.next i) := (link_next hn).symm
      simp only [rexFreeHelp, if_neg hs, if_neg hi, hn, ht, ho, hnum, hnext, hb, if_neg h1, h, if_neg h2, Option.bind_eq_bind,
        Option.bind_some]
      rfl
    | @choice i _ _ _ _ hs hi ht hb h1 h h2 =>
      obtain ⟨n,hn,ht,-,ho1,ho2,-⟩ := node_of_type ht
      simp only [rexFreeHelp, if_neg hs, if_neg hi, hn, ht, ho1, ho2, hb, if_neg h1, h, if_neg h2, Option.bind_eq_bind, Option.bind_some]
      rfl
    | @lone i t _ _ _ hs hi ht hleaf h h1 =>
      obtain ⟨n,hn,rfl,hnext,-⟩ := node_of_type ht
      simp only [rexFreeHelp, if_neg hs, if_neg hi, hn, Option.bind_eq_bind, Option.bind_some]
      split
      · rename_i ht
        exact absurd ht hleaf.2
      · rename_i ht
        exact absurd ht hleaf.1
      · simp only [hnext, h, if_neg h1, Option.bind_some]
        rfl

theorem rexFreeHelp_mono (hf : f ≤ f') (h : rexFreeHelp ns f node stop fr = some ys) : rexFreeHelp ns f' node stop fr = some ys := by
  induction f generalizing f' node stop fr ys with
  | zero => cases h
  | succ f ih =>
    obtain ⟨m,rfl⟩ : ∃ m, f' = m + 1 := ⟨f' - 1,by omega⟩
    exact rexFreeHelp_succ.2 ((rexFreeHelp_succ.1 h).mono fun n e a b h => ih (by omega) h)

/-- The call comes back, with what has been freed then. -/
def Frees (ns : List RexNode) (node stop : Option ℕ) (fr ys : List ℕ) : Prop := ∃ f, rexFreeHelp ns f node stop fr = some ys

theorem Frees.of_step (h : FreeStep ns (Frees ns) node stop fr ys) : Frees ns node stop fr ys := by
  suffices hs : ∃ f, FreeStep ns (fun n e a b => rexFreeHelp ns f n e a = some b) node stop fr ys by
    obtain ⟨f,hf⟩ := hs
    exact ⟨f + 1,rexFreeHelp_succ.2 hf⟩
  cases h with
  | null => exact ⟨0,.null⟩
  | stop => exact ⟨0,.stop⟩
  | groupS hs hi hm hb h1 h h2 =>
    obtain ⟨f,hf⟩ := hb
    obtain ⟨k,hk⟩ := h
    exact ⟨max f k,.groupS hs hi hm (rexFreeHelp_mono (Nat.le_max_left _ _) hf) h1 (rexFreeHelp_mono (Nat.le_max_right _ _) hk) h2⟩
  | choice hs hi ht hb h1 h h2 =>
    obtain ⟨f,hf⟩ := hb
    obtain ⟨k,hk⟩ := h
    exact ⟨max f k,.choice hs hi ht (rexFreeHelp_mono (Nat.le_max_left _ _) hf) h1 (rexFreeHelp_mono (Nat.le_max_right _ _) hk) h2⟩
  | lone hs hi ht hleaf h h1 =>
    obtain ⟨f,hf⟩ := h
    exact ⟨f,.lone hs hi ht hleaf hf h1⟩

/-! ## What a list gives back -/

/-- The release from a node on frees the nodes of a set, each of them once, when none of them has been freed before. -/
def Gives (ns : List RexNode) (stop node : Option ℕ) (P : ℕ → Prop) : Prop :=
  ∀ fr : List ℕ, (∀ i, P i → i ∉ fr) → ∃ ys, Frees ns node stop fr (ys ++ fr) ∧ ys.Nodup ∧ ∀ i, i ∈ ys ↔ P i

theorem Gives.congr (h : Gives ns stop node P) (hPQ : ∀ i, P i ↔ Q i) : Gives ns stop node Q := by
  obtain rfl : P = Q := funext fun i => propext (hPQ i)
  exact h

theorem gives_null (hP : ∀ i, ¬P i) : Gives ns stop none P :=
  fun _ _ => ⟨[],.of_step .null,List.nodup_nil,fun i => by simp [hP i]⟩

theorem gives_stop (hP : ∀ i, ¬P i) : Gives ns (some k) (some k) P :=
  fun _ _ => ⟨[],.of_step .stop,List.nodup_nil,fun i => by simp [hP i]⟩

theorem gives_end (hP : ∀ i, ¬P i) : Gives ns e e P := by
  cases e with
  | none => exact gives_null hP
  | some k => exact gives_stop hP

theorem Gives.lone {t : RexType} (h : Gives ns stop (link ns (.next i)) P) (hs : stop ≠ some i) (ht : typeOf ns i = some t)
    (hleaf : t ≠ .choice ∧ t ≠ .groupS) (hi : ¬P i) : Gives ns stop (some i) fun j => j = i ∨ P j := by
  intro fr hfr
  obtain ⟨ys,hys,hnd,hmem⟩ := h fr fun j hj => hfr j (Or.inr hj)
  have hiys : i ∉ ys := fun h => hi ((hmem i).1 h)
  refine ⟨i :: ys,.of_step (.lone hs (hfr i (Or.inl rfl)) ht hleaf hys ?_),List.nodup_cons.2 ⟨hiys,hnd⟩,fun j => ?_⟩
  · exact fun h => (List.mem_append.1 h).elim hiys (hfr i (Or.inl rfl))
  · rw [List.mem_cons,hmem]

theorem Gives.seq {node' stop' : Option ℕ} (h : Gives ns stop node P) (h' : Gives ns stop' node' Q) (hPQ : ∀ j, P j → ¬Q j)
    (hfr : ∀ j, P j ∨ Q j → j ∉ fr) : ∃ ys zs, Frees ns node stop fr (ys ++ fr) ∧ Frees ns node' stop' (ys ++ fr) (zs ++ (ys ++ fr)) ∧
      (∀ j, j ∈ ys ↔ P j) ∧ (zs ++ ys).Nodup ∧ ∀ j, j ∈ zs ++ ys ↔ P j ∨ Q j := by
  obtain ⟨ys,hys,hnd,hmem⟩ := h fr fun j hj => hfr j (Or.inl hj)
  obtain ⟨zs,hzs,hnd',hmem'⟩ := h' (ys ++ fr) fun j hj hin => by
    rcases List.mem_append.1 hin with hin | hin
    · exact hPQ j ((hmem j).1 hin) hj
    · exact hfr j (Or.inr hj) hin
  refine ⟨ys,zs,hys,hzs,hmem,?_,fun j => ?_⟩
  · exact List.nodup_append.2 ⟨hnd',hnd,fun a ha b hb hab => hPQ a ((hmem a).1 (hab ▸ hb)) ((hmem' a).1 ha)⟩
  · rw [List.mem_append,hmem,hmem',or_comm]

theorem Gives.choice (h1 : Gives ns stop (link ns (.opt1 i)) P) (h2 : Gives ns stop (link ns (.opt2 i)) Q) (hs : stop ≠ some i)
    (ht : typeOf ns i = some .choice) (hPQ : ∀ j, P j → ¬Q j) (hi : ¬P i ∧ ¬Q i) :
    Gives ns stop (some i) fun j => j = i ∨ P j ∨ Q j := by
  intro fr hfr
  obtain ⟨ys,zs,hys,hzs,hmem,hnd,hall⟩ := h1.seq h2 hPQ (show ∀ j, P j ∨ Q j → j ∉ fr from fun j hj => hfr j (Or.inr hj))
  have hifr := hfr i (Or.inl rfl)
  have hiall : i ∉ zs ++ ys := fun h => not_or.2 hi ((hall i).1 h)
  refine ⟨i :: (zs ++ ys),.of_step ?_,List.nodup_cons.2 ⟨hiall,hnd⟩,fun j => ?_⟩
  · rw [List.cons_append,List.append_assoc]
    refine .choice hs hifr ht hys ?_ hzs ?_
    · exact fun h => (List.mem_append.1 h).elim (fun h => hi.1 ((hmem i).1 h)) hifr
    · rw [← List.append_assoc]
      exact fun h => (List.mem_append.1 h).elim hiall hifr
  · rw [List.mem_cons,hall]

theorem Gives.groupS (h1 : Gives ns other (link ns (.next i)) P) (h2 : Gives ns stop other Q) (hs : stop ≠ some i)
    (hm : markOf ns i = some (.groupS,other,num + 1)) (hPQ : ∀ j, P j → ¬Q j) (hi : ¬P i ∧ ¬Q i) :
    Gives ns stop (some i) fun j => j = i ∨ P j ∨ Q j := by
  intro fr hfr
  obtain ⟨ys,zs,hys,hzs,hmem,hnd,hall⟩ := h1.seq h2 hPQ (show ∀ j, P j ∨ Q j → j ∉ fr from fun j hj => hfr j (Or.inr hj))
  have hifr := hfr i (Or.inl rfl)
  have hiall : i ∉ zs ++ ys := fun h => not_or.2 hi ((hall i).1 h)
  refine ⟨i :: (zs ++ ys),.of_step ?_,List.nodup_cons.2 ⟨hiall,hnd⟩,fun j => ?_⟩
  · rw [List.cons_append,List.append_assoc,show i :: (zs ++ (ys ++ fr)) = if num + 1 > 0 then i :: (zs ++ (ys ++ fr)) else zs ++ (ys ++ fr)
      from (if_pos (Nat.succ_pos num)).symm]
    refine .groupS hs hifr hm hys ?_ hzs ?_
    · exact fun h => (List.mem_append.1 h).elim (fun h => hi.1 ((hmem i).1 h)) hifr
    · rw [← List.append_assoc]
      exact fun h => (List.mem_append.1 h).elim hiall hifr
  · rw [List.mem_cons,hall]

theorem Span.gives (h : Span ns b e lo hi o l) (he : ∀ i, lo < i → i < hi → e ≠ some i) (hQ : ∀ i, Q i → i ≤ lo ∨ hi ≤ i)
    (ho : o = none → ∀ i, ¬Q i) (hr : ∀ r, o = some r → Gives ns e (link ns r) Q) :
    Gives ns e (link ns l) fun i => lo < i ∧ i < hi ∨ Q i := by
  induction h generalizing Q with
  | hole h => exact (hr _ rfl).congr fun i => ⟨Or.inr,fun h => h.resolve_left (by lia)⟩
  | done h h' =>
    rw [h']
    exact gives_end fun i hi => ho rfl i (hi.resolve_left (by lia))
  | null h h' =>
    rw [h']
    exact gives_null fun i hi => ho rfl i (hi.resolve_left (by lia))
  | @lone b e lo hi o l t h ht hleaf hs ih =>
    have hlt := hs.lt
    rw [h]
    refine (Gives.lone (ih (fun i h1 => he i (by lia)) (fun i hi => ?_) ho hr) (he _ (by lia) hlt) ht hleaf ?_).congr fun i => ?_
    · have := hQ i hi
      lia
    · rintro (h | h)
      · lia
      · have := hQ _ h
        lia
    · grind
  | @choice b e lo hi c o l h ht h1 h2 ih1 ih2 =>
    have hlt1 := h1.lt
    have hlt2 := h2.lt
    rw [h]
    have hg1 := ih1 (Q := fun _ => False) (fun i h1 h2 => he i h1 (by lia)) nofun (fun _ _ => id) nofun
    have hg2 := ih2 (Q := Q) (fun i h1 => he i (by lia)) (fun i hi => by have := hQ i hi; lia) ho hr
    refine (Gives.choice hg1 hg2 (he _ hlt1 hlt2) ht ?_ ?_).congr fun i => ?_
    · rintro j (hj | hj) (hj' | hj')
      · lia
      · have := hQ j hj'
        lia
      · exact hj.elim
      · exact hj.elim
    · refine ⟨fun h => h.elim (fun h => lt_irrefl _ h.2) id,?_⟩
      rintro (h | h)
      · lia
      · have := hQ _ h
        lia
    · grind
  | @group b e lo hi k num o l h hm he' hb hr' ihb ih =>
    have hlt1 := hb.lt
    have hlt2 := hr'.lt
    rw [h]
    have hg1 := ihb (Q := fun _ => False) (fun i h1 h2 => by rintro ⟨⟩; lia) nofun (fun _ _ => id) nofun
    have hg2 := ih (Q := Q) (fun i h1 => he i (by lia)) (fun i hi => by have := hQ i hi; lia) ho hr
    have hg3 := Gives.lone hg2 (he k (by lia) hlt2) he' ⟨nofun,nofun⟩ (by
      rintro (h | h)
      · lia
      · have := hQ _ h
        lia)
    refine (Gives.groupS hg1 hg3 (he _ (by lia) (by lia)) hm ?_ ?_).congr fun i => ?_
    · rintro j (hj | hj) (hj' | hj' | hj')
      · lia
      · lia
      · have := hQ j hj'
        lia
      all_goals exact hj.elim
    · refine ⟨fun h => h.elim (fun h => lt_irrefl _ h.1) id,?_⟩
      rintro (h | h | h)
      · lia
      · lia
      · have := hQ _ h
        lia
    · grind

/-! ## Tables that are released -/

/-- `rex_free` comes to an end and frees every node of the table but the first two, each of them once. -/
def Released (ns : List RexNode) : Prop := ∃ fuel freed, rexFree ns fuel = some freed ∧ freed.Perm (List.range' 2 (ns.length - 2))

theorem released_of_gives (h0 : markOf ns 0 = some (.groupS,some 1,0))
    (h : Gives ns (some 1) (link ns (.next 0)) fun i => 1 < i ∧ i < ns.length) : Released ns := by
  obtain ⟨ys,hys,hnd,hmem⟩ := h [] fun _ _ => List.not_mem_nil
  rw [List.append_nil] at hys
  have h0ys : 0 ∉ ys := fun h => absurd ((hmem 0).1 h).1 (by omega)
  have hstep : FreeStep ns (Frees ns) (some 0) (some 1) [] (if 0 > 0 then 0 :: ys else ys) :=
    .groupS (by simp) List.not_mem_nil h0 hys h0ys (.of_step .stop) h0ys
  obtain ⟨f,hf⟩ := Frees.of_step hstep
  refine ⟨f,ys,hf,(List.perm_ext_iff_of_nodup hnd List.nodup_range').2 fun i => ?_⟩
  rw [hmem,List.mem_range'_1]
  omega

theorem otherOf_mark : otherOf ns i = (markOf ns i).bind (·.2.1) := by
  rw [otherOf,markOf]
  cases ns[i]? <;> rfl

theorem other_of_mark {t : RexType} (h : markOf ns i = some (t,other,num)) : otherOf ns i = other := by
  rw [otherOf_mark,h]
  rfl

theorem Spun.released (h : Spun ns gs lc r ns.length) (hr : link ns r = none) (h0 : markOf ns 0 = some (.groupS,some 1,0))
    (hgs : ∀ g, gs = some g → otherOf ns g = none) : Released ns := by
  refine released_of_gives h0 ?_
  have hspan := h.whole.seal hr
  have hlt : gs.getD 1 < ns.length := hspan.lt
  cases gs with
  | none =>
    refine (hspan.gives (Q := fun _ => False) (fun i h1 _ => ?_) nofun (fun _ _ => id) nofun).congr fun i => or_iff_left id
    rintro ⟨⟩
    exact lt_irrefl _ h1
  | some g =>
    have hbody := hspan.gives (Q := fun _ => False) nofun nofun (fun _ _ => id) nofun
    cases h.around with
    | @group _ num gs r' hm hl hs _ =>
      obtain rfl : gs = none := (other_of_mark hm).symm.trans (hgs g rfl)
      have hg : 1 < g := hs.lt
      have hgroup : Gives ns (some 1) (some g) fun j => j = g ∨ (g < j ∧ j < ns.length ∨ False) ∨ False := by
        refine Gives.groupS hbody (gives_null fun _ => id) (fun he => ?_) hm (fun _ _ => id) ⟨fun h => ?_,id⟩
        · exact ne_of_gt hg (Option.some.inj he).symm
        · exact lt_irrefl _ (h.resolve_right id).1
      have hlt' : g < ns.length := hlt
      refine (hs.gives (Q := fun j => g ≤ j ∧ j < ns.length) (fun i h1 _ => ?_) (fun i hi => Or.inr hi.1) nofun ?_).congr fun i => ?_
      · rintro ⟨⟩
        exact lt_irrefl _ h1
      · rintro _ ⟨⟩
        rw [hl]
        exact hgroup.congr fun i => by grind
      · simp only [Option.getD_none]
        omega

/-! ## Tables that are not -/

theorem rexFreeHelp_mem (h : rexFreeHelp ns f node stop fr = some ys) (hi : i ∈ ys) :
    i ∈ fr ∨ ∃ f' stop' fr' ys', stop' ≠ some i ∧ rexFreeHelp ns f' (some i) stop' fr' = some ys' := by
  induction f generalizing node stop fr ys with
  | zero => cases h
  | succ f ih =>
    have hthis := h
    cases rexFreeHelp_succ.1 h with
    | null => exact Or.inl hi
    | stop => exact Or.inl hi
    | @groupS j num other _ _ fr1 fr2 hs _ _ hb _ hr _ =>
      by_cases hij : i = j
      · subst hij
        exact Or.inr ⟨_,_,_,_,hs,hthis⟩
      · have hi2 : i ∈ fr2 := by
          split at hi
          · exact (List.mem_cons.1 hi).resolve_left hij
          · exact hi
        exact (ih hr hi2).elim (ih hb) Or.inr
    | @choice j _ _ fr1 fr2 hs _ _ hb _ hr _ =>
      rcases List.mem_cons.1 hi with rfl | hi
      · exact Or.inr ⟨_,_,_,_,hs,hthis⟩
      · exact (ih hr hi).elim (ih hb) Or.inr
    | @lone j t _ _ fr1 hs _ _ _ hr _ =>
      rcases List.mem_cons.1 hi with rfl | hi
      · exact Or.inr ⟨_,_,_,_,hs,hthis⟩
      · exact ih hr hi

theorem Released.call (h : Released ns) (h1 : 1 < i) (hi : i < ns.length) :
    ∃ f stop fr ys, stop ≠ some i ∧ rexFreeHelp ns f (some i) stop fr = some ys := by
  obtain ⟨f,ys,hf,hp⟩ := h
  refine (rexFreeHelp_mem hf (hp.mem_iff.2 ?_)).resolve_left List.not_mem_nil
  rw [List.mem_range'_1]
  omega

/-- Neither a link nor the start of a group points at a node, nor is it an open group. -/
structure Avoids (ns : List RexNode) (gs : Option ℕ) (c : ℕ) : Prop where
  links : ∀ l, link ns l ≠ some c
  others : ∀ i o num, markOf ns i = some (.groupS,o,num) → o ≠ some c
  stack : gs ≠ some c

theorem Avoids.not_call (h : Avoids ns gs c) (hn : node ≠ some c) (hf : rexFreeHelp ns f node stop fr = some ys) (hc : c ∉ fr) :
    c ∉ ys := by
  induction f generalizing node stop fr ys with
  | zero => cases hf
  | succ f ih =>
    have hne : ∀ {i}, node = some i → c ≠ i := by
      rintro i rfl rfl
      exact hn rfl
    cases rexFreeHelp_succ.1 hf with
    | null => exact hc
    | stop => exact hc
    | @groupS i num other _ _ fr1 fr2 _ _ hm hb _ hr _ =>
      have hfr2 : c ∉ fr2 := ih (h.others i other num hm) hr (ih (h.links _) hb hc)
      split
      · exact List.not_mem_cons_of_ne_of_not_mem (hne rfl) hfr2
      · exact hfr2
    | choice _ _ _ hb _ hr _ => exact List.not_mem_cons_of_ne_of_not_mem (hne rfl) (ih (h.links _) hr (ih (h.links _) hb hc))
    | lone _ _ _ _ hr _ => exact List.not_mem_cons_of_ne_of_not_mem (hne rfl) (ih (h.links _) hr hc)

theorem Avoids.not_released (h : Avoids ns gs c) (h1 : 1 < c) (hc : c < ns.length) : ¬Released ns := by
  rintro ⟨f,ys,hf,hp⟩
  refine h.not_call (fun he => ?_) hf List.not_mem_nil (hp.mem_iff.2 ?_)
  · exact absurd (Option.some.inj he) (by omega)
  · rw [List.mem_range'_1]
    omega

theorem call_groupS (h : rexFreeHelp ns f (some i) stop fr = some ys) (hs : stop ≠ some i) (hm : markOf ns i = some (.groupS,other,num)) :
    ∃ f' fr' ys' zs, f' < f ∧ rexFreeHelp ns f' (link ns (.next i)) other fr = some ys' ∧ rexFreeHelp ns f' other stop fr' = some zs := by
  cases f with
  | zero => cases h
  | succ f =>
    cases rexFreeHelp_succ.1 h with
    | stop => exact absurd rfl hs
    | groupS _ _ hm' hb _ hr _ =>
      rw [hm] at hm'
      cases hm'
      exact ⟨f,_,_,_,Nat.lt_succ_self f,hb,hr⟩
    | choice _ _ ht => cases (type_of_mark hm).symm.trans ht
    | lone _ _ ht hleaf => exact absurd (Option.some.inj (ht.symm.trans (type_of_mark hm))) hleaf.2

theorem call_choice (h : rexFreeHelp ns f (some i) stop fr = some ys) (hs : stop ≠ some i) (ht : typeOf ns i = some .choice) :
    ∃ f' fr' ys', f' < f ∧ rexFreeHelp ns f' (link ns (.opt2 i)) stop fr' = some ys' := by
  cases f with
  | zero => cases h
  | succ f =>
    cases rexFreeHelp_succ.1 h with
    | stop => exact absurd rfl hs
    | groupS _ _ hm => cases (type_of_mark hm).symm.trans ht
    | choice _ _ _ _ _ hr _ => exact ⟨f,_,_,Nat.lt_succ_self f,hr⟩
    | lone _ _ ht' hleaf => exact absurd (Option.some.inj (ht'.symm.trans ht)) hleaf.1

theorem call_lone {t : RexType} (h : rexFreeHelp ns f (some i) stop fr = some ys) (hs : stop ≠ some i) (ht : typeOf ns i = some t)
    (hleaf : t ≠ .choice ∧ t ≠ .groupS) : ∃ f' ys', f' < f ∧ rexFreeHelp ns f' (link ns (.next i)) stop fr = some ys' := by
  cases f with
  | zero => cases h
  | succ f =>
    cases rexFreeHelp_succ.1 h with
    | stop => exact absurd rfl hs
    | groupS _ _ hm => exact absurd (Option.some.inj (ht.symm.trans (type_of_mark hm))) hleaf.2
    | choice _ _ ht' => exact absurd (Option.some.inj (ht.symm.trans ht')) hleaf.1
    | lone _ _ _ _ hr _ => exact ⟨f,_,Nat.lt_succ_self f,hr⟩

theorem Span.arrives (h : Span ns b e lo hi (some r) l) (hr : link ns r = some g) (hs : ∀ s, stop = some s → s ≤ lo)
    (hf : rexFreeHelp ns f (link ns l) stop fr = some ys) : ∃ f' fr' ys', f' ≤ f ∧ rexFreeHelp ns f' (some g) stop fr' = some ys' := by
  generalize ho : some r = o at h
  have hne : ∀ {lo i : ℕ}, (∀ s, stop = some s → s ≤ lo) → lo < i → stop ≠ some i := fun h hlt he => absurd (h _ he) (not_le.2 hlt)
  induction h generalizing f fr ys with
  | hole h =>
    cases ho
    rw [hr] at hf
    exact ⟨f,fr,ys,le_rfl,hf⟩
  | done => cases ho
  | null => cases ho
  | lone h ht hleaf _ ih =>
    rw [h] at hf
    obtain ⟨k,zs,hk,hf'⟩ := call_lone hf (hne hs (Nat.lt_succ_self _)) ht hleaf
    obtain ⟨m,fr',ys',hm,hf''⟩ := ih (fun s h => (hs s h).trans (Nat.le_succ _)) hf' ho
    exact ⟨m,fr',ys',hm.trans hk.le,hf''⟩
  | @choice b e lo hi c o l h ht h1 _ _ ih =>
    have hlt := h1.lt
    rw [h] at hf
    obtain ⟨k,fr1,zs,hk,hf'⟩ := call_choice hf (hne hs hlt) ht
    obtain ⟨m,fr',ys',hm,hf''⟩ := ih (fun s h => (hs s h).trans hlt.le) hf' ho
    exact ⟨m,fr',ys',hm.trans hk.le,hf''⟩
  | @group b e lo hi k num o l h hm he hb _ _ ih =>
    have hlt := hb.lt
    rw [h] at hf
    obtain ⟨k1,fr1,_,zs,hk1,-,hf'⟩ := call_groupS hf (hne hs (Nat.lt_succ_self _)) hm
    obtain ⟨k2,zs',hk2,hf''⟩ := call_lone hf' (hne hs (by omega)) he ⟨nofun,nofun⟩
    obtain ⟨m,fr',ys',hm,hf''⟩ := ih (fun s h => (hs s h).trans (by omega)) hf'' ho
    exact ⟨m,fr',ys',by omega,hf''⟩

theorem nested_never {g' num' : ℕ} (hs : Span ns b e g' g (some r) (.next g')) (hr : link ns r = some g)
    (hm : markOf ns g = some (.groupS,some g',num)) (hm' : markOf ns g' = some (.groupS,other,num')) (ho : ∀ s, other = some s → s < g')
    (hstop : stop ≠ some g') : rexFreeHelp ns f (some g') stop fr ≠ some ys := by
  induction f using Nat.strong_induction_on generalizing stop fr ys with
  | _ f ih =>
    intro hf
    have hlt := hs.lt
    obtain ⟨k,_,zs,_,hk,hb,-⟩ := call_groupS hf hstop hm'
    obtain ⟨m,_,zs',hm1,hg⟩ := hs.arrives hr (fun s h => (ho s h).le) hb
    obtain ⟨k',_,_,_,hk',-,hback⟩ := call_groupS hg (fun h => absurd (ho g h) (by omega)) hm
    exact ih k' (by omega) (fun h => absurd (ho g' h) (lt_irrefl _)) hback

theorem Spun.not_released {g' : ℕ} (h : Spun ns (some g) lc r ns.length) (ho : otherOf ns g = some g') : ¬Released ns := by
  intro hrel
  have hlt : g < ns.length := h.whole.lt
  cases h.around with
  | group hm hl hs ha =>
    obtain rfl := (other_of_mark hm).symm.trans ho
    have hg : g' < g := hs.lt
    cases ha with
    | @group _ _ gs _ hm' _ hs' ha' =>
      have hbase : gs.getD 1 < g' := hs'.lt
      have hone : 1 < g' := ha'.one_le.trans_lt hbase
      obtain ⟨f,stop,fr,ys,hstop,hf⟩ := hrel.call (i := g') hone (by omega)
      refine nested_never hs hl hm hm' ?_ hstop hf
      rintro s rfl
      exact hbase

end Catlib.Rex
