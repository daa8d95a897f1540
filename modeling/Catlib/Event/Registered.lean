import Catlib.Event.Uevent

/-! # Registered events

An event is gone while its last cancellation is not followed by a registration. On the lists
are registered events only, and the notes are clean when no callback ran for one that was gone.
-/
namespace Catlib.Uevent
open Timer

variable {σ : Type} {cb : Callbacks σ} {stray : List (ℕ × List ℕ) → ℤ} {s s' : UeState σ} {k e : ℕ}

/-- The last note on the registration of the event is its cancellation. -/
def gone (e : UeEvent) : List Note → Bool
  | [] => false
  | .ran _ :: l => gone e l
  | .registered e' :: l => e' ≠ e && gone e l
  | .cancelled e' :: l => e' = e || gone e l
  | .signal _ :: l => gone e l

/-- No callback ran for an event that was gone. -/
def Clean : List Note → Prop
  | [] => True
  | .ran e :: l => gone e l = false ∧ Clean l
  | .registered _ :: l => Clean l
  | .cancelled _ :: l => Clean l
  | .signal _ :: l => Clean l

theorem Clean.suffix {l l' : List Note} (h : Clean l') (hl : l <:+ l') : Clean l := by
  obtain ⟨pre,rfl⟩ := hl
  induction pre with
  | nil => exact h
  | cons n pre ih =>
    cases n with
    | ran e => exact ih h.2
    | registered e => exact ih h
    | cancelled e => exact ih h
    | signal i => exact ih h

/-- The timers and events on the lists are registered, and no callback ran for one that was
gone. -/
structure UeState.Good (s : UeState σ) : Prop where
  nodup : (keys s.due ++ keys s.mux.timers.timers).Nodup
  treg : ∀ k ∈ keys s.due ++ keys s.mux.timers.timers, (s.tm k).treg
  ionodup : s.mux.iolist.Nodup
  iomux : ∀ e, e ∈ s.mux.iolist ↔ (s.io e).mux
  fdtab : ∀ e, (s.io e).mux → ∃ l, s.mux.fdtab.lookup (s.io e).fd = some l ∧ e ∈ l
  timer : ∀ k, gone (.timer k) s.log → (s.tm k).treg = false
  io : ∀ e, gone (.io e) s.log → (s.io e).mux = false
  sig : ∀ g, gone (.sig g) s.log = false
  clean : Clean s.log

/-! ## Lists and tables -/

theorem keys_dlRemAt (k : ℕ) (head : CatTime) (l : Timers) : keys (dlRemAt k head l).timers = (keys l).erase k := by
  induction l with
  | nil => rfl
  | cons x l ih =>
    obtain ⟨k',d⟩ := x
    rw [dlRemAt]
    by_cases h : k' = k
    · subst h
      rw [if_pos rfl]
      simp only [keys, List.map_cons, List.erase_cons_head]
      cases l with
      | nil => rfl
      | cons y l => rfl
    · rw [if_neg h]
      simp only [keys, List.map_cons] at ih ⊢
      rw [ih,List.erase_cons_tail (by simpa using h)]

theorem keys_filter (k : ℕ) (l : Timers) : keys (l.filter (·.1 ≠ k)) = (keys l).filter (· ≠ k) := by
  rw [keys,keys,List.filter_map]
  rfl

theorem keys_insWalk (k : ℕ) (ttl : CatTime) (l : Timers) : (keys (insWalk k ttl l)).Perm (k :: keys l) := by
  induction l generalizing ttl with
  | nil => exact List.Perm.refl _
  | cons x l ih =>
    obtain ⟨k',d⟩ := x
    rw [insWalk]
    split
    · exact List.Perm.refl _
    · exact ((ih _).cons k').trans (List.Perm.swap k k' _)

theorem keys_dlAdv (s : UeState σ) (d : CatTime) :
    keys s.mux.timers.timers = keys (dlAdvance s d).due ++ keys (dlAdvance s d).mux.timers.timers := advWalk_append d

theorem lookup_cons_ne {n m : ℕ} {l : List ℕ} {tab : List (ℕ × List ℕ)} (h : n ≠ m) :
    ((m,l) :: tab).lookup n = tab.lookup n := by
  rw [List.lookup_cons,beq_eq_false_iff_ne.2 h]

theorem lookup_fdDel {fd n : ℕ} {tab : List (ℕ × List ℕ)} (h : n ≠ fd) : (fdDel fd tab).lookup n = tab.lookup n := by
  induction tab with
  | nil => rfl
  | cons x tab ih =>
    obtain ⟨m,l⟩ := x
    rw [fdDel] at ih ⊢
    by_cases hm : m = fd
    · rw [List.filter_cons_of_neg (by simpa using hm),ih,lookup_cons_ne (hm ▸ h)]
    · rw [List.filter_cons_of_pos (by simpa using hm),List.lookup_cons,List.lookup_cons,ih]

theorem lookup_fdPut {fd : ℕ} (n : ℕ) (l : List ℕ) (tab : List (ℕ × List ℕ)) :
    (fdPut fd l tab).lookup n = if n = fd then some l else tab.lookup n := by
  by_cases h : n = fd
  · rw [if_pos h,h,fdPut,List.lookup_cons_self]
  · rw [if_neg h,fdPut,lookup_cons_ne h,lookup_fdDel h]

theorem getLast?_filter {l : List ℕ} {p : ℕ → Bool} {x : ℕ} (h : l.getLast? = some x) (hp : p x) :
    (l.filter p).getLast? = some x := by
  obtain ⟨pre,rfl⟩ := List.getLast?_eq_some_iff.1 h
  rw [List.filter_append,List.filter_cons_of_pos hp,List.filter_nil,List.getLast?_append,List.getLast?_singleton]
  rfl

/-! ## The calls of a callback -/

/-- What calls leave of the lists and the notes. -/
structure Leaves (acts : List UeAct) (s s' : UeState σ) : Prop where
  due : ∃ p : ℕ → Bool, keys s'.due = (keys s.due).filter p ∧ ∀ k, .tmCancel k ∉ acts → p k
  iolist : ∃ p : ℕ → Bool, s'.mux.iolist = s.mux.iolist.filter p ∧ ∀ e, .ioCancel e ∉ acts → p e
  sigtab : s'.mux.sigtab = s.mux.sigtab

theorem Leaves.refl (s : UeState σ) : Leaves [] s s :=
  ⟨⟨fun _ => true,(List.filter_true _).symm,fun _ _ => rfl⟩,⟨fun _ => true,(List.filter_true _).symm,fun _ _ => rfl⟩,rfl⟩

theorem filter_both {acts : List UeAct} {a : UeAct} {c : ℕ → UeAct} {l l' l'' : List ℕ}
    (h : ∃ p : ℕ → Bool, l' = l.filter p ∧ ∀ k, c k ∉ [a] → p k)
    (h' : ∃ p : ℕ → Bool, l'' = l'.filter p ∧ ∀ k, c k ∉ acts → p k) :
    ∃ p : ℕ → Bool, l'' = l.filter p ∧ ∀ k, c k ∉ a :: acts → p k := by
  obtain ⟨p,rfl,hp⟩ := h
  obtain ⟨q,rfl,hq⟩ := h'
  refine ⟨fun k => p k && q k,by rw [List.filter_filter]; simp only [Bool.and_comm],fun k hk => ?_⟩
  rw [List.mem_cons,not_or] at hk
  have hpk : p k := hp k (by simpa using hk.1)
  have hqk : q k := hq k hk.2
  simp only [hpk, hqk, Bool.and_self]

theorem Leaves.cons {a : UeAct} {acts : List UeAct} {s'' : UeState σ} (h : Leaves [a] s s') (h' : Leaves acts s' s'') :
    Leaves (a :: acts) s s'' :=
  ⟨filter_both h.due h'.due,filter_both h.iolist h'.iolist,h'.sigtab.trans h.sigtab⟩

theorem Leaves.of_kept {a : UeAct} (hd : s'.due = s.due) (hi : s'.mux.iolist = s.mux.iolist)
    (hs : s'.mux.sigtab = s.mux.sigtab) : Leaves [a] s s' :=
  ⟨⟨fun _ => true,by rw [hd,List.filter_true],fun _ _ => rfl⟩,⟨fun _ => true,by rw [hi,List.filter_true],fun _ _ => rfl⟩,
    hs⟩

theorem gone_cancelled_self (e : UeEvent) (l : List Note) : gone e (.cancelled e :: l) = true := by
  rw [gone,decide_eq_true rfl,Bool.true_or]

theorem gone_cancelled_ne {e e' : UeEvent} (h : e' ≠ e) (l : List Note) : gone e (.cancelled e' :: l) = gone e l := by
  rw [gone,decide_eq_false h,Bool.false_or]

theorem gone_registered_self (e : UeEvent) (l : List Note) : gone e (.registered e :: l) = false := by
  rw [gone,decide_eq_false (fun h => h rfl),Bool.false_and]

theorem gone_registered_ne {e e' : UeEvent} (h : e' ≠ e) (l : List Note) : gone e (.registered e' :: l) = gone e l := by
  rw [gone,decide_eq_true h,Bool.true_and]

/-- A timer that is taken off its list. -/
def tmOff (s : UeState σ) (k : ℕ) : UeState σ :=
  { s with
    due := (dlRemAt k tmZero s.due).timers
    mux := { s.mux with timers := dlRem s.mux.timers k }
    tm := Function.update s.tm k { s.tm k with treg := false } }.note (.cancelled (.timer k))

theorem ueTmCancel_cases (hc : ueTmCancel s k = some s') :
    (s.tm k).treg = false ∧ s' = s ∨ (s.tm k).treg = true ∧ (keys s.due).getLast? ≠ some k ∧ s' = tmOff s k := by
  rw [ueTmCancel] at hc
  cases ht : (s.tm k).treg with
  | false =>
    rw [ht] at hc
    cases hc
    exact Or.inl ⟨rfl,rfl⟩
  | true =>
    rw [ht,if_neg (by simp)] at hc
    by_cases hl : (keys s.due).getLast? = some k
    · rw [if_pos hl] at hc
      cases hc
    · rw [if_neg hl] at hc
      cases hc
      exact Or.inr ⟨rfl,hl,rfl⟩

/-- An I/O event that is taken off its lists, where `l` is the list of its descriptor. -/
def ioOff (stray : List (ℕ × List ℕ) → ℤ) (s : UeState σ) (e : ℕ) (l : List ℕ) : UeState σ :=
  let io := s.io e
  let set := if (l.erase e).any fun e' => (s.io e').type = io.type then s.mux.set else fdSet s.mux.set io.type io.fd false
  let fdtab := if l.erase e = [] then fdDel io.fd s.mux.fdtab else fdPut io.fd (l.erase e) s.mux.fdtab
  let maxfd := if l.erase e = [] ∧ io.fd = s.mux.maxfd then fdmax stray fdtab else s.mux.maxfd
  { s with
    mux := { s.mux with iolist := s.mux.iolist.erase e, set := set, fdtab := fdtab, maxfd := maxfd }
    io := Function.update s.io e { io with mux := false } }.note (.cancelled (.io e))

theorem ueIoCancel_cases (hc : ueIoCancel stray s e = some s') :
    (s.io e).mux = false ∧ s' = s ∨
      (s.io e).mux = true ∧ ∃ l, s.mux.fdtab.lookup (s.io e).fd = some l ∧ s' = ioOff stray s e l := by
  rw [ueIoCancel] at hc
  dsimp only at hc
  cases hm : (s.io e).mux with
  | false =>
    rw [hm] at hc
    cases hc
    exact Or.inl ⟨rfl,rfl⟩
  | true =>
    rw [hm,if_neg (by simp)] at hc
    cases hl : s.mux.fdtab.lookup (s.io e).fd with
    | none =>
      rw [hl] at hc
      cases hc
    | some l =>
      rw [hl] at hc
      cases hc
      exact Or.inr ⟨rfl,l,rfl,rfl⟩

theorem ueTmCancel_good (h : s.Good) (hc : ueTmCancel s k = some s') : s'.Good ∧ Leaves [.tmCancel k] s s' := by
  rcases ueTmCancel_cases hc with ⟨-,rfl⟩ | ⟨-,-,rfl⟩
  · exact ⟨h,.of_kept rfl rfl rfl⟩
  have hdue : keys (dlRemAt k tmZero s.due).timers = (keys s.due).erase k := keys_dlRemAt k tmZero s.due
  have htim : keys (dlRem s.mux.timers k).timers = (keys s.mux.timers.timers).erase k := keys_dlRemAt k _ _
  have hne : ∀ {j}, j ∈ (keys s.due).erase k ++ (keys s.mux.timers.timers).erase k →
      j ≠ k ∧ j ∈ keys s.due ++ keys s.mux.timers.timers := by
    intro j hj
    rw [List.mem_append,(h.nodup.of_append_left).mem_erase_iff,(h.nodup.of_append_right).mem_erase_iff] at hj
    rcases hj with ⟨hn,hj⟩ | ⟨hn,hj⟩
    · exact ⟨hn,List.mem_append_left _ hj⟩
    · exact ⟨hn,List.mem_append_right _ hj⟩
  constructor
  · refine ⟨?_,fun j hj => ?_,h.ionodup,h.iomux,h.fdtab,fun j hj => ?_,fun e he => ?_,fun g => ?_,h.clean⟩
    · show (keys (dlRemAt k tmZero s.due).timers ++ keys (dlRem s.mux.timers k).timers).Nodup
      rw [hdue,htim]
      exact h.nodup.sublist (List.erase_sublist.append List.erase_sublist)
    · have hj' : j ∈ keys (dlRemAt k tmZero s.due).timers ++ keys (dlRem s.mux.timers k).timers := hj
      rw [hdue,htim] at hj'
      show (Function.update s.tm k _ j).treg
      rw [Function.update_of_ne (hne hj').1]
      exact h.treg j (hne hj').2
    · show (Function.update s.tm k _ j).treg = false
      by_cases hjk : j = k
      · rw [hjk,Function.update_self]
      · rw [Function.update_of_ne hjk]
        exact h.timer j ((gone_cancelled_ne (fun hk => hjk (UeEvent.timer.inj hk).symm) _).symm.trans hj)
    · exact h.io e he
    · exact h.sig g
  · refine ⟨⟨(· != k),?_,fun j hj => ?_⟩,⟨fun _ => true,(List.filter_true _).symm,fun _ _ => rfl⟩,rfl⟩
    · exact hdue.trans (h.nodup.of_append_left.erase_eq_filter k)
    · simp only [List.mem_singleton, UeAct.tmCancel.injEq] at hj
      simpa using hj

theorem ueIoCancel_good (h : s.Good) (hc : ueIoCancel stray s e = some s') : s'.Good ∧ Leaves [.ioCancel e] s s' := by
  rcases ueIoCancel_cases hc with ⟨-,rfl⟩ | ⟨-,l,hl,rfl⟩
  · exact ⟨h,.of_kept rfl rfl rfl⟩
  constructor
  · refine ⟨h.nodup,h.treg,h.ionodup.sublist List.erase_sublist,fun e' => ?_,fun e' he' => ?_,fun j hj => ?_,
      fun e' he' => ?_,fun g => ?_,h.clean⟩
    · show e' ∈ s.mux.iolist.erase e ↔ (Function.update s.io e _ e').mux
      rw [h.ionodup.mem_erase_iff]
      by_cases hee : e' = e
      · subst hee
        rw [Function.update_self]
        simp
      · rw [Function.update_of_ne hee,h.iomux]
        exact ⟨And.right,fun hm => ⟨hee,hm⟩⟩
    · have hee : e' ≠ e := by
        rintro rfl
        have hm : (Function.update s.io e' _ e').mux = true := he'
        rw [Function.update_self] at hm
        cases hm
      have hfd : (Function.update s.io e { s.io e with mux := false } e') = s.io e' := Function.update_of_ne hee _ _
      have hm : (s.io e').mux := hfd ▸ he'
      obtain ⟨l',hl',hmem⟩ := h.fdtab e' hm
      show ∃ l'', (if l.erase e = [] then fdDel (s.io e).fd s.mux.fdtab else fdPut (s.io e).fd (l.erase e) s.mux.fdtab).lookup
        (Function.update s.io e { s.io e with mux := false } e').fd = some l'' ∧ e' ∈ l''
      rw [hfd]
      by_cases hsame : (s.io e').fd = (s.io e).fd
      · -- the other event keeps the list of the descriptor alive
        rw [hsame,hl] at hl'
        cases hl'
        have hmem' : e' ∈ l.erase e := (List.mem_erase_of_ne hee).2 hmem
        rw [if_neg (List.ne_nil_of_mem hmem'),lookup_fdPut,if_pos hsame]
        exact ⟨_,rfl,hmem'⟩
      · refine ⟨l',?_,hmem⟩
        split
        · rw [lookup_fdDel hsame,hl']
        · rw [lookup_fdPut,if_neg hsame,hl']
    · exact h.timer j hj
    · show (Function.update s.io e _ e').mux = false
      by_cases hee : e' = e
      · rw [hee,Function.update_self]
      · rw [Function.update_of_ne hee]
        exact h.io e' ((gone_cancelled_ne (fun hk => hee (UeEvent.io.inj hk).symm) _).symm.trans he')
    · exact h.sig g
  · refine ⟨⟨fun _ => true,(List.filter_true _).symm,fun _ _ => rfl⟩,⟨(· != e),h.ionodup.erase_eq_filter e,fun j hj => ?_⟩,
      rfl⟩
    simp only [List.mem_singleton, UeAct.ioCancel.injEq] at hj
    simpa using hj

theorem ueStop_good (h : s.Good) : (ueStop s).Good ∧ Leaves [.stop] s (ueStop s) :=
  ⟨⟨h.nodup,h.treg,h.ionodup,h.iomux,h.fdtab,h.timer,h.io,h.sig,h.clean⟩,.of_kept rfl rfl rfl⟩

theorem act_good {a : UeAct} (h : s.Good) (ha : act stray s a = some s') : s'.Good ∧ Leaves [a] s s' := by
  cases a with
  | tmCancel k => exact ueTmCancel_good h ha
  | ioCancel e => exact ueIoCancel_good h ha
  | stop =>
    cases ha
    exact ueStop_good h

theorem acts_good {acts : List UeAct} (h : s.Good) (ha : acts.foldlM (act stray) s = some s') : s'.Good ∧ Leaves acts s s' := by
  induction acts generalizing s with
  | nil =>
    cases ha
    exact ⟨h,.refl _⟩
  | cons a acts ih =>
    rw [List.foldlM_cons] at ha
    obtain ⟨s1,h1,h2⟩ := Option.bind_eq_some_iff.1 ha
    obtain ⟨hg,hl⟩ := act_good h h1
    obtain ⟨hg',hl'⟩ := ih hg h2
    exact ⟨hg',hl.cons hl'⟩

/-! ## What stops a callback -/

theorem getLast?_left {acts : List UeAct} {l l' : List ℕ} (h : ∃ p : ℕ → Bool, l' = l.filter p ∧ ∀ k, .tmCancel k ∉ acts → p k)
    (hk : l.getLast? = some k) (hn : .tmCancel k ∉ acts) : l'.getLast? = some k := by
  obtain ⟨p,rfl,hp⟩ := h
  exact getLast?_filter hk (hp k hn)

variable (stray) in
theorem act_isSome (h : s.Good) (a : UeAct) :
    (∃ s', act stray s a = some s') ↔ ∀ k, a = .tmCancel k → (keys s.due).getLast? ≠ some k := by
  cases a with
  | stop => exact ⟨fun _ _ h => (nomatch h),fun _ => ⟨_,rfl⟩⟩
  | ioCancel e =>
    refine ⟨fun _ _ h => (nomatch h),fun _ => ?_⟩
    show ∃ s', ueIoCancel stray s e = some s'
    rw [ueIoCancel]
    by_cases hm : (s.io e).mux
    · obtain ⟨l,hl,-⟩ := h.fdtab e hm
      simp only [hm, hl, Bool.not_true, Bool.false_eq_true, if_false]
      exact ⟨_,rfl⟩
    · simp only [hm, Bool.not_false, if_true]
      exact ⟨_,rfl⟩
  | tmCancel k =>
    show (∃ s', ueTmCancel s k = some s') ↔ _
    rw [ueTmCancel]
    by_cases hlast : (keys s.due).getLast? = some k
    · have hk : k ∈ keys s.due := List.mem_of_getLast? hlast
      rw [h.treg k (List.mem_append_left _ hk)]
      simp only [hlast, Bool.not_true, Bool.false_eq_true, if_false, if_true]
      exact ⟨fun ⟨_,h⟩ => (nomatch h),fun hc => absurd rfl (hc k rfl)⟩
    · rw [if_neg hlast]
      constructor
      · intro _ k' hk'
        cases hk'
        exact hlast
      · intro _
        split
        · exact ⟨_,rfl⟩
        · exact ⟨_,rfl⟩

variable (stray) in
theorem acts_isSome (acts : List UeAct) (h : s.Good) :
    (∃ s', acts.foldlM (act stray) s = some s') ↔ ∀ k, .tmCancel k ∈ acts → (keys s.due).getLast? ≠ some k := by
  induction acts generalizing s with
  | nil => exact ⟨fun _ _ hk => (nomatch hk),fun _ => ⟨s,rfl⟩⟩
  | cons a acts ih =>
    rw [List.foldlM_cons]
    constructor
    · rintro ⟨s',ha⟩ k hk hlast
      obtain ⟨s1,h1,h2⟩ := Option.bind_eq_some_iff.1 ha
      obtain ⟨hg,hl⟩ := act_good h h1
      have hfirst : .tmCancel k ∉ [a] := by
        rintro hm
        rw [List.mem_singleton] at hm
        exact (act_isSome stray h a).1 ⟨s1,h1⟩ k hm.symm hlast
      have hrest : .tmCancel k ∈ acts := by
        rcases List.mem_cons.1 hk with hk | hk
        · exact absurd (List.mem_singleton.2 hk) hfirst
        · exact hk
      exact (ih hg).1 ⟨s',h2⟩ k hrest (getLast?_left hl.due hlast hfirst)
    · intro hk
      obtain ⟨s1,h1⟩ := (act_isSome stray h a).2 fun k hak => hk k (by rw [hak]; exact List.mem_cons_self)
      obtain ⟨hg,hl⟩ := act_good h h1
      have hrest : ∀ k, .tmCancel k ∈ acts → (keys s1.due).getLast? ≠ some k := by
        intro k hka hlast
        obtain ⟨p,hp,hkeep⟩ := hl.due
        rw [hp] at hlast
        cases hs : (keys s.due).getLast? with
        | none =>
          rw [List.getLast?_eq_none_iff] at hs
          rw [hs] at hlast
          cases hlast
        | some m =>
          have hm : p m := hkeep m fun hma => by
            rw [List.mem_singleton] at hma
            exact hk m (by rw [hma]; exact List.mem_cons_self) hs
          rw [getLast?_filter hs hm] at hlast
          exact hk k (List.mem_cons_of_mem _ hka) (hs.trans hlast)
      obtain ⟨s',h2⟩ := (ih hg).2 hrest
      exact ⟨s',by rw [h1]; exact h2⟩

/-- The notes grow, what is gone stays gone, and a registered event that is not registered any
more is gone. -/
structure Marks (s s' : UeState σ) : Prop where
  log : s.log <:+ s'.log
  gone : ∀ x, gone x s.log → gone x s'.log
  treg : ∀ k, (s.tm k).treg → (s'.tm k).treg ∨ Uevent.gone (.timer k) s'.log
  mux : ∀ e, (s.io e).mux → (s'.io e).mux ∨ Uevent.gone (.io e) s'.log

theorem Marks.refl (s : UeState σ) : Marks s s := ⟨List.suffix_refl _,fun _ => id,fun _ => Or.inl,fun _ => Or.inl⟩

theorem Marks.trans {s'' : UeState σ} (h : Marks s s') (h' : Marks s' s'') : Marks s s'' := by
  refine ⟨h.log.trans h'.log,fun x hx => h'.gone x (h.gone x hx),fun k hk => ?_,fun e he => ?_⟩
  · rcases h.treg k hk with hk | hk
    · exact h'.treg k hk
    · exact Or.inr (h'.gone _ hk)
  · rcases h.mux e he with he | he
    · exact h'.mux e he
    · exact Or.inr (h'.gone _ he)

theorem gone_note {x y : UeEvent} {l : List Note} (h : gone x l) : gone x (.cancelled y :: l) := by
  by_cases hy : y = x
  · rw [hy,gone_cancelled_self]
  · rw [gone_cancelled_ne hy,h]

theorem tmOff_marks (s : UeState σ) (k : ℕ) : Marks s (tmOff s k) := by
  refine ⟨List.suffix_cons _ _,fun x => gone_note,fun j hj => ?_,fun e => Or.inl⟩
  by_cases hjk : j = k
  · rw [hjk]
    exact Or.inr (gone_cancelled_self _ _)
  · left
    show (Function.update s.tm k _ j).treg
    rw [Function.update_of_ne hjk]
    exact hj

theorem ioOff_marks (s : UeState σ) (e : ℕ) (l : List ℕ) : Marks s (ioOff stray s e l) := by
  refine ⟨List.suffix_cons _ _,fun x => gone_note,fun k => Or.inl,fun e' he' => ?_⟩
  by_cases hee : e' = e
  · rw [hee]
    exact Or.inr (gone_cancelled_self _ _)
  · left
    show (Function.update s.io e _ e').mux
    rw [Function.update_of_ne hee]
    exact he'

theorem act_marks {a : UeAct} (ha : act stray s a = some s') : Marks s s' := by
  cases a with
  | tmCancel k =>
    rcases ueTmCancel_cases ha with ⟨-,rfl⟩ | ⟨-,-,rfl⟩
    · exact .refl _
    · exact tmOff_marks s k
  | ioCancel e =>
    rcases ueIoCancel_cases ha with ⟨-,rfl⟩ | ⟨-,l,-,rfl⟩
    · exact .refl _
    · exact ioOff_marks s e l
  | stop =>
    cases ha
    exact ⟨List.suffix_refl _,fun _ => id,fun _ => Or.inl,fun _ => Or.inl⟩

theorem acts_marks {acts : List UeAct} (ha : acts.foldlM (act stray) s = some s') : Marks s s' := by
  induction acts generalizing s with
  | nil =>
    cases ha
    exact .refl _
  | cons a acts ih =>
    rw [List.foldlM_cons] at ha
    obtain ⟨s1,h1,h2⟩ := Option.bind_eq_some_iff.1 ha
    exact (act_marks h1).trans (ih h2)

theorem acts_cancel_timer {acts : List UeAct} (ha : acts.foldlM (act stray) s = some s') (hk : .tmCancel k ∈ acts)
    (ht : (s.tm k).treg) : gone (.timer k) s'.log := by
  induction acts generalizing s with
  | nil => cases hk
  | cons a acts ih =>
    rw [List.foldlM_cons] at ha
    obtain ⟨s1,h1,h2⟩ := Option.bind_eq_some_iff.1 ha
    rcases (act_marks h1).treg k ht with ht' | hg
    · rcases List.mem_cons.1 hk with rfl | hk
      · rcases ueTmCancel_cases h1 with ⟨hf,-⟩ | ⟨-,-,rfl⟩
        · rw [ht] at hf
          cases hf
        · exact (acts_marks h2).gone _ (gone_cancelled_self _ _)
      · exact ih h2 hk ht'
    · exact (acts_marks h2).gone _ hg

theorem acts_cancel_io {acts : List UeAct} (ha : acts.foldlM (act stray) s = some s') (hk : .ioCancel e ∈ acts)
    (hm : (s.io e).mux) : gone (.io e) s'.log := by
  induction acts generalizing s with
  | nil => cases hk
  | cons a acts ih =>
    rw [List.foldlM_cons] at ha
    obtain ⟨s1,h1,h2⟩ := Option.bind_eq_some_iff.1 ha
    rcases (act_marks h1).mux e hm with hm' | hg
    · rcases List.mem_cons.1 hk with rfl | hk
      · rcases ueIoCancel_cases h1 with ⟨hf,-⟩ | ⟨-,l,-,rfl⟩
        · rw [hm] at hf
          cases hf
        · exact (acts_marks h2).gone _ (gone_cancelled_self _ _)
      · exact ih h2 hk hm'
    · exact (acts_marks h2).gone _ hg

/-! ## Callbacks and walks -/

theorem cbCall_some {x : UeEvent} {r : ℤ × UeState σ} (hr : cbCall cb stray s x = some r) :
    (cb x s).1.foldlM (act stray) (called cb s x) = some r.2 := by
  rw [cbCall] at hr
  obtain ⟨s',hs,rfl⟩ := Option.map_eq_some_iff.1 hr
  exact hs

theorem cbCall_log {x : UeEvent} {r : ℤ × UeState σ} (hr : cbCall cb stray s x = some r) :
    .ran x :: s.log <:+ r.2.log := (acts_marks (cbCall_some hr)).log

section Walks

variable {R : UeState σ → UeState σ → Prop} (hrefl : ∀ s, R s s) (htrans : ∀ s t u, R s t → R t u → R s u)
include hrefl htrans

theorem timerLoop_rel (hstep : ∀ s k s', tdispatch cb stray s k = some s' → R s s') {f : ℕ} {p : LNode}
    (h : loop (timerTurn cb stray) f (s,p) = some s') : R s s' := by
  refine loop_partial (I := fun t => R s t.1) (Q := fun t => R s t) ?_ ?_ (hrefl s) h
  · rintro ⟨t,q⟩ t' ht hb
    cases q with
    | out => cases hb
    | mux => cases hb
    | timer j =>
      obtain ⟨u,hu,he⟩ := Option.map_eq_some_iff.1 hb
      cases he
      exact htrans _ _ _ ht (hstep _ _ _ hu)
  · rintro ⟨t,q⟩ t' ht hb
    cases q with
    | out =>
      cases hb
      exact ht
    | mux => cases hb
    | timer j =>
      obtain ⟨u,-,he⟩ := Option.map_eq_some_iff.1 hb
      cases he

theorem ioLoop_rel {ready : UeType → ℕ → Bool} (hstep : ∀ s e s', iorun cb stray ready s e = some s' → R s s') {f : ℕ}
    {p : Option ℕ} (h : loop (ioTurn cb stray ready) f (s,p) = some s') : R s s' := by
  refine loop_partial (I := fun t => R s t.1) (Q := fun t => R s t) ?_ ?_ (hrefl s) h
  · rintro ⟨t,q⟩ t' ht hb
    cases q with
    | none => cases hb
    | some j =>
      obtain ⟨u,hu,he⟩ := Option.map_eq_some_iff.1 hb
      cases he
      exact htrans _ _ _ ht (hstep _ _ _ hu)
  · rintro ⟨t,q⟩ t' ht hb
    cases q with
    | none =>
      cases hb
      exact ht
    | some j =>
      obtain ⟨u,-,he⟩ := Option.map_eq_some_iff.1 hb
      cases he

end Walks

end Catlib.Uevent
