import Catlib.Event.Registered

/-! # Cancelling while events are dispatched

A callback may cancel what it likes, with three exceptions: the due timer behind its own, the
last due timer that waits, and the I/O event behind its own. The walks hold on to the next
node, so a node that is taken off from under them is linked to itself and never lets go.
-/
namespace Catlib.Uevent
open Timer

variable {σ : Type} {cb : Callbacks σ} {stray : List (ℕ × List ℕ) → ℤ} {s s' : UeState σ} {k e n : ℕ}

/-! ## One callback -/

variable (cb) in
theorem UeState.Good.called (h : s.Good) {x : UeEvent} (hx : gone x s.log = false) : (called cb s x).Good :=
  ⟨h.nodup,h.treg,h.ionodup,h.iomux,h.fdtab,h.timer,h.io,h.sig,⟨hx,h.clean⟩⟩

theorem cbCall_good (h : s.Good) {x : UeEvent} (hx : gone x s.log = false) {r : ℤ × UeState σ}
    (hr : cbCall cb stray s x = some r) : r.2.Good ∧ Leaves (cb x s).1 s r.2 := by
  obtain ⟨hg,hl⟩ := acts_good (h.called cb hx) (cbCall_some hr)
  exact ⟨hg,hl.due,hl.iolist,hl.sigtab⟩

variable (cb stray) in
theorem cbCall_isSome (h : s.Good) {x : UeEvent} (hx : gone x s.log = false) :
    (∃ r, cbCall cb stray s x = some r) ↔ ∀ k, .tmCancel k ∈ (cb x s).1 → (keys s.due).getLast? ≠ some k := by
  have hacts := acts_isSome stray (cb x s).1 (h.called cb hx)
  constructor
  · rintro ⟨r,hr⟩
    exact hacts.1 ⟨r.2,cbCall_some hr⟩
  · intro hk
    obtain ⟨s',hs⟩ := hacts.2 hk
    exact ⟨_,by rw [cbCall,hs]; rfl⟩

/-! ## Signals -/

/-- Between the walks no timer waits. -/
structure UeState.Idle (s : UeState σ) : Prop where
  good : s.Good
  due : s.due = []

variable (cb stray) in
theorem cbCall_idle (h : s.Idle) {x : UeEvent} (hx : gone x s.log = false) :
    ∃ r, cbCall cb stray s x = some r ∧ r.2.Idle := by
  obtain ⟨r,hr⟩ := (cbCall_isSome cb stray h.good hx).2 fun k _ => by
    rw [h.due]
    exact nofun
  obtain ⟨hg,hl⟩ := cbCall_good h.good hx hr
  obtain ⟨p,hp,-⟩ := hl.due
  rw [h.due] at hp
  exact ⟨r,hr,hg,List.map_eq_nil_iff.1 hp⟩

variable (cb stray) in
theorem cbRun_idle (l : List ℕ) (h : s.Idle) : ∃ s', cbRun cb stray l s = some s' ∧ s'.Idle := by
  induction l generalizing s with
  | nil => exact ⟨s,rfl,h⟩
  | cons g l ih =>
    obtain ⟨r,hr,hi⟩ := cbCall_idle cb stray h (h.good.sig g)
    rw [cbRun,hr,Option.bind_some]
    split
    · exact ⟨r.2,rfl,hi⟩
    · exact ih hi

theorem UeState.Idle.signal (h : s.Idle) (i : ℕ) : (s.note (.signal i)).Idle :=
  ⟨⟨h.good.nodup,h.good.treg,h.good.ionodup,h.good.iomux,h.good.fdtab,h.good.timer,h.good.io,h.good.sig,h.good.clean⟩,h.due⟩

theorem sigHandlers_idle (fired : ℕ → Bool) (l : List ℕ) (h : s.Idle) :
    ∃ s', sigHandlers cb stray fired l s = some s' ∧ s'.Idle := by
  induction l generalizing s with
  | nil => exact ⟨s,rfl,h⟩
  | cons i l ih =>
    rw [sigHandlers]
    split
    · exact ⟨s,rfl,h⟩
    split
    · exact ih h
    split
    · exact ih h
    · rename_i list _
      obtain ⟨s',hs,hi⟩ := cbRun_idle cb stray list (h.signal i)
      rw [hs,Option.bind_some]
      exact ih hi

variable (cb stray) in
theorem afterSignals_idle (r : Report) (h : s.Idle) : ∃ s', afterSignals cb stray r s = some s' ∧ s'.Idle := by
  rw [afterSignals]
  split
  · exact sigHandlers_idle _ _ h
  · exact ⟨s,rfl,h⟩

/-! ## The walk over the due timers -/

theorem after_append {pre suf : List ℕ} (h : (pre ++ k :: suf).Nodup) : after (pre ++ k :: suf) k = suf.head? := by
  induction pre with
  | nil => exact if_pos rfl
  | cons a pre ih =>
    have ha : a ≠ k := fun e => (List.nodup_cons.1 h).1 (by simp [e])
    rw [List.cons_append,after,if_neg ha,ih (List.nodup_cons.1 h).2]

/-- The walk stands at a timer with `n` more to come; those before it are left over from a
stop. -/
structure AtTimer (n : ℕ) (s : UeState σ) (p : LNode) : Prop where
  good : s.Good
  place : ∃ pre suf, keys s.due = pre ++ suf ∧ (pre ≠ [] → s.mux.done) ∧ p = front suf ∧ suf.length = n

/-- What the walk needs of a callback: the due timer behind its own and the last one stay. -/
def SparesTimer (cb : Callbacks σ) (s : UeState σ) (k : ℕ) : Prop :=
  ∀ j, .tmCancel j ∈ (cb (.timer k) (requeue s k)).1 →
    (keys (requeue s k).due).head? ≠ some j ∧ (keys (requeue s k).due).getLast? ≠ some j

theorem front_timer {suf : List ℕ} (h : .timer k = front suf) : ∃ rest, suf = k :: rest := by
  cases suf with
  | nil => cases h
  | cons a rest =>
    cases h
    exact ⟨rest,rfl⟩

theorem nextTimer_eq {pre suf : List ℕ} (h : s.Good) (hd : keys s.due = pre ++ k :: suf) : nextTimer s k = front suf := by
  rw [nextTimer,hd,if_pos (by simp),after_append (hd ▸ h.nodup.of_append_left)]
  rfl

theorem requeue_due {rest : List ℕ} (h : s.Good) (hd : keys s.due = k :: rest) : keys (requeue s k).due = rest := by
  have hk : k ∉ rest := (List.nodup_cons.1 (hd ▸ h.nodup.of_append_left)).1
  have hdue : keys (lRem s k).due = rest := by
    show keys (s.due.filter (·.1 ≠ k)) = rest
    rw [keys_filter,hd,List.filter_cons_of_neg (by simp),List.filter_eq_self]
    intro j hj
    simpa using fun e : j = k => hk (e ▸ hj)
  rw [requeue]
  dsimp only
  split
  · exact hdue
  · exact hdue

theorem requeue_log (s : UeState σ) (k : ℕ) : (requeue s k).log = s.log := by
  rw [requeue]
  dsimp only
  split <;> rfl

theorem requeue_good {rest : List ℕ} (h : s.Good) (hd : keys s.due = k :: rest) : (requeue s k).Good := by
  have hdue := requeue_due h hd
  have hall : (k :: rest ++ keys s.mux.timers.timers).Nodup := hd ▸ h.nodup
  have hkt : k ∉ keys s.mux.timers.timers := fun hk => (List.nodup_cons.1 hall).1 (List.mem_append_right _ hk)
  have htim : keys (lRem s k).mux.timers.timers = keys s.mux.timers.timers := by
    show keys (s.mux.timers.timers.filter (·.1 ≠ k)) = _
    rw [keys_filter,List.filter_eq_self]
    intro j hj
    simpa using fun e : j = k => hkt (e ▸ hj)
  have hlists : (keys (requeue s k).due ++ keys (requeue s k).mux.timers.timers).Nodup ∧
      ∀ j ∈ keys (requeue s k).due ++ keys (requeue s k).mux.timers.timers, j ∈ keys s.due ++ keys s.mux.timers.timers := by
    rw [hdue,hd,requeue]
    dsimp only
    split
    · have hp : ∀ ttl, (rest ++ keys (insWalk k ttl (lRem s k).mux.timers.timers)).Perm
          (k :: rest ++ keys s.mux.timers.timers) := by
        intro ttl
        refine ((keys_insWalk k _ _).append_left rest).trans ?_
        rw [htim]
        exact List.perm_middle
      exact ⟨(hp _).nodup_iff.2 hall,fun j hj => (hp _).mem_iff.1 hj⟩
    · rw [htim]
      exact ⟨(List.nodup_cons.1 hall).2,fun j hj => List.mem_cons_of_mem _ hj⟩
  have hsame : (requeue s k).tm = s.tm ∧ (requeue s k).io = s.io ∧ (requeue s k).mux.iolist = s.mux.iolist ∧
      (requeue s k).mux.fdtab = s.mux.fdtab := by
    rw [requeue]
    dsimp only
    split <;> exact ⟨rfl,rfl,rfl,rfl⟩
  obtain ⟨htm,hio,hil,hfd⟩ := hsame
  refine ⟨hlists.1,fun j hj => ?_,?_,?_,?_,?_,?_,?_,?_⟩
  · rw [htm]
    exact h.treg j (hlists.2 j hj)
  · rw [hil]
    exact h.ionodup
  · rw [hil,hio]
    exact h.iomux
  · rw [hio,hfd]
    exact h.fdtab
  · rw [htm,requeue_log]
    exact h.timer
  · rw [hio,requeue_log]
    exact h.io
  · rw [requeue_log]
    exact h.sig
  · rw [requeue_log]
    exact h.clean

theorem UeState.Good.present (h : s.Good) (hk : k ∈ keys s.due ++ keys s.mux.timers.timers) :
    gone (.timer k) s.log = false := by
  rw [Bool.eq_false_iff]
  intro hg
  have ht := h.treg k hk
  rw [h.timer k hg] at ht
  cases ht

theorem head?_filter {l : List ℕ} {p : ℕ → Bool} (h : ∀ j, l.head? = some j → p j) : (l.filter p).head? = l.head? := by
  cases l with
  | nil => rfl
  | cons a l => rw [List.filter_cons_of_pos (h a rfl)]; rfl

variable (stray) in
theorem AtTimer.step (h : AtTimer n s (.timer k)) (hc : s.mux.done = false → SparesTimer cb s k) :
    ∃ s' m, timerTurn cb stray (s,.timer k) = some (.again (s',nextTimer s k)) ∧ m < n ∧ AtTimer m s' (nextTimer s k) := by
  obtain ⟨hg,pre,suf,hd,hpre,hfront,hlen⟩ := h
  obtain ⟨rest,rfl⟩ := front_timer hfront
  have hnext := nextTimer_eq hg hd
  rw [List.length_cons] at hlen
  cases hdone : s.mux.done with
  | true =>
    refine ⟨s,rest.length,?_,by omega,hg,pre ++ [k],rest,by rw [hd,List.append_assoc]; rfl,fun _ => hdone,hnext,rfl⟩
    rw [timerTurn,tdispatch,if_pos hdone]
    rfl
  | false =>
    have hnil : pre = [] := by
      by_contra hne
      rw [hpre hne] at hdone
      cases hdone
    subst hnil
    rw [List.nil_append] at hd
    have hrest := requeue_due hg hd
    have hgone : gone (.timer k) (requeue s k).log = false := by
      rw [requeue_log]
      exact hg.present (by rw [hd]; exact List.mem_append_left _ List.mem_cons_self)
    obtain ⟨r,hr⟩ := (cbCall_isSome cb stray (requeue_good hg hd) hgone).2 fun j hj => (hc hdone j hj).2
    obtain ⟨hg',hl⟩ := cbCall_good (requeue_good hg hd) hgone hr
    obtain ⟨p,hp,hkeep⟩ := hl.due
    rw [hrest] at hp
    have hhead : (rest.filter p).head? = rest.head? := head?_filter fun j hj => hkeep j fun hm => by
      refine (hc hdone j hm).1 ?_
      rw [hrest]
      exact hj
    have hle := List.length_filter_le p rest
    refine ⟨r.2,(rest.filter p).length,?_,by omega,hg',[],rest.filter p,hp,fun hne => absurd rfl hne,?_,rfl⟩
    · rw [timerTurn,tdispatch,if_neg (by rw [hdone]; decide),hr]
      rfl
    · rw [hnext,front,front,hhead]

theorem tdispatch_log (h : tdispatch cb stray s k = some s') : s.log <:+ s'.log := by
  rw [tdispatch] at h
  split at h
  · cases h
    exact List.suffix_refl _
  · obtain ⟨r,hr,rfl⟩ := Option.map_eq_some_iff.1 h
    have := cbCall_log hr
    rw [requeue_log] at this
    exact (List.suffix_cons _ _).trans this

theorem timerLoop_log {f : ℕ} {p : LNode} (h : loop (timerTurn cb stray) f (s,p) = some s') : s.log <:+ s'.log :=
  timerLoop_rel (R := fun s t => s.log <:+ t.log) (fun _ => List.suffix_refl _) (fun _ _ _ => List.IsSuffix.trans)
    (fun _ _ _ => tdispatch_log) h

theorem timerLoop_gone {f : ℕ} (hg : gone (.timer k) s.log) (hdue : k ∉ keys s.due) (htim : k ∉ keys s.mux.timers.timers)
    (h : loop (timerTurn cb stray) f (s,.timer k) = some s') : ¬Clean s'.log := by
  have hnext : nextTimer s k = .timer k := by rw [nextTimer,if_neg hdue,if_neg htim]
  cases hdone : s.mux.done with
  | true =>
    rw [loop_stuck (by rw [timerTurn,tdispatch,if_pos hdone,hnext]; rfl)] at h
    cases h
  | false =>
    cases f with
    | zero => cases h
    | succ f =>
      cases ht : tdispatch cb stray s k with
      | none => rw [loop_none (by rw [timerTurn,ht]; rfl)] at h; cases h
      | some t =>
        have hturn : timerTurn cb stray (s,.timer k) = some (.again (t,nextTimer s k)) := by rw [timerTurn,ht]; rfl
        rw [loop_again hturn] at h
        rw [tdispatch,if_neg (by rw [hdone]; decide)] at ht
        obtain ⟨r,hr,rfl⟩ := Option.map_eq_some_iff.1 ht
        intro hc
        have hran := hc.suffix ((cbCall_log hr).trans (timerLoop_log h))
        rw [requeue_log] at hran
        rw [hran.1] at hg
        cases hg

theorem AtTimer.rash {f : ℕ} (h : AtTimer n s (.timer k)) (hdone : s.mux.done = false) (hc : ¬SparesTimer cb s k)
    (hr : loop (timerTurn cb stray) f (s,.timer k) = some s') : ¬Clean s'.log := by
  obtain ⟨hg,pre,suf,hd,hpre,hfront,hlen⟩ := h
  obtain ⟨rest,rfl⟩ := front_timer hfront
  have hnext := nextTimer_eq hg hd
  have hnil : pre = [] := by
    by_contra hne
    rw [hpre hne] at hdone
    cases hdone
  subst hnil
  rw [List.nil_append] at hd
  have hrest := requeue_due hg hd
  have hgr := requeue_good hg hd
  have hgone : gone (.timer k) (requeue s k).log = false := by
    rw [requeue_log]
    exact hg.present (by rw [hd]; exact List.mem_append_left _ List.mem_cons_self)
  cases f with
  | zero => cases hr
  | succ f =>
    cases ht : cbCall cb stray (requeue s k) (.timer k) with
    | none =>
      rw [loop_none (by rw [timerTurn,tdispatch,if_neg (by rw [hdone]; decide),ht]; rfl)] at hr
      cases hr
    | some r =>
      have hturn : timerTurn cb stray (s,.timer k) = some (.again (r.2,nextTimer s k)) := by
        rw [timerTurn,tdispatch,if_neg (by rw [hdone]; decide),ht]
        rfl
      rw [loop_again hturn,hnext] at hr
      have hlast := (cbCall_isSome cb stray hgr hgone).1 ⟨r,ht⟩
      -- the last timer was spared, so the callback cancelled the one that the walk holds
      rw [SparesTimer,not_forall] at hc
      obtain ⟨j,hj⟩ := hc
      rw [Classical.not_imp,not_and_or,not_not,not_not] at hj
      obtain ⟨hmem,hj⟩ := hj
      have hhead : rest.head? = some j := by
        rcases hj with hj | hj
        · rw [← hrest]
          exact hj
        · exact absurd hj (hlast j hmem)
      have hjd : j ∈ keys (requeue s k).due := by
        rw [hrest]
        exact List.mem_of_head? hhead
      have hreg := hgr.treg j (List.mem_append_left _ hjd)
      have hjg : gone (.timer j) r.2.log := acts_cancel_timer (cbCall_some ht) hmem hreg
      have hg' := (cbCall_good hgr hgone ht).1
      have hoff : j ∉ keys r.2.due ++ keys r.2.mux.timers.timers := by
        intro hm
        rw [hg'.present hm] at hjg
        cases hjg
      rw [List.mem_append,not_or] at hoff
      have hfront : front rest = .timer j := by
        rw [front,hhead]
        rfl
      rw [hfront] at hr
      exact timerLoop_gone hjg hoff.1 hoff.2 hr

/-! ## The walk over the I/O events -/

/-- The walk stands at an I/O event with `n` more to come. -/
structure AtIo (n : ℕ) (s : UeState σ) (p : Option ℕ) : Prop where
  good : s.Good
  due : s.mux.done = false → s.due = []
  place : ∃ pre suf, s.mux.iolist = pre ++ suf ∧ p = suf.head? ∧ suf.length = n

/-- What the walk needs of a callback: the I/O event behind its own stays. -/
def SparesIo (cb : Callbacks σ) (s : UeState σ) (e : ℕ) : Prop :=
  ∀ j, .ioCancel j ∈ (cb (.io e) s).1 → after s.mux.iolist e ≠ some j

theorem UeState.Good.presentIo (h : s.Good) (he : e ∈ s.mux.iolist) : gone (.io e) s.log = false := by
  rw [Bool.eq_false_iff]
  intro hg
  have hm := (h.iomux e).1 he
  rw [h.io e hg] at hm
  cases hm

theorem head?_some {suf : List ℕ} (h : some e = suf.head?) : ∃ rest, suf = e :: rest := by
  cases suf with
  | nil => cases h
  | cons a rest =>
    cases h
    exact ⟨rest,rfl⟩

theorem after_iolist {pre rest : List ℕ} (h : s.Good) (hi : s.mux.iolist = pre ++ e :: rest) :
    after s.mux.iolist e = rest.head? := by
  have hn := h.ionodup
  rw [hi] at hn ⊢
  exact after_append hn

theorem nextIo_eq {pre rest : List ℕ} (h : s.Good) (hi : s.mux.iolist = pre ++ e :: rest) : nextIo s e = rest.head? := by
  rw [nextIo,if_pos (by rw [hi]; simp),after_iolist h hi]

theorem filter_behind {p : ℕ → Bool} (pre rest : List ℕ) : ∃ pre', (pre ++ e :: rest).filter p = pre' ++ rest.filter p := by
  by_cases he : p e
  · exact ⟨pre.filter p ++ [e],by rw [List.filter_append,List.filter_cons_of_pos he,List.append_assoc]; rfl⟩
  · exact ⟨pre.filter p,by rw [List.filter_append,List.filter_cons_of_neg he]⟩

variable {ready : UeType → ℕ → Bool}

theorem ioTurn_idle (h : s.mux.done = true ∨ ready (s.io e).type (s.io e).fd = false) :
    ioTurn cb stray ready (s,some e) = some (.again (s,nextIo s e)) := by
  rw [ioTurn,iorun]
  cases hd : s.mux.done with
  | true => rfl
  | false =>
    rcases h with h | h
    · rw [hd] at h
      cases h
    · rw [if_neg (by decide),if_neg (by rw [h]; decide)]
      rfl

theorem iorun_ready (hd : s.mux.done = false) (hr : ready (s.io e).type (s.io e).fd) :
    iorun cb stray ready s e = (cbCall cb stray s (.io e)).map Prod.snd := by
  rw [iorun,if_neg (by rw [hd]; decide),if_pos hr]

variable (stray) in
theorem AtIo.step (h : AtIo n s (some e))
    (hc : s.mux.done = false → ready (s.io e).type (s.io e).fd → SparesIo cb s e) :
    ∃ s' m, ioTurn cb stray ready (s,some e) = some (.again (s',nextIo s e)) ∧ m < n ∧ AtIo m s' (nextIo s e) := by
  obtain ⟨hg,hdue,pre,suf,hi,hhead,hlen⟩ := h
  obtain ⟨rest,rfl⟩ := head?_some hhead
  have hnext := nextIo_eq hg hi
  rw [List.length_cons] at hlen
  by_cases hidle : s.mux.done = true ∨ ready (s.io e).type (s.io e).fd = false
  · exact ⟨s,rest.length,ioTurn_idle hidle,by omega,hg,hdue,pre ++ [e],rest,by rw [hi,List.append_assoc]; rfl,hnext,rfl⟩
  · rw [not_or,Bool.not_eq_true,Bool.not_eq_false] at hidle
    obtain ⟨hdone,hready⟩ := hidle
    have hgone : gone (.io e) s.log = false := hg.presentIo (by rw [hi]; simp)
    obtain ⟨r,hr,hidle'⟩ := cbCall_idle cb stray ⟨hg,hdue hdone⟩ hgone
    obtain ⟨hg',hl⟩ := cbCall_good hg hgone hr
    obtain ⟨p,hp,hkeep⟩ := hl.iolist
    have hhd : (rest.filter p).head? = rest.head? := head?_filter fun j hj => hkeep j fun hm => by
      refine hc hdone hready j hm ?_
      rw [after_iolist hg hi]
      exact hj
    obtain ⟨pre',hpre'⟩ := filter_behind (p := p) (e := e) pre rest
    have hle := List.length_filter_le p rest
    refine ⟨r.2,(rest.filter p).length,?_,by omega,hg',fun _ => hidle'.due,pre',rest.filter p,?_,by rw [hnext,hhd],rfl⟩
    · rw [ioTurn,iorun_ready hdone hready,hr]
      rfl
    · rw [hp,hi,hpre']

theorem iorun_log (h : iorun cb stray ready s e = some s') : s.log <:+ s'.log := by
  rw [iorun] at h
  split at h
  · cases h
    exact List.suffix_refl _
  split at h
  · obtain ⟨r,hr,rfl⟩ := Option.map_eq_some_iff.1 h
    exact (List.suffix_cons _ _).trans (cbCall_log hr)
  · cases h
    exact List.suffix_refl _

theorem ioLoop_log {f : ℕ} {p : Option ℕ} (h : loop (ioTurn cb stray ready) f (s,p) = some s') : s.log <:+ s'.log :=
  ioLoop_rel (R := fun s t => s.log <:+ t.log) (fun _ => List.suffix_refl _) (fun _ _ _ => List.IsSuffix.trans)
    (fun _ _ _ => iorun_log) h

theorem ioLoop_gone {f : ℕ} (hg : gone (.io e) s.log) (hi : e ∉ s.mux.iolist)
    (h : loop (ioTurn cb stray ready) f (s,some e) = some s') : ¬Clean s'.log := by
  have hnext : nextIo s e = some e := by rw [nextIo,if_neg hi]
  by_cases hidle : s.mux.done = true ∨ ready (s.io e).type (s.io e).fd = false
  · rw [loop_stuck (by rw [ioTurn_idle hidle,hnext])] at h
    cases h
  · rw [not_or,Bool.not_eq_true,Bool.not_eq_false] at hidle
    cases f with
    | zero => cases h
    | succ f =>
      have hrun : iorun cb stray ready s e = _ := iorun_ready hidle.1 hidle.2
      cases ht : cbCall cb stray s (.io e) with
      | none => rw [loop_none (by rw [ioTurn,hrun,ht]; rfl)] at h; cases h
      | some r =>
        have hturn : ioTurn cb stray ready (s,some e) = some (.again (r.2,nextIo s e)) := by rw [ioTurn,hrun,ht]; rfl
        rw [loop_again hturn] at h
        intro hc
        have hran := hc.suffix ((cbCall_log ht).trans (ioLoop_log h))
        rw [hran.1] at hg
        cases hg

theorem AtIo.rash {f : ℕ} (h : AtIo n s (some e)) (hdone : s.mux.done = false) (hready : ready (s.io e).type (s.io e).fd)
    (hc : ¬SparesIo cb s e) (hr : loop (ioTurn cb stray ready) f (s,some e) = some s') : ¬Clean s'.log := by
  obtain ⟨hg,hdue,pre,suf,hi,hhead,hlen⟩ := h
  obtain ⟨rest,rfl⟩ := head?_some hhead
  have hgone : gone (.io e) s.log = false := hg.presentIo (by rw [hi]; simp)
  cases f with
  | zero => cases hr
  | succ f =>
    obtain ⟨r,ht,-⟩ := cbCall_idle cb stray ⟨hg,hdue hdone⟩ hgone
    have hturn : ioTurn cb stray ready (s,some e) = some (.again (r.2,nextIo s e)) := by
      rw [ioTurn,iorun_ready hdone hready,ht]
      rfl
    rw [loop_again hturn,nextIo_eq hg hi] at hr
    rw [SparesIo,not_forall] at hc
    obtain ⟨j,hj⟩ := hc
    rw [Classical.not_imp,not_not,after_iolist hg hi] at hj
    obtain ⟨hmem,hj⟩ := hj
    have hreg : (s.io j).mux := (hg.iomux j).1 (by rw [hi]; simp [List.mem_of_head? hj])
    have hjg : gone (.io j) r.2.log := acts_cancel_io (cbCall_some ht) hmem hreg
    have hoff : j ∉ r.2.mux.iolist := by
      intro hm
      rw [(cbCall_good hg hgone ht).1.presentIo hm] at hjg
      cases hjg
    rw [hj] at hr
    exact ioLoop_gone hjg hoff hr

/-! ## ue_next -/

/-- `ue_next` gives the due timer `k` its turn in the state `t`. -/
def TimerCalled (cb : Callbacks σ) (stray : List (ℕ × List ℕ) → ℤ) (r : Report) (s t : UeState σ) (k : ℕ) : Prop :=
  s.mux.done = false ∧ r.eintr = false ∧ tmGez (dlFirst s.mux.timers) = true ∧ t.mux.done = false ∧
    ∃ s1, afterSignals cb stray r s = some s1 ∧
      Reaches (timerTurn cb stray) (dlAdvance s1 r.delta,front (keys (dlAdvance s1 r.delta).due)) (t,.timer k)

/-- `ue_next` calls the callback of the I/O event `e` in the state `t`. -/
def IoCalled (cb : Callbacks σ) (stray : List (ℕ × List ℕ) → ℤ) (r : Report) (s t : UeState σ) (e : ℕ) : Prop :=
  s.mux.done = false ∧ r.eintr = false ∧ t.mux.done = false ∧ r.ready (t.io e).type (t.io e).fd = true ∧
    ∃ s1 fuel s2, afterSignals cb stray r s = some s1 ∧
      runTimers cb stray r (tmGez (dlFirst s.mux.timers)) fuel s1 = some s2 ∧
      Reaches (ioTurn cb stray r.ready) (s2,s2.mux.iolist.head?) (t,some e)

/-- No callback cancels the due timer behind its own or the last due timer that waits, and
none the I/O event behind its own. -/
def Careful (cb : Callbacks σ) (stray : List (ℕ × List ℕ) → ℤ) (r : Report) (s : UeState σ) : Prop :=
  (∀ t k, TimerCalled cb stray r s t k → SparesTimer cb t k) ∧ ∀ t e, IoCalled cb stray r s t e → SparesIo cb t e

/-- After the timers none waits, unless the mux was stopped. -/
structure UeState.Served (s : UeState σ) : Prop where
  good : s.Good
  due : s.mux.done = false → s.due = []

/-- The condition on a turn at a timer. -/
def TimerOk (cb : Callbacks σ) (t : UeState σ × LNode) : Prop := ∀ k, t.2 = .timer k → t.1.mux.done = false → SparesTimer cb t.1 k

/-- The condition on a turn at an I/O event. -/
def IoOk (cb : Callbacks σ) (ready : UeType → ℕ → Bool) (t : UeState σ × Option ℕ) : Prop :=
  ∀ e, t.2 = some e → t.1.mux.done = false → ready (t.1.io e).type (t.1.io e).fd → SparesIo cb t.1 e

variable (cb stray) in
theorem timer_turns : ∀ n (t : UeState σ × LNode), AtTimer n t.1 t.2 → TimerOk cb t →
    (∃ t' m, timerTurn cb stray t = some (.again t') ∧ m < n ∧ AtTimer m t'.1 t'.2) ∨
      ∃ u, timerTurn cb stray t = some (.leave u) ∧ u.Served := by
  rintro n ⟨t,p⟩ h hok
  cases p with
  | out =>
    refine Or.inr ⟨t,rfl,h.good,fun hdone => ?_⟩
    obtain ⟨-,pre,suf,hd,hpre,hfront,-⟩ := h
    have hsuf : suf = [] := by
      cases suf with
      | nil => rfl
      | cons a suf => cases hfront
    have hnil : pre = [] := by
      by_contra hne
      have := hpre hne
      rw [hdone] at this
      cases this
    rw [hsuf,hnil] at hd
    exact List.map_eq_nil_iff.1 hd
  | mux =>
    obtain ⟨-,pre,suf,-,-,hfront,-⟩ := h
    cases suf with
    | nil => cases hfront
    | cons a suf => cases hfront
  | timer k =>
    obtain ⟨t',m,ht,hm,h'⟩ := h.step stray (hok k rfl)
    exact Or.inl ⟨(t',_),m,ht,hm,h'⟩

variable (cb stray) in
theorem io_turns (ready : UeType → ℕ → Bool) : ∀ n (t : UeState σ × Option ℕ), AtIo n t.1 t.2 → IoOk cb ready t →
    (∃ t' m, ioTurn cb stray ready t = some (.again t') ∧ m < n ∧ AtIo m t'.1 t'.2) ∨
      ∃ u, ioTurn cb stray ready t = some (.leave u) ∧ u.Served := by
  rintro n ⟨t,p⟩ h hok
  cases p with
  | none => exact Or.inr ⟨t,rfl,h.good,h.due⟩
  | some e =>
    obtain ⟨t',m,ht,hm,h'⟩ := h.step stray (hok e rfl)
    exact Or.inl ⟨(t',_),m,ht,hm,h'⟩

theorem UeState.Idle.atTimer (h : s.Idle) (d : CatTime) :
    AtTimer (keys (dlAdvance s d).due).length (dlAdvance s d) (front (keys (dlAdvance s d).due)) := by
  have hsplit := keys_dlAdv s d
  have hnd := h.good.nodup
  have htr := h.good.treg
  rw [h.due,hsplit] at hnd htr
  exact ⟨⟨hnd,htr,h.good.ionodup,h.good.iomux,h.good.fdtab,h.good.timer,h.good.io,h.good.sig,h.good.clean⟩,
    [],_,rfl,fun hne => absurd rfl hne,rfl,rfl⟩

theorem UeState.Served.atIo (h : s.Served) : AtIo s.mux.iolist.length s s.mux.iolist.head? :=
  ⟨h.good,h.due,[],_,rfl,rfl,rfl⟩

theorem runTimers_true {r : Report} {f : ℕ} : runTimers cb stray r true f s =
    loop (timerTurn cb stray) f (dlAdvance s r.delta,front (keys (dlAdvance s r.delta).due)) := rfl

variable (cb stray) in
theorem runTimers_careful (r : Report) (tvp : Bool) (h : s.Idle)
    (hok : tvp = true → ∀ t, Reaches (timerTurn cb stray) (dlAdvance s r.delta,front (keys (dlAdvance s r.delta).due)) t →
      TimerOk cb t) : ∃ fuel s', runTimers cb stray r tvp fuel s = some s' ∧ s'.Served := by
  cases tvp with
  | false => exact ⟨0,s,rfl,h.good,fun _ => h.due⟩
  | true =>
    obtain ⟨s',hs,hq⟩ := loop_asked (timer_turns cb stray) (h.atTimer r.delta) (hok rfl) (Nat.lt_succ_self _)
    exact ⟨_,s',runTimers_true.trans hs,hq⟩

theorem runTimers_grows {r : Report} {tvp : Bool} {f f' : ℕ} (hf : f ≤ f') :
    Grows (runTimers cb stray r tvp f s) (runTimers cb stray r tvp f' s) := by
  cases tvp with
  | false => exact .refl _
  | true => exact loop_grows hf _

theorem runTimers_clean {r : Report} {tvp : Bool} {f : ℕ} (h : s.Idle) (hr : runTimers cb stray r tvp f s = some s')
    (hc : Clean s'.log) : s'.Served ∧ (tvp = true →
      ∀ t, Reaches (timerTurn cb stray) (dlAdvance s r.delta,front (keys (dlAdvance s r.delta).due)) t → TimerOk cb t) := by
  have hok : tvp = true → ∀ t, Reaches (timerTurn cb stray)
      (dlAdvance s r.delta,front (keys (dlAdvance s r.delta).due)) t → TimerOk cb t := by
    rintro rfl t ht
    refine (Reaches.asked (C := fun u => Clean u.log) (timer_turns cb stray) ?_ (h.atTimer r.delta) hr hc ht).1
    rintro n ⟨u,p⟩ f' u' hu hno hl
    rw [TimerOk,not_forall] at hno
    obtain ⟨k,hk⟩ := hno
    rw [Classical.not_imp,Classical.not_imp] at hk
    obtain ⟨rfl,hdone,hk⟩ := hk
    exact hu.rash hdone hk hl
  obtain ⟨f',s2,hs2,hserved⟩ := runTimers_careful cb stray r tvp h hok
  obtain rfl : s' = s2 := Grows.agree (f := fun f => runTimers cb stray r tvp f s) (fun _ _ hf => runTimers_grows hf) hr hs2
  exact ⟨hserved,hok⟩

theorem ueNext_done {r : Report} {f : ℕ} (h : s.mux.done = true) : ueNext cb stray r f s = some s := if_pos h

theorem ueNext_eintr {r : Report} {f : ℕ} (h : s.mux.done = false) (he : r.eintr = true) :
    ueNext cb stray r f s = afterSignals cb stray r s := by
  rw [ueNext,if_neg (by rw [h]; decide)]
  cases h1 : afterSignals cb stray r s with
  | none => rfl
  | some s1 => exact if_pos he

theorem ueNext_run {r : Report} {f : ℕ} {s1 : UeState σ} (h : s.mux.done = false) (he : r.eintr = false)
    (h1 : afterSignals cb stray r s = some s1) :
    ueNext cb stray r f s = (runTimers cb stray r (tmGez (dlFirst s.mux.timers)) f s1).bind fun s2 =>
      loop (ioTurn cb stray r.ready) f (s2,s2.mux.iolist.head?) := by
  rw [ueNext,if_neg (by rw [h]; decide),h1,Option.bind_some,if_neg (by rw [he]; decide)]

theorem ueNext_grows {r : Report} {f f' : ℕ} (hf : f ≤ f') : Grows (ueNext cb stray r f s) (ueNext cb stray r f' s) := by
  refine .ite (.refl _) (.bind (.refl _) fun s1 => .ite (.refl _) (.bind (runTimers_grows hf) fun s2 => loop_grows hf _))

theorem ueNext_careful (r : Report) (h : s.Idle) (hc : Careful cb stray r s) :
    ∃ fuel s', ueNext cb stray r fuel s = some s' ∧ s'.Served := by
  cases hdone : s.mux.done with
  | true => exact ⟨0,s,ueNext_done hdone,h.good,fun _ => h.due⟩
  | false =>
    obtain ⟨s1,h1,hi1⟩ := afterSignals_idle cb stray r h
    cases he : r.eintr with
    | true => exact ⟨0,s1,(ueNext_eintr hdone he).trans h1,hi1.good,fun _ => hi1.due⟩
    | false =>
      obtain ⟨f2,s2,h2,hs2⟩ := runTimers_careful cb stray r (tmGez (dlFirst s.mux.timers)) hi1 (by
        rintro htv ⟨t,p⟩ ht k rfl hd
        exact hc.1 t k ⟨hdone,he,htv,hd,s1,h1,ht⟩)
      obtain ⟨s3,h3,hs3⟩ := loop_asked (io_turns cb stray r.ready) hs2.atIo (by
        rintro ⟨t,p⟩ ht e rfl hd hready
        exact hc.2 t e ⟨hdone,he,hd,hready,s1,f2,s2,h1,h2,ht⟩) (Nat.lt_succ_self _)
      refine ⟨max f2 (s2.mux.iolist.length + 1),s3,?_,hs3⟩
      rw [ueNext_run hdone he h1,runTimers_grows (Nat.le_max_left _ _) s2 h2,Option.bind_some]
      exact loop_grows (Nat.le_max_right _ _) _ s3 h3

theorem ueNext_clean {r : Report} {f : ℕ} (h : s.Idle) (hr : ueNext cb stray r f s = some s') (hc : Clean s'.log) :
    Careful cb stray r s := by
  have hrun : s.mux.done = false → r.eintr = false → ∀ s1, afterSignals cb stray r s = some s1 →
      ∃ s2, runTimers cb stray r (tmGez (dlFirst s.mux.timers)) f s1 = some s2 ∧
        loop (ioTurn cb stray r.ready) f (s2,s2.mux.iolist.head?) = some s' ∧ s1.Idle ∧ Clean s2.log := by
    intro hdone he s1 h1
    rw [ueNext_run hdone he h1] at hr
    obtain ⟨s2,h2,h3⟩ := Option.bind_eq_some_iff.1 hr
    obtain ⟨s1',h1',hi⟩ := afterSignals_idle cb stray r h
    rw [h1] at h1'
    cases h1'
    exact ⟨s2,h2,h3,hi,hc.suffix (ioLoop_log h3)⟩
  constructor
  · rintro t k ⟨hdone,he,htv,hd,s1,h1,ht⟩
    obtain ⟨s2,h2,-,hi,hc2⟩ := hrun hdone he s1 h1
    exact (runTimers_clean hi h2 hc2).2 htv _ ht k rfl hd
  · rintro t e ⟨hdone,he,hd,hready,s1,f',s2',h1,h2',ht⟩
    obtain ⟨s2,h2,h3,hi,hc2⟩ := hrun hdone he s1 h1
    obtain rfl : s2' = s2 := Grows.agree (f := fun f => runTimers cb stray r (tmGez (dlFirst s.mux.timers)) f s1)
      (fun _ _ hf => runTimers_grows hf) h2' h2
    refine (Reaches.asked (C := fun u => Clean u.log) (io_turns cb stray r.ready) ?_ (runTimers_clean hi h2 hc2).1.atIo h3 hc ht).1
      e rfl hd hready
    rintro n ⟨u,p⟩ f'' u' hu hno hl
    rw [IoOk,not_forall] at hno
    obtain ⟨j,hj⟩ := hno
    rw [Classical.not_imp,Classical.not_imp,Classical.not_imp] at hj
    obtain ⟨rfl,hd',hready',hj⟩ := hj
    exact hu.rash hd' hready' hj hl

/-! ## Any history -/

/-- What a mux can be before a call: registrations of what is not registered, cancellations,
and earlier calls with careful callbacks that did not stop the mux. -/
inductive Setup (stray : List (ℕ × List ℕ) → ℤ) : UeState σ → Prop
  | init (tm : ℕ → UeTimer) (io : ℕ → UeIoevent) (sigtab : ℕ → Option (List ℕ)) (client : σ)
      (htm : ∀ k, (tm k).treg = false) (hio : ∀ e, (io e).mux = false) :
      Setup stray ⟨ueInit sigtab,tm,io,[],client,[]⟩
  | tmReg {s : UeState σ} (h : Setup stray s) (k : ℕ) (ttl : CatTime) (hk : k ∉ keys s.mux.timers.timers) :
      Setup stray (ueTmReg s k ttl)
  | ioReg {s : UeState σ} (h : Setup stray s) (e : ℕ) (he : (s.io e).mux = false) : Setup stray (ueIoReg s e)
  | cancel {s s' : UeState σ} (h : Setup stray s) (a : UeAct) (ha : act stray s a = some s') : Setup stray s'
  | next {s s' : UeState σ} (h : Setup stray s) (cb : Callbacks σ) (r : Report) (f : ℕ) (hc : Careful cb stray r s)
      (hr : ueNext cb stray r f s = some s') (hdone : s'.mux.done = false) : Setup stray s'

theorem UeState.Idle.tmReg (h : s.Idle) (ttl : CatTime) (hk : k ∉ keys s.mux.timers.timers) : (ueTmReg s k ttl).Idle := by
  have hp : (keys (insWalk k ttl s.mux.timers.timers)).Perm (k :: keys s.mux.timers.timers) := keys_insWalk k ttl _
  have hnd := h.good.nodup
  have htr := h.good.treg
  rw [h.due] at hnd htr
  refine ⟨⟨?_,fun j hj => ?_,h.good.ionodup,h.good.iomux,h.good.fdtab,fun j hj => ?_,h.good.io,h.good.sig,h.good.clean⟩,h.due⟩
  · show (keys s.due ++ keys (insWalk k ttl s.mux.timers.timers)).Nodup
    rw [h.due]
    exact hp.nodup_iff.2 (List.nodup_cons.2 ⟨hk,hnd⟩)
  · have hj' : j ∈ keys s.due ++ keys (insWalk k ttl s.mux.timers.timers) := hj
    rw [h.due] at hj'
    show (Function.update s.tm k _ j).treg
    by_cases hjk : j = k
    · rw [hjk,Function.update_self]
    · rw [Function.update_of_ne hjk]
      rcases List.mem_cons.1 (hp.mem_iff.1 hj') with hj' | hj'
      · exact absurd hj' hjk
      · exact htr j hj'
  · show (Function.update s.tm k _ j).treg = false
    by_cases hjk : j = k
    · have hg : gone (.timer j) (.registered (.timer k) :: s.log) = true := hj
      rw [hjk,gone_registered_self] at hg
      cases hg
    · rw [Function.update_of_ne hjk]
      exact h.good.timer j ((gone_registered_ne (fun hk => hjk (UeEvent.timer.inj hk).symm) _).symm.trans hj)

theorem UeState.Idle.ioReg (h : s.Idle) (he : (s.io e).mux = false) : (ueIoReg s e).Idle := by
  have hout : e ∉ s.mux.iolist := fun hm => by
    rw [(h.good.iomux e).1 hm] at he
    cases he
  refine ⟨⟨h.good.nodup,h.good.treg,List.nodup_cons.2 ⟨hout,h.good.ionodup⟩,fun e' => ?_,fun e' he' => ?_,h.good.timer,
    fun e' he' => ?_,h.good.sig,h.good.clean⟩,h.due⟩
  · show e' ∈ e :: s.mux.iolist ↔ (Function.update s.io e _ e').mux
    by_cases hee : e' = e
    · rw [hee,Function.update_self]
      simp
    · rw [Function.update_of_ne hee,List.mem_cons,or_iff_right hee,h.good.iomux]
  · show ∃ l, (fdPut (s.io e).fd (e :: (s.mux.fdtab.lookup (s.io e).fd).getD []) s.mux.fdtab).lookup
      (Function.update s.io e { s.io e with mux := true } e').fd = some l ∧ e' ∈ l
    rw [lookup_fdPut]
    by_cases hee : e' = e
    · rw [hee,Function.update_self,if_pos rfl]
      exact ⟨_,rfl,List.mem_cons_self⟩
    · have hm : (Function.update s.io e { s.io e with mux := true } e').mux := he'
      rw [Function.update_of_ne hee] at hm ⊢
      obtain ⟨l,hl,hmem⟩ := h.good.fdtab e' hm
      split
      · rename_i hfd
        rw [hfd] at hl
        rw [hl]
        exact ⟨_,rfl,List.mem_cons_of_mem _ hmem⟩
      · exact ⟨l,hl,hmem⟩
  · show (Function.update s.io e _ e').mux = false
    by_cases hee : e' = e
    · have hg : gone (.io e') (.registered (.io e) :: s.log) = true := he'
      rw [hee,gone_registered_self] at hg
      cases hg
    · rw [Function.update_of_ne hee]
      exact h.good.io e' ((gone_registered_ne (fun hk => hee (UeEvent.io.inj hk).symm) _).symm.trans he')

theorem Setup.idle (h : Setup stray s) : s.Idle := by
  induction h with
  | init tm io sigtab client htm hio =>
    exact ⟨⟨List.nodup_nil,nofun,List.nodup_nil,fun e => by simp [ueInit, hio],fun e he => by simp [hio] at he,nofun,nofun,
      fun _ => rfl,trivial⟩,rfl⟩
  | tmReg _ k ttl hk ih => exact ih.tmReg ttl hk
  | ioReg _ e he ih => exact ih.ioReg he
  | cancel _ a ha ih =>
    obtain ⟨hg,hl⟩ := act_good ih.good ha
    obtain ⟨p,hp,-⟩ := hl.due
    rw [ih.due] at hp
    exact ⟨hg,List.map_eq_nil_iff.1 hp⟩
  | next _ cb r f hc hr hdone ih =>
    obtain ⟨f',s2,hs2,hserved⟩ := ueNext_careful r ih hc
    have heq := Grows.agree (f := fun f => ueNext cb stray r f _) (fun _ _ hf => ueNext_grows hf) hr hs2
    rw [heq] at hdone ⊢
    exact ⟨hserved.good,hserved.due hdone⟩

/-- A call comes back without a callback for what was gone exactly when its callbacks are
careful. -/
theorem ueNext_safe (h : Setup stray s) (r : Report) :
    (∃ fuel s', ueNext cb stray r fuel s = some s' ∧ Clean s'.log) ↔ Careful cb stray r s := by
  constructor
  · rintro ⟨f,s',hr,hc⟩
    exact ueNext_clean h.idle hr hc
  · intro hc
    obtain ⟨f,s',hr,hs⟩ := ueNext_careful r h.idle hc
    exact ⟨f,s',hr,hs.good.clean⟩

/-- Two I/O events on the descriptors 5 and 6, the first in front of the second. -/
def pair : UeState Unit :=
  ueIoReg (ueIoReg ⟨ueInit fun _ => none,fun _ => ⟨false,false,0⟩,fun e => ⟨e + 5,.rd,false⟩,[],(),[]⟩ 1) 0

/-- The first of two events cancels the second. -/
def cancelNext : Callbacks Unit := fun e _ => (if e = .io 0 then [.ioCancel 1] else [],0,())

/-- Everything is ready, no signal was caught. -/
def allReady : Report := ⟨fun _ _ => true,false,(0,0),(0,0),fun _ => false,-1⟩

theorem tmGez_empty (head : CatTime) : tmGez (dlFirst ⟨head,[]⟩) = false := by
  have hn : tmNormalize ⟨-1,-1⟩ = ⟨-1,-1⟩ := by
    rw [tmNormalize,carry_of (by decide) (Or.inr (by decide)),borrow,dif_neg (by decide)]
  rw [dlFirst,tmLset,tmGez,tmLtz,hn,hn]
  rfl

theorem pair_setup (stray : List (ℕ × List ℕ) → ℤ) : Setup stray pair :=
  .ioReg (.ioReg (.init _ _ _ _ (fun _ => rfl) fun _ => rfl) 1 rfl) 0 rfl

theorem ueNext_safe_pair : (∃ fuel s', ueNext cancelNext (fun _ => 0) allReady fuel pair = some s' ∧ Clean s'.log) ↔
    Careful cancelNext (fun _ => 0) allReady pair := ueNext_safe (pair_setup _) allReady

/-- Two ready I/O events of which the first cancels the second: no call comes back clean. -/
theorem ueNext_unsafe : ¬∃ fuel s', ueNext cancelNext (fun _ => 0) allReady fuel pair = some s' ∧ Clean s'.log := by
  rintro ⟨f,s',hr,hc⟩
  have hcareful := ueNext_clean (pair_setup fun _ => 0).idle hr hc
  refine hcareful.2 pair 0 ⟨rfl,rfl,rfl,rfl,pair,0,pair,rfl,?_,.refl⟩ 1 (by simp [cancelNext]) rfl
  have htvp : tmGez (dlFirst pair.mux.timers) = false := tmGez_empty _
  rw [htvp]
  rfl

end Catlib.Uevent
