import Catlib.Event.Registered

/-! # Signals between the calls of ue_next

The handler adds a signal to a set and raises a maximum. A call of `ue_next` takes both and
puts back the maximum alone, so a signal that was dispatched once is dispatched again with the
next higher one.
-/
namespace Catlib.Uevent

variable {σ : Type} {cb : Callbacks σ} {stray : List (ℕ × List ℕ) → ℤ} {s s' : UeState σ}

/-- `uemux_sset` and `uemux_maxsig`. -/
structure Signals where
  sset : ℕ → Bool
  maxsig : ℤ

def ueHandler (signum : ℕ) (w : Signals) : Signals :=
  ⟨Function.update w.sset signum true,if (signum : ℤ) > w.maxsig then signum else w.maxsig⟩

/-- `ue_sig_clear`, and what the first `ue_init` does. -/
def ueSigClear : Signals := ⟨fun _ => false,-1⟩

/-- `sigismember`, which fails on 0. -/
def sigismember (set : ℕ → Bool) (i : ℕ) : ℤ := if i = 0 then -1 else if set i then 1 else 0

/-- What a call of `ue_next` finds caught. -/
def collect (r : Report) (w : Signals) : Report := { r with fired := fun i => sigismember w.sset i ≠ 0, maxsig := w.maxsig }

def ueNextSignals (cb : Callbacks σ) (stray : List (ℕ × List ℕ) → ℤ) (r : Report) (fuel : ℕ) (w : Signals) (s : UeState σ) :
    Option (Signals × UeState σ) :=
  if s.mux.done then some (w,s)
  else (ueNext cb stray (collect r w) fuel s).map fun s' => ({ w with maxsig := -1 },s')

/-! ## Notes of a call -/

/-- The signals whose handlers were run, newest first. -/
def signals : List Note → List ℕ
  | [] => []
  | .signal i :: l => i :: signals l
  | .ran _ :: l => signals l
  | .registered _ :: l => signals l
  | .cancelled _ :: l => signals l

/-- Nothing about signals happens, and a stop stays. -/
structure Quiet (s s' : UeState σ) : Prop where
  signals : signals s'.log = signals s.log
  sigtab : s'.mux.sigtab = s.mux.sigtab
  done : s.mux.done = true → s'.mux.done = true

theorem Quiet.refl (s : UeState σ) : Quiet s s := ⟨rfl,rfl,id⟩

theorem Quiet.trans {s'' : UeState σ} (h : Quiet s s') (h' : Quiet s' s'') : Quiet s s'' :=
  ⟨h'.signals.trans h.signals,h'.sigtab.trans h.sigtab,fun hd => h'.done (h.done hd)⟩

theorem act_quiet {a : UeAct} (ha : act stray s a = some s') : Quiet s s' := by
  cases a with
  | tmCancel k =>
    rcases ueTmCancel_cases ha with ⟨-,rfl⟩ | ⟨-,-,rfl⟩
    · exact .refl _
    · exact ⟨rfl,rfl,id⟩
  | ioCancel e =>
    rcases ueIoCancel_cases ha with ⟨-,rfl⟩ | ⟨-,l,-,rfl⟩
    · exact .refl _
    · exact ⟨rfl,rfl,id⟩
  | stop =>
    cases ha
    exact ⟨rfl,rfl,fun _ => rfl⟩

theorem acts_quiet {acts : List UeAct} (ha : acts.foldlM (act stray) s = some s') : Quiet s s' := by
  induction acts generalizing s with
  | nil =>
    cases ha
    exact .refl _
  | cons a acts ih =>
    rw [List.foldlM_cons] at ha
    obtain ⟨s1,h1,h2⟩ := Option.bind_eq_some_iff.1 ha
    exact (act_quiet h1).trans (ih h2)

theorem cbCall_quiet {x : UeEvent} {r : ℤ × UeState σ} (hr : cbCall cb stray s x = some r) : Quiet s r.2 := by
  obtain ⟨h1,h2,h3⟩ := acts_quiet (cbCall_some hr)
  exact ⟨h1,h2,h3⟩

theorem cbRun_quiet {l : List ℕ} (h : cbRun cb stray l s = some s') : Quiet s s' := by
  induction l generalizing s with
  | nil =>
    cases h
    exact .refl _
  | cons g l ih =>
    rw [cbRun] at h
    obtain ⟨r,hr,h⟩ := Option.bind_eq_some_iff.1 h
    split at h
    · cases h
      exact cbCall_quiet hr
    · exact (cbCall_quiet hr).trans (ih h)

theorem tdispatch_quiet {k : ℕ} (h : tdispatch cb stray s k = some s') : Quiet s s' := by
  rw [tdispatch] at h
  split at h
  · cases h
    exact .refl _
  · obtain ⟨r,hr,rfl⟩ := Option.map_eq_some_iff.1 h
    have hq : Quiet s (requeue s k) := by
      rw [requeue]
      dsimp only
      split
      · exact ⟨rfl,rfl,id⟩
      · exact ⟨rfl,rfl,id⟩
    exact hq.trans (cbCall_quiet hr)

theorem iorun_quiet {ready : UeType → ℕ → Bool} {e : ℕ} (h : iorun cb stray ready s e = some s') : Quiet s s' := by
  rw [iorun] at h
  split at h
  · cases h
    exact .refl _
  split at h
  · obtain ⟨r,hr,rfl⟩ := Option.map_eq_some_iff.1 h
    exact cbCall_quiet hr
  · cases h
    exact .refl _

theorem runTimers_quiet {r : Report} {tvp : Bool} {f : ℕ} (h : runTimers cb stray r tvp f s = some s') : Quiet s s' := by
  rw [runTimers] at h
  split at h
  · have hadv : Quiet s (dlAdvance s r.delta) := ⟨rfl,rfl,id⟩
    exact hadv.trans (timerLoop_rel .refl (fun _ _ _ => .trans) (fun _ _ _ => tdispatch_quiet) h)
  · cases h
    exact .refl _

theorem ioLoop_quiet {ready : UeType → ℕ → Bool} {f : ℕ} {p : Option ℕ} (h : loop (ioTurn cb stray ready) f (s,p) = some s') :
    Quiet s s' := ioLoop_rel .refl (fun _ _ _ => .trans) (fun _ _ _ => iorun_quiet) h

/-- The signals of a list that were caught and have handlers. -/
def caught (s : UeState σ) (fired : ℕ → Bool) (l : List ℕ) : List ℕ := l.filter fun i => fired i && (s.mux.sigtab i).isSome

theorem sigHandlers_signals {fired : ℕ → Bool} {l : List ℕ} (h : sigHandlers cb stray fired l s = some s') :
    s'.mux.sigtab = s.mux.sigtab ∧
      (s'.mux.done = false → s.mux.done = false ∧ signals s'.log = (caught s fired l).reverse ++ signals s.log) := by
  induction l generalizing s with
  | nil =>
    cases h
    exact ⟨rfl,fun hd => ⟨hd,rfl⟩⟩
  | cons i l ih =>
    rw [sigHandlers] at h
    cases hdone : s.mux.done with
    | true =>
      rw [if_pos hdone] at h
      cases h
      exact ⟨rfl,fun hd => by rw [hdone] at hd; cases hd⟩
    | false =>
      rw [if_neg (by rw [hdone]; decide)] at h
      cases hf : fired i with
      | false =>
        rw [hf] at h
        obtain ⟨hs,hrest⟩ := ih h
        refine ⟨hs,fun hd => ⟨rfl,?_⟩⟩
        rw [caught,List.filter_cons_of_neg (by rw [hf]; simp)]
        exact (hrest hd).2
      | true =>
        rw [hf] at h
        cases ht : s.mux.sigtab i with
        | none =>
          rw [ht] at h
          obtain ⟨hs,hrest⟩ := ih h
          refine ⟨hs,fun hd => ⟨rfl,?_⟩⟩
          rw [caught,List.filter_cons_of_neg (by rw [ht]; simp)]
          exact (hrest hd).2
        | some list =>
          rw [ht] at h
          obtain ⟨s1,h1,h2⟩ := Option.bind_eq_some_iff.1 h
          obtain ⟨hq,hqt,hqd⟩ := cbRun_quiet h1
          obtain ⟨hs,hrest⟩ := ih h2
          have htab : s1.mux.sigtab = s.mux.sigtab := hqt
          refine ⟨hs.trans htab,fun hd => ⟨rfl,?_⟩⟩
          have hsig : signals s1.log = i :: signals s.log := hq
          rw [(hrest hd).2,hsig,caught,caught,List.filter_cons_of_pos (by rw [hf,ht]; rfl),htab,List.reverse_cons,
            List.append_assoc]
          rfl

/-! ## Histories -/

inductive SigEvent
  | delivered (i : ℕ)
  | collected

/-- The signal was delivered since the signals were last collected; newest first. -/
def Fresh (i : ℕ) : List SigEvent → Prop
  | [] => False
  | .delivered j :: t => j = i ∨ Fresh i t
  | .collected :: _ => False

/-- A history of deliveries and of calls of `ue_next`; between them the client does with the
mux what it likes. A signal that is delivered during a call counts after the collection. -/
inductive SigRun (stray : List (ℕ × List ℕ) → ℤ) : List SigEvent → Signals → UeState σ → Prop
  | init (s : UeState σ) : SigRun stray [] ueSigClear s
  | deliver {t : List SigEvent} {w : Signals} {s : UeState σ} (h : SigRun stray t w s) (i : ℕ) :
      SigRun stray (.delivered i :: t) (ueHandler i w) s
  | next {t : List SigEvent} {w w' : Signals} {s s' : UeState σ} (h : SigRun stray t w s) (cb : Callbacks σ) (r : Report)
      (fuel : ℕ) (hd : s.mux.done = false) (hn : ueNextSignals cb stray r fuel w s = some (w',s')) :
      SigRun stray (.collected :: t) w' s'
  | client {t : List SigEvent} {w : Signals} {s : UeState σ} (h : SigRun stray t w s) (s' : UeState σ) : SigRun stray t w s'

variable {t : List SigEvent} {w w' : Signals}

theorem Fresh.mem {i : ℕ} (h : Fresh i t) : .delivered i ∈ t := by
  induction t with
  | nil => cases h
  | cons x t ih =>
    cases x with
    | delivered j =>
      rcases h with rfl | h
      · exact List.mem_cons_self
      · exact List.mem_cons_of_mem _ (ih h)
    | collected => cases h

/-- The set holds every signal that was ever delivered, the maximum is that of the fresh ones. -/
structure Pending (t : List SigEvent) (w : Signals) : Prop where
  sset : ∀ i, w.sset i = true ↔ .delivered i ∈ t
  le : ∀ i, Fresh i t → (i : ℤ) ≤ w.maxsig
  maxsig : (∃ i, Fresh i t ∧ (i : ℤ) = w.maxsig) ∨ (∀ i, ¬Fresh i t) ∧ w.maxsig = -1

theorem Pending.deliver (h : Pending t w) (i : ℕ) : Pending (.delivered i :: t) (ueHandler i w) := by
  have hmax : (ueHandler i w).maxsig = max (i : ℤ) w.maxsig := by
    show (if (i : ℤ) > w.maxsig then (i : ℤ) else w.maxsig) = _
    split
    · exact (max_eq_left (by omega)).symm
    · exact (max_eq_right (by omega)).symm
  refine ⟨fun j => ?_,fun j hj => ?_,Or.inl ?_⟩
  · show Function.update w.sset i true j = true ↔ _
    rw [List.mem_cons]
    by_cases hji : j = i
    · rw [hji,Function.update_self]
      exact ⟨fun _ => Or.inl rfl,fun _ => rfl⟩
    · rw [Function.update_of_ne hji,h.sset]
      exact ⟨Or.inr,fun ho => ho.resolve_left fun he => hji (SigEvent.delivered.inj he)⟩
  · rw [hmax]
    rcases hj with rfl | hj
    · exact le_max_left _ _
    · exact (h.le j hj).trans (le_max_right _ _)
  · rw [hmax]
    rcases h.maxsig with ⟨j,hj,he⟩ | ⟨-,he⟩
    · rcases le_total (i : ℤ) w.maxsig with hle | hle
      · exact ⟨j,Or.inr hj,by rw [max_eq_right hle,he]⟩
      · exact ⟨i,Or.inl rfl,(max_eq_left hle).symm⟩
    · exact ⟨i,Or.inl rfl,by rw [he]; exact (max_eq_left (by omega)).symm⟩

theorem SigRun.pending (h : SigRun stray t w s) : Pending t w := by
  induction h with
  | init s => exact ⟨fun i => ⟨nofun,nofun⟩,nofun,Or.inr ⟨fun i => id,rfl⟩⟩
  | deliver _ i ih => exact ih.deliver i
  | next _ cb r fuel hd hn ih =>
    rw [ueNextSignals,if_neg (by rw [hd]; decide)] at hn
    obtain ⟨s',-,he⟩ := Option.map_eq_some_iff.1 hn
    cases he
    refine ⟨fun i => ?_,nofun,Or.inr ⟨fun i => id,rfl⟩⟩
    rw [List.mem_cons,or_iff_right nofun]
    exact ih.sset i
  | client _ s' ih => exact ih

/-- The call ran the handlers of a signal exactly when it was delivered since the last call. -/
def RunsFresh (t : List SigEvent) (s s' : UeState σ) : Prop :=
  ∃ l, signals s'.log = l ++ signals s.log ∧ ∀ i, 0 < i → (s.mux.sigtab i).isSome = true → (i ∈ l ↔ Fresh i t)

theorem ueNext_signals {r : Report} {fuel : ℕ} (hs : ueNext cb stray r fuel s = some s') (hd : s.mux.done = false)
    (hd' : s'.mux.done = false) : ∃ l, signals s'.log = l ++ signals s.log ∧
      ∀ i, i ∈ l ↔ (i : ℤ) ≤ r.maxsig ∧ r.fired i = true ∧ (s.mux.sigtab i).isSome = true := by
  rw [ueNext,if_neg (by rw [hd]; decide)] at hs
  obtain ⟨s1,h1,h2⟩ := Option.bind_eq_some_iff.1 hs
  have hq : Quiet s1 s' := by
    split at h2
    · cases h2
      exact .refl _
    · obtain ⟨s2,hs2,hs3⟩ := Option.bind_eq_some_iff.1 h2
      exact (runTimers_quiet hs2).trans (ioLoop_quiet hs3)
  have hd1 : s1.mux.done = false := by
    rw [Bool.eq_false_iff]
    intro h
    rw [hq.done h] at hd'
    cases hd'
  rw [afterSignals] at h1
  split at h1
  · have hl := ((sigHandlers_signals h1).2 hd1).2
    refine ⟨_,hq.signals.trans hl,fun i => ?_⟩
    rw [List.mem_reverse,caught,List.mem_filter,List.mem_range,Bool.and_eq_true]
    exact and_congr_left fun _ => by omega
  · cases h1
    exact ⟨[],hq.signals,fun i => ⟨nofun,fun h => by omega⟩⟩

/-- In any history, a call that is not stopped runs the handlers of exactly the signals that
were delivered since the last one if and only if no signal with handlers was dispatched before
and lies below one of these without being one of them. -/
theorem ueNext_runsFresh (h : SigRun stray t w s) (cb : Callbacks σ) (r : Report) (fuel : ℕ) (hd : s.mux.done = false)
    (hn : ueNextSignals cb stray r fuel w s = some (w',s')) (hd' : s'.mux.done = false) :
    RunsFresh t s s' ↔ ∀ i j, 0 < i → (s.mux.sigtab i).isSome = true → .delivered i ∈ t → Fresh j t → i ≤ j → Fresh i t := by
  obtain ⟨hset,hle,hmax⟩ := h.pending
  rw [ueNextSignals,if_neg (by rw [hd]; decide)] at hn
  obtain ⟨s2,hs2,he⟩ := Option.map_eq_some_iff.1 hn
  cases he
  obtain ⟨l,hl,hmem⟩ := ueNext_signals hs2 hd hd'
  have hrun : ∀ i, 0 < i → (s.mux.sigtab i).isSome = true → (i ∈ l ↔ .delivered i ∈ t ∧ ∃ j, Fresh j t ∧ i ≤ j) := by
    intro i hi htab
    rw [hmem]
    show (i : ℤ) ≤ w.maxsig ∧ decide (sigismember w.sset i ≠ 0) = true ∧ _ ↔ _
    rw [sigismember,if_neg (by omega),htab,← hset]
    constructor
    · rintro ⟨hi',hfired,-⟩
      have hin : w.sset i = true := by
        by_contra hno
        rw [if_neg hno] at hfired
        exact absurd hfired (by decide)
      rcases hmax with ⟨j,hj,hje⟩ | ⟨-,hm⟩
      · exact ⟨hin,j,hj,by omega⟩
      · omega
    · rintro ⟨hin,j,hj,hij⟩
      have := hle j hj
      exact ⟨by omega,by rw [if_pos hin]; rfl,rfl⟩
  constructor
  · rintro ⟨l',hl',hfresh⟩ i j hi htab hin hj hij
    have hll : l' = l := List.append_cancel_right (hl'.symm.trans hl)
    rw [← hfresh i hi htab,hll,hrun i hi htab]
    exact ⟨hin,j,hj,hij⟩
  · intro hall
    refine ⟨l,hl,fun i hi htab => ?_⟩
    rw [hrun i hi htab]
    exact ⟨fun ⟨hin,j,hj,hij⟩ => hall i j hi htab hin hj hij,fun hf => ⟨hf.mem,i,hf,le_refl _⟩⟩

/-- Signals 2 and 15 have one handler each. -/
def twoSignals : UeState Unit :=
  ⟨ueInit fun i => if i = 2 then some [0] else if i = 15 then some [1] else none,fun _ => ⟨false,false,0⟩,
    fun _ => ⟨0,.rd,false⟩,[],(),[]⟩

/-- Handlers that do nothing. -/
def noCalls : Callbacks Unit := fun _ _ => ([],0,())

/-- `select` was interrupted. -/
def interrupted : Report := ⟨fun _ _ => false,true,(0,0),(0,0),fun _ => false,-1⟩

/-- What a call with signal 2 caught leaves of the mux. -/
def afterTwo : UeState Unit := { twoSignals with log := [.ran (.sig 0),.signal 2] }

theorem twoSignals_start (stray : List (ℕ × List ℕ) → ℤ) : SigRun stray [.delivered 2] (ueHandler 2 ueSigClear) twoSignals :=
  .deliver (.init twoSignals) 2

theorem ueNext_runsFresh_first : RunsFresh [.delivered 2] twoSignals afterTwo ↔
    ∀ i j, 0 < i → (twoSignals.mux.sigtab i).isSome = true → .delivered i ∈ [SigEvent.delivered 2] →
      Fresh j [.delivered 2] → i ≤ j → Fresh i [.delivered 2] :=
  ueNext_runsFresh (twoSignals_start fun _ => 0) noCalls interrupted 0 rfl rfl rfl

/-- Signal 2 was dispatched by an earlier call; when 15 is delivered the handlers of both run. -/
theorem ueNext_replays : ∃ w' s', ueNextSignals noCalls (fun _ => 0) interrupted 0
      (ueHandler 15 { ueHandler 2 ueSigClear with maxsig := -1 }) afterTwo = some (w',s') ∧
    s'.mux.done = false ∧ ¬RunsFresh [.delivered 15,.collected,.delivered 2] afterTwo s' := by
  refine ⟨_,_,rfl,rfl,?_⟩
  rintro ⟨l,hl,hall⟩
  have hl' : [15,2] ++ signals afterTwo.log = l ++ signals afterTwo.log := hl
  obtain rfl := List.append_cancel_right hl'
  rcases (hall 2 (by decide) rfl).1 (by decide) with h | h
  · cases h
  · exact h

end Catlib.Uevent
