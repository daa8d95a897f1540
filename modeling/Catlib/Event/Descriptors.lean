import Catlib.Event.Registered

/-! # Descriptors of registered events

Registering and cancelling keeps three sets, a table with a list for each descriptor, and the
highest descriptor. When the last event of the highest descriptor goes, `fdmax` looks for the
next one in the wrong structure.
-/
namespace Catlib.Uevent

variable {σ : Type} {stray : List (ℕ × List ℕ) → ℤ} {s s' : UeState σ} {e e' fd : ℕ} {type : UeType}

def ueIoInit (s : UeState σ) (e fd : ℕ) (type : UeType) : UeState σ :=
  { s with io := Function.update s.io e ⟨fd,type,false⟩ }

inductive IoOp
  | reg (e fd : ℕ) (type : UeType)
  | cancel (e : ℕ)

/-- One call of a client, which initialises and registers only what is not registered. -/
def ioStep (stray : List (ℕ × List ℕ) → ℤ) (s : UeState σ) : IoOp → Option (UeState σ)
  | .reg e fd type => if (s.io e).mux then none else some (ueIoReg (ueIoInit s e fd type) e)
  | .cancel e => ueIoCancel stray s e

/-- The sets, the maximum and the table say what is registered. -/
structure IoConsistent (s : UeState σ) : Prop where
  set : ∀ type fd, s.mux.set type fd = true ↔ ∃ e, (s.io e).mux = true ∧ (s.io e).fd = fd ∧ (s.io e).type = type
  le : ∀ e, (s.io e).mux = true → ((s.io e).fd : ℤ) ≤ s.mux.maxfd
  maxfd : (∃ e, (s.io e).mux = true ∧ ((s.io e).fd : ℤ) = s.mux.maxfd) ∨ (∀ e, (s.io e).mux = false) ∧ s.mux.maxfd = -1
  fdtab : ∀ fd, (s.mux.fdtab.lookup fd).isSome = true ↔ ∃ e, (s.io e).mux = true ∧ (s.io e).fd = fd

/-- The call does not cancel the only event of the highest descriptor while other descriptors
have events. -/
def KeepsMax (s : UeState σ) : IoOp → Prop
  | .reg _ _ _ => True
  | .cancel e => (s.io e).mux = true → (∃ e', e' ≠ e ∧ (s.io e').mux = true) →
      ∃ e', e' ≠ e ∧ (s.io e').mux = true ∧ (s.io e).fd ≤ (s.io e').fd

/-- Each list of the table holds the events of its descriptor. -/
structure IoTable (s : UeState σ) : Prop where
  listed : ∀ fd l, s.mux.fdtab.lookup fd = some l →
    l ≠ [] ∧ l.Nodup ∧ ∀ e, e ∈ l ↔ (s.io e).mux = true ∧ (s.io e).fd = fd
  absent : ∀ fd, s.mux.fdtab.lookup fd = none → ∀ e, (s.io e).mux = true → (s.io e).fd ≠ fd

theorem IoTable.fdtab (h : IoTable s) (fd : ℕ) :
    (s.mux.fdtab.lookup fd).isSome = true ↔ ∃ e, (s.io e).mux = true ∧ (s.io e).fd = fd := by
  cases hl : s.mux.fdtab.lookup fd with
  | none => exact ⟨nofun,fun ⟨e,hm,hf⟩ => absurd hf (h.absent fd hl e hm)⟩
  | some l =>
    obtain ⟨hne,-,hmem⟩ := h.listed fd l hl
    obtain ⟨e,he⟩ := List.exists_mem_of_ne_nil l hne
    exact ⟨fun _ => ⟨e,(hmem e).1 he⟩,fun _ => rfl⟩

theorem IoTable.list (h : IoTable s) (hm : (s.io e).mux = true) : ∃ l, s.mux.fdtab.lookup (s.io e).fd = some l := by
  cases hl : s.mux.fdtab.lookup (s.io e).fd with
  | none => exact absurd rfl (h.absent _ hl e hm)
  | some l => exact ⟨l,rfl⟩

/-! ## Registration -/

/-- The state after an event is initialised and registered. -/
def regState (s : UeState σ) (e fd : ℕ) (type : UeType) : UeState σ := ueIoReg (ueIoInit s e fd type) e

theorem ueIoInit_self : (ueIoInit s e fd type).io e = ⟨fd,type,false⟩ := Function.update_self _ _ _

theorem regState_self : (regState s e fd type).io e = ⟨fd,type,true⟩ := by
  simp only [regState, ueIoReg, ueIoInit_self]
  exact Function.update_self _ _ _

theorem regState_ne (h : e' ≠ e) : (regState s e fd type).io e' = s.io e' := by
  show Function.update (Function.update s.io e _) e _ e' = _
  rw [Function.update_of_ne h,Function.update_of_ne h]

theorem regState_fdtab :
    (regState s e fd type).mux.fdtab = fdPut fd (e :: (s.mux.fdtab.lookup fd).getD []) s.mux.fdtab := by
  simp only [regState, ueIoReg, ueIoInit_self]
  rfl

theorem regState_set : (regState s e fd type).mux.set = fdSet s.mux.set type fd true := by
  simp only [regState, ueIoReg, ueIoInit_self]
  rfl

theorem regState_maxfd : (regState s e fd type).mux.maxfd = max (fd : ℤ) s.mux.maxfd := by
  simp only [regState, ueIoReg, ueIoInit_self]
  rfl

theorem regState_exists (he : (s.io e).mux = false) (p : UeIoevent → Prop) :
    (∃ e', ((regState s e fd type).io e').mux = true ∧ p ((regState s e fd type).io e')) ↔
      p ⟨fd,type,true⟩ ∨ ∃ e', (s.io e').mux = true ∧ p (s.io e') := by
  constructor
  · rintro ⟨e',hm,hp⟩
    by_cases h : e' = e
    · rw [h,regState_self] at hp
      exact Or.inl hp
    · rw [regState_ne h] at hm hp
      exact Or.inr ⟨e',hm,hp⟩
  · rintro (hp | ⟨e',hm,hp⟩)
    · exact ⟨e,by rw [regState_self],by rw [regState_self]; exact hp⟩
    · have h : e' ≠ e := by
        rintro rfl
        rw [he] at hm
        cases hm
      exact ⟨e',by rw [regState_ne h]; exact hm,by rw [regState_ne h]; exact hp⟩

theorem fdSet_apply {set : UeType → ℕ → Bool} {b : Bool} (t : UeType) (n : ℕ) :
    fdSet set type fd b t n = if t = type ∧ n = fd then b else set t n := rfl

theorem regState_table (h : IoTable s) (he : (s.io e).mux = false) : IoTable (regState s e fd type) := by
  constructor
  · intro n l hl
    rw [regState_fdtab,lookup_fdPut] at hl
    by_cases hn : n = fd
    · subst hn
      rw [if_pos rfl] at hl
      cases hl
      have hold : (s.mux.fdtab.lookup n).getD [] |>.Nodup := by
        cases hl : s.mux.fdtab.lookup n with
        | none => exact List.nodup_nil
        | some l => exact (h.listed n l hl).2.1
      have hmem : ∀ e', e' ∈ (s.mux.fdtab.lookup n).getD [] ↔ (s.io e').mux = true ∧ (s.io e').fd = n := by
        intro e'
        cases hl : s.mux.fdtab.lookup n with
        | none => exact ⟨nofun,fun hm => absurd hm.2 (h.absent n hl e' hm.1)⟩
        | some l => exact (h.listed n l hl).2.2 e'
      have hout : e ∉ (s.mux.fdtab.lookup n).getD [] := fun hm => by
        have hreg := ((hmem e).1 hm).1
        rw [he] at hreg
        cases hreg
      refine ⟨List.cons_ne_nil _ _,List.nodup_cons.2 ⟨hout,hold⟩,fun e' => ?_⟩
      rw [List.mem_cons]
      by_cases hee : e' = e
      · rw [hee,regState_self]
        exact ⟨fun _ => ⟨rfl,rfl⟩,fun _ => Or.inl rfl⟩
      · rw [or_iff_right hee,regState_ne hee,hmem]
    · rw [if_neg hn] at hl
      obtain ⟨hne,hnd,hmem⟩ := h.listed n l hl
      refine ⟨hne,hnd,fun e' => ?_⟩
      rw [hmem]
      by_cases hee : e' = e
      · rw [hee,regState_self,he]
        exact ⟨fun hm => (nomatch hm.1),fun hm => absurd hm.2.symm hn⟩
      · rw [regState_ne hee]
  · intro n hl e' hm
    rw [regState_fdtab,lookup_fdPut] at hl
    by_cases hn : n = fd
    · rw [if_pos hn] at hl
      cases hl
    · rw [if_neg hn] at hl
      by_cases hee : e' = e
      · rw [hee,regState_self]
        exact fun hf => hn hf.symm
      · rw [regState_ne hee] at hm ⊢
        exact h.absent n hl e' hm

theorem regState_consistent (h : IoConsistent s) (ht : IoTable s) (he : (s.io e).mux = false) :
    IoConsistent (regState s e fd type) := by
  refine ⟨fun t n => ?_,fun e' hm => ?_,Or.inl ?_,(regState_table ht he).fdtab⟩
  · rw [regState_exists he fun io => io.fd = n ∧ io.type = t,regState_set,fdSet_apply]
    split
    · rename_i htn
      exact ⟨fun _ => Or.inl ⟨htn.2.symm,htn.1.symm⟩,fun _ => rfl⟩
    · rename_i htn
      rw [h.set]
      exact ⟨Or.inr,fun ho => ho.resolve_left fun hc => htn ⟨hc.2.symm,hc.1.symm⟩⟩
  · rw [regState_maxfd]
    by_cases hee : e' = e
    · rw [hee,regState_self]
      exact le_max_left _ _
    · rw [regState_ne hee] at hm ⊢
      exact (h.le e' hm).trans (le_max_right _ _)
  · rw [regState_exists he fun io => (io.fd : ℤ) = (regState s e fd type).mux.maxfd,regState_maxfd]
    rcases h.maxfd with ⟨e',hm,hf⟩ | ⟨-,hnone⟩
    · rcases le_total (fd : ℤ) s.mux.maxfd with hle | hle
      · exact Or.inr ⟨e',hm,by rw [max_eq_right hle,hf]⟩
      · exact Or.inl (max_eq_left hle).symm
    · exact Or.inl (by rw [hnone]; exact (max_eq_left (by omega)).symm)

/-! ## Cancellation -/

variable {l : List ℕ}

theorem ioOff_self : (ioOff stray s e l).io e = { s.io e with mux := false } := Function.update_self _ _ _

theorem ioOff_ne (h : e' ≠ e) : (ioOff stray s e l).io e' = s.io e' := Function.update_of_ne h _ _

theorem ioOff_exists (p : UeIoevent → Prop) :
    (∃ e', ((ioOff stray s e l).io e').mux = true ∧ p ((ioOff stray s e l).io e')) ↔
      ∃ e', e' ≠ e ∧ (s.io e').mux = true ∧ p (s.io e') := by
  constructor
  · rintro ⟨e',hm,hp⟩
    have h : e' ≠ e := by
      rintro rfl
      rw [ioOff_self] at hm
      cases hm
    rw [ioOff_ne h] at hm hp
    exact ⟨e',h,hm,hp⟩
  · rintro ⟨e',h,hm,hp⟩
    exact ⟨e',by rw [ioOff_ne h]; exact hm,by rw [ioOff_ne h]; exact hp⟩

theorem ioOff_mux (hm : ((ioOff stray s e l).io e').mux = true) : e' ≠ e ∧ (s.io e').mux = true := by
  have h : e' ≠ e := by
    rintro rfl
    rw [ioOff_self] at hm
    cases hm
  rw [ioOff_ne h] at hm
  exact ⟨h,hm⟩

theorem ioOff_fdtab : (ioOff stray s e l).mux.fdtab =
    if l.erase e = [] then fdDel (s.io e).fd s.mux.fdtab else fdPut (s.io e).fd (l.erase e) s.mux.fdtab := rfl

theorem ioOff_maxfd : (ioOff stray s e l).mux.maxfd =
    if l.erase e = [] ∧ (s.io e).fd = s.mux.maxfd then fdmax stray (ioOff stray s e l).mux.fdtab else s.mux.maxfd := rfl

theorem ioOff_set : (ioOff stray s e l).mux.set =
    if (l.erase e).any fun e' => (s.io e').type = (s.io e).type then s.mux.set
    else fdSet s.mux.set (s.io e).type (s.io e).fd false := rfl

theorem lookup_fdDel_self (fd : ℕ) (tab : List (ℕ × List ℕ)) : (fdDel fd tab).lookup fd = none := by
  rw [List.lookup_eq_none_iff]
  intro x hx
  have hne := (List.mem_filter.1 hx).2
  simp only [ne_eq, decide_eq_true_eq] at hne
  exact bne_iff_ne.2 (Ne.symm hne)

theorem IoTable.erase (h : IoTable s) (hl : s.mux.fdtab.lookup (s.io e).fd = some l) :
    (l.erase e).Nodup ∧ ∀ e', e' ∈ l.erase e ↔ e' ≠ e ∧ (s.io e').mux = true ∧ (s.io e').fd = (s.io e).fd := by
  obtain ⟨-,hnd,hmem⟩ := h.listed _ l hl
  refine ⟨hnd.sublist List.erase_sublist,fun e' => ?_⟩
  rw [hnd.mem_erase_iff,hmem]

theorem ioOff_table (h : IoTable s) (hl : s.mux.fdtab.lookup (s.io e).fd = some l) : IoTable (ioOff stray s e l) := by
  obtain ⟨hnd,hmem⟩ := h.erase hl
  constructor
  · intro n l' hl'
    rw [ioOff_fdtab] at hl'
    by_cases hn : n = (s.io e).fd
    · subst hn
      by_cases hnil : l.erase e = []
      · rw [if_pos hnil,lookup_fdDel_self] at hl'
        cases hl'
      · rw [if_neg hnil,lookup_fdPut,if_pos rfl] at hl'
        cases hl'
        refine ⟨hnil,hnd,fun e' => ?_⟩
        rw [hmem]
        constructor
        · rintro ⟨hne,hm,hf⟩
          rw [ioOff_ne hne]
          exact ⟨hm,hf⟩
        · rintro ⟨hm,hf⟩
          obtain ⟨hne,hm⟩ := ioOff_mux hm
          rw [ioOff_ne hne] at hf
          exact ⟨hne,hm,hf⟩
    · have hl' : s.mux.fdtab.lookup n = some l' := by
        split at hl'
        · rwa [lookup_fdDel hn] at hl'
        · rwa [lookup_fdPut,if_neg hn] at hl'
      obtain ⟨hne,hnd',hmem'⟩ := h.listed n l' hl'
      refine ⟨hne,hnd',fun e' => ?_⟩
      rw [hmem']
      by_cases hee : e' = e
      · rw [hee,ioOff_self]
        exact ⟨fun hm => absurd hm.2.symm hn,fun hm => (nomatch hm.1)⟩
      · rw [ioOff_ne hee]
  · intro n hl' e' hm
    obtain ⟨hne,hm⟩ := ioOff_mux hm
    rw [ioOff_ne hne]
    rw [ioOff_fdtab] at hl'
    by_cases hn : n = (s.io e).fd
    · subst hn
      by_cases hnil : l.erase e = []
      · intro hf
        have hin := (hmem e').2 ⟨hne,hm,hf⟩
        rw [hnil] at hin
        cases hin
      · rw [if_neg hnil,lookup_fdPut,if_pos rfl] at hl'
        cases hl'
    · refine h.absent n ?_ e' hm
      split at hl'
      · rwa [lookup_fdDel hn] at hl'
      · rwa [lookup_fdPut,if_neg hn] at hl'

theorem ioOff_sets (h : IoConsistent s) (ht : IoTable s) (hm : (s.io e).mux = true)
    (hl : s.mux.fdtab.lookup (s.io e).fd = some l) (t : UeType) (n : ℕ) :
    (ioOff stray s e l).mux.set t n = true ↔
      ∃ e', ((ioOff stray s e l).io e').mux = true ∧ ((ioOff stray s e l).io e').fd = n ∧
        ((ioOff stray s e l).io e').type = t := by
  obtain ⟨-,hmem⟩ := ht.erase hl
  rw [ioOff_exists fun io => io.fd = n ∧ io.type = t,ioOff_set]
  by_cases hany : ((l.erase e).any fun e' => (s.io e').type = (s.io e).type) = true
  · rw [if_pos hany,h.set]
    constructor
    · rintro ⟨e',hm',hf,ht'⟩
      by_cases hee : e' = e
      · -- another event with the descriptor and the type takes its place
        obtain ⟨e2,h2,ht2⟩ := List.any_eq_true.1 hany
        obtain ⟨hne,hm2,hf2⟩ := (hmem e2).1 h2
        rw [decide_eq_true_eq] at ht2
        rw [hee] at hf ht'
        exact ⟨e2,hne,hm2,hf2.trans hf,ht2.trans ht'⟩
      · exact ⟨e',hee,hm',hf,ht'⟩
    · rintro ⟨e',-,h'⟩
      exact ⟨e',h'⟩
  · rw [if_neg hany,fdSet_apply]
    by_cases htn : t = (s.io e).type ∧ n = (s.io e).fd
    · rw [if_pos htn]
      refine ⟨nofun,?_⟩
      rintro ⟨e',hne,hm',hf,ht'⟩
      refine absurd (List.any_eq_true.2 ⟨e',(hmem e').2 ⟨hne,hm',hf.trans htn.2⟩,?_⟩) hany
      rw [decide_eq_true_eq]
      exact ht'.trans htn.1
    · rw [if_neg htn,h.set]
      constructor
      · rintro ⟨e',hm',hf,ht'⟩
        refine ⟨e',?_,hm',hf,ht'⟩
        rintro rfl
        exact htn ⟨ht'.symm,hf.symm⟩
      · rintro ⟨e',-,h'⟩
        exact ⟨e',h'⟩

theorem ioOff_empty (ht : IoTable s) (hl : s.mux.fdtab.lookup (s.io e).fd = some l)
    (hno : ∀ e', e' ≠ e → (s.io e').mux = false) : l.erase e = [] ∧ fdDel (s.io e).fd s.mux.fdtab = [] := by
  constructor
  · rw [List.eq_nil_iff_forall_not_mem]
    intro e' he'
    obtain ⟨hne,hm,-⟩ := ((ht.erase hl).2 e').1 he'
    rw [hno e' hne] at hm
    cases hm
  · rw [fdDel,List.filter_eq_nil_iff]
    rintro ⟨n,l'⟩ hx hn
    simp only [ne_eq, decide_eq_true_eq] at hn
    cases hl' : s.mux.fdtab.lookup n with
    | none =>
      rw [List.lookup_eq_none_iff] at hl'
      exact absurd rfl (bne_iff_ne.1 (hl' _ hx))
    | some l2 =>
      obtain ⟨hne,-,hmem⟩ := ht.listed n l2 hl'
      obtain ⟨e2,he2⟩ := List.exists_mem_of_ne_nil l2 hne
      obtain ⟨hm,hf⟩ := (hmem e2).1 he2
      by_cases hee : e2 = e
      · rw [hee] at hf
        exact hn hf.symm
      · rw [hno e2 hee] at hm
        cases hm

theorem ioOff_consistent (h : IoConsistent s) (ht : IoTable s) (hm : (s.io e).mux = true)
    (hl : s.mux.fdtab.lookup (s.io e).fd = some l) (hk : KeepsMax s (.cancel e)) : IoConsistent (ioOff stray s e l) := by
  have hmem := (ht.erase hl).2
  -- the maximum is looked for only when no event is left
  have hmax : (∃ e', e' ≠ e ∧ (s.io e').mux = true) →
      (ioOff stray s e l).mux.maxfd = s.mux.maxfd ∧ ∃ e', e' ≠ e ∧ (s.io e').mux = true ∧ ((s.io e').fd : ℤ) = s.mux.maxfd := by
    intro hother
    obtain ⟨e',hne,hm',hle⟩ := hk hm hother
    have hle' := h.le e' hm'
    rcases h.maxfd with ⟨e2,hm2,hf2⟩ | ⟨hnone,-⟩
    · by_cases hee : e2 = e
      · -- the cancelled event is at the maximum, and so is another one
        rw [hee] at hf2
        have hfd : (s.io e').fd = (s.io e).fd := by omega
        have hin := (hmem e').2 ⟨hne,hm',hfd⟩
        refine ⟨?_,e',hne,hm',by omega⟩
        rw [ioOff_maxfd,if_neg fun hc => List.ne_nil_of_mem hin hc.1]
      · refine ⟨?_,e2,hee,hm2,hf2⟩
        rw [ioOff_maxfd]
        refine if_neg fun hc => ?_
        have hfd : (s.io e').fd = (s.io e).fd := by omega
        exact List.ne_nil_of_mem ((hmem e').2 ⟨hne,hm',hfd⟩) hc.1
    · rw [hnone e] at hm
      cases hm
  by_cases hother : ∃ e', e' ≠ e ∧ (s.io e').mux = true
  · obtain ⟨heq,e2,hne2,hm2,hf2⟩ := hmax hother
    refine ⟨ioOff_sets h ht hm hl,fun e' hm' => ?_,Or.inl ⟨e2,?_,?_⟩,(ioOff_table ht hl).fdtab⟩
    · obtain ⟨hne,hm'⟩ := ioOff_mux hm'
      rw [heq,ioOff_ne hne]
      exact h.le e' hm'
    · rw [ioOff_ne hne2]
      exact hm2
    · rw [ioOff_ne hne2,heq]
      exact hf2
  · have hno : ∀ e', e' ≠ e → (s.io e').mux = false := fun e' hne => by
      rw [Bool.eq_false_iff]
      exact fun hm' => hother ⟨e',hne,hm'⟩
    have hnone : ∀ e', ((ioOff stray s e l).io e').mux = false := by
      intro e'
      rw [Bool.eq_false_iff]
      intro hm'
      exact hother ⟨e',ioOff_mux hm'⟩
    obtain ⟨hnil,hdel⟩ := ioOff_empty ht hl hno
    refine ⟨ioOff_sets h ht hm hl,fun e' hm' => ?_,Or.inr ⟨hnone,?_⟩,(ioOff_table ht hl).fdtab⟩
    · rw [hnone e'] at hm'
      cases hm'
    · have hfd : ((s.io e).fd : ℤ) = s.mux.maxfd := by
        rcases h.maxfd with ⟨e2,hm2,hf2⟩ | ⟨hnone,-⟩
        · by_cases hee : e2 = e
          · rw [← hf2,hee]
          · rw [hno e2 hee] at hm2
            cases hm2
        · rw [hnone e] at hm
          cases hm
      rw [ioOff_maxfd,if_pos ⟨hnil,hfd⟩,ioOff_fdtab,if_pos hnil,hdel]
      rfl

/-! ## Runs -/

/-- A mux without I/O events, and its run with calls that keep the maximum. -/
inductive IoRun (stray : List (ℕ × List ℕ) → ℤ) : UeState σ → Prop
  | init (tm : ℕ → UeTimer) (io : ℕ → UeIoevent) (sigtab : ℕ → Option (List ℕ)) (client : σ)
      (hio : ∀ e, (io e).mux = false) : IoRun stray ⟨ueInit sigtab,tm,io,[],client,[]⟩
  | step {s s' : UeState σ} (h : IoRun stray s) (op : IoOp) (hk : KeepsMax s op) (hs : ioStep stray s op = some s') :
      IoRun stray s'

theorem ioStep_cases {op : IoOp} (hs : ioStep stray s op = some s') :
    (∃ e fd type, op = .reg e fd type ∧ (s.io e).mux = false ∧ s' = regState s e fd type) ∨
      ∃ e, op = .cancel e ∧ ((s.io e).mux = false ∧ s' = s ∨
        (s.io e).mux = true ∧ ∃ l, s.mux.fdtab.lookup (s.io e).fd = some l ∧ s' = ioOff stray s e l) := by
  cases op with
  | reg e fd type =>
    rw [ioStep] at hs
    split at hs
    · cases hs
    · rename_i hm
      cases hs
      exact Or.inl ⟨e,fd,type,rfl,Bool.eq_false_iff.2 hm,rfl⟩
  | cancel e => exact Or.inr ⟨e,rfl,ueIoCancel_cases hs⟩

theorem ioStep_consistent {op : IoOp} (h : IoConsistent s) (ht : IoTable s) (hk : KeepsMax s op)
    (hs : ioStep stray s op = some s') : IoConsistent s' ∧ IoTable s' := by
  rcases ioStep_cases hs with ⟨e,fd,type,rfl,hm,rfl⟩ | ⟨e,rfl,⟨-,rfl⟩ | ⟨hm,l,hl,rfl⟩⟩
  · exact ⟨regState_consistent h ht hm,regState_table ht hm⟩
  · exact ⟨h,ht⟩
  · exact ⟨ioOff_consistent h ht hm hl hk,ioOff_table ht hl⟩

theorem IoRun.invariant (h : IoRun stray s) : IoConsistent s ∧ IoTable s := by
  induction h with
  | init tm io sigtab client hio =>
    exact ⟨⟨fun t n => by simp [ueInit, hio],fun e hm => by simp [hio] at hm,Or.inr ⟨hio,rfl⟩,
      fun n => by simp [ueInit, hio]⟩,nofun,fun n _ e hm => by simp [hio] at hm⟩
  | step _ op hk hs ih => exact ioStep_consistent ih.1 ih.2 hk hs

theorem not_keepsMax {op : IoOp} (h : IoConsistent s) (ht : IoTable s) (hk : ¬KeepsMax s op) :
    ∃ s', ioStep (fun _ => -2) s op = some s' ∧ ¬IoConsistent s' := by
  cases op with
  | reg e fd type => exact absurd trivial hk
  | cancel e =>
    rw [KeepsMax,Classical.not_imp,Classical.not_imp] at hk
    obtain ⟨hm,⟨e2,hne2,hm2⟩,hno⟩ := hk
    obtain ⟨l,hl⟩ := ht.list hm
    have hlow : ∀ e', e' ≠ e → (s.io e').mux = true → (s.io e').fd < (s.io e).fd := fun e' hne hm' =>
      not_le.1 fun hle => hno ⟨e',hne,hm',hle⟩
    have hnil : l.erase e = [] := by
      rw [List.eq_nil_iff_forall_not_mem]
      intro e' he'
      obtain ⟨hne,hm',hf⟩ := ((ht.erase hl).2 e').1 he'
      have := hlow e' hne hm'
      omega
    have hfd : ((s.io e).fd : ℤ) = s.mux.maxfd := by
      rcases h.maxfd with ⟨e',hm',hf⟩ | ⟨hnone,-⟩
      · by_cases hee : e' = e
        · rw [← hf,hee]
        · have h1 := hlow e' hee hm'
          have h2 := h.le e hm
          omega
      · rw [hnone e] at hm
        cases hm
    refine ⟨ioOff (fun _ => -2) s e l,?_,fun hc => ?_⟩
    · show ueIoCancel _ s e = _
      rw [ueIoCancel,hm,hl]
      rfl
    · have hmax : (ioOff (fun _ => -2) s e l).mux.maxfd = -2 := by
        rw [ioOff_maxfd,if_pos ⟨hnil,hfd⟩,fdmax,if_neg]
        intro htab
        obtain ⟨l2,hl2⟩ := ht.list hm2
        have hlt := hlow e2 hne2 hm2
        rw [ioOff_fdtab,if_pos hnil] at htab
        have hgone : (fdDel (s.io e).fd s.mux.fdtab).lookup (s.io e2).fd = s.mux.fdtab.lookup (s.io e2).fd :=
          lookup_fdDel (by omega)
        rw [htab,hl2] at hgone
        cases hgone
      have hle := hc.le e2 (by rw [ioOff_ne hne2]; exact hm2)
      rw [hmax] at hle
      omega

/-- A mux without events. -/
def noEvents : UeState Unit := ⟨ueInit fun _ => none,fun _ => ⟨false,false,0⟩,fun _ => ⟨0,.rd,false⟩,[],(),[]⟩

theorem noEvents_run (stray : List (ℕ × List ℕ) → ℤ) : IoRun stray noEvents := .init _ _ _ _ fun _ => rfl

end Catlib.Uevent
