import Catlib.Timer.Dlist
import Mathlib.Data.List.Induction

/-! # Runs of the delta list

What a delta list is for: every timer has a deadline, the time of its last insertion or
update plus its time to live, and an advance of the clock releases the timers whose deadline
it reaches, the earlier ones first. Every run of the code keeps to this.
-/
namespace Catlib.Timer

inductive Op where
  | ins (node : ℕ) (ttl : CatTime)
  | adv (amt : CatTime)
  | rem (elem : ℕ)
  | update (elem : ℕ) (ttl : CatTime)

/-- One call, `dl_init` before `dl_ins` included: the released timers and the list. -/
def dlStep (dl : Dlist) : Op → Timers × Dlist
  | .ins node ttl => ([],dlIns dl node (startTtl ttl))
  | .adv amt => dlAdv dl amt
  | .rem elem => ([],dlRem dl elem)
  | .update elem ttl => ([],dlUpdate dl elem ttl)

def dlRun (ops : List Op) : Dlist := ops.foldl (fun dl op => (dlStep dl op).2) dlInit

/-- The nodes that a call after the run releases, in order. -/
def released (ops : List Op) (op : Op) : List ℕ := (dlStep (dlRun ops) op).1.map Prod.fst

/-! ## Deadlines -/

/-- The time since the start and the deadlines of the pending timers. -/
structure Agenda where
  now : ℤ
  due : ℕ → Option ℤ

def Agenda.step (a : Agenda) : Op → Agenda
  | .ins node ttl => { a with due := fun id => if id = node then some (a.now + ttl.value) else a.due id }
  | .adv amt =>
    { now := a.now + amt.value
      due := fun id => (a.due id).bind fun t => if t ≤ a.now + amt.value then none else some t }
  | .rem elem => { a with due := fun id => if id = elem then none else a.due id }
  | .update elem ttl => { a with due := fun id => if id = elem then some (a.now + ttl.value) else a.due id }

def agenda (ops : List Op) : Agenda := ops.foldl Agenda.step ⟨0,fun _ => none⟩

/-- The calls that a client may make: proper times, new timers on insertion, pending ones
on removal and update. -/
def Agenda.Allows (a : Agenda) : Op → Prop
  | .ins node ttl => ttl.Proper ∧ a.due node = none
  | .adv amt => amt.Proper
  | .rem elem => (a.due elem).isSome
  | .update elem ttl => ttl.Proper ∧ (a.due elem).isSome

/-- A run all of whose calls are allowed. -/
def Allowed (ops : List Op) : Prop := ∀ pre op post, ops = pre ++ op :: post → (agenda pre).Allows op

variable {ops pre mid : List Op} {op : Op} {a : Agenda} {dl : Dlist}

theorem Allowed.front (h : Allowed (pre ++ ops)) : Allowed pre :=
  fun p op q he => h p op (q ++ ops) (by rw [he]; simp)

theorem Allowed.last (h : Allowed (ops ++ [op])) : (agenda ops).Allows op := h ops op [] rfl

theorem agenda_concat : agenda (ops ++ [op]) = (agenda ops).step op := by
  rw [agenda,List.foldl_append]
  rfl

theorem dlRun_concat : dlRun (ops ++ [op]) = (dlStep (dlRun ops) op).2 := by
  rw [dlRun,List.foldl_append]
  rfl

/-! ## The code keeps the agenda -/

/-- The list holds the pending timers, and the remaining time of each is that to its deadline. -/
structure Tracks (dl : Dlist) (a : Agenda) : Prop where
  good : dl.timers.Good
  remaining : ∀ id, remaining dl.timers id = (a.due id).map (· - a.now)

/-- What a call releases: nothing, or the timers that the advance makes due, each once and the
earlier ones first. -/
structure Answers (a : Agenda) (op : Op) (out : List ℕ) : Prop where
  nodup : out.Nodup
  due : ∀ id, id ∈ out ↔ ∃ amt t, op = .adv amt ∧ a.due id = some t ∧ t ≤ a.now + amt.value
  order : out.Pairwise fun i j => ∀ t u, a.due i = some t → a.due j = some u → t ≤ u

theorem startTtl_proper {ttl : CatTime} (h : ttl.Proper) : startTtl ttl = ttl := by
  rw [startTtl,tmLtz_proper h]
  rfl

theorem Tracks.mem (h : Tracks dl a) {id : ℕ} : id ∈ dl.timers.map Prod.fst ↔ (a.due id).isSome := by
  rw [← remaining_isSome,h.remaining,Option.isSome_map]

theorem answers_quiet (hop : ∀ amt, op ≠ .adv amt) : Answers a op [] :=
  ⟨List.nodup_nil,fun _ => ⟨nofun,fun ⟨amt,_,h,_⟩ => absurd h (hop amt)⟩,List.Pairwise.nil⟩

theorem Tracks.ins (h : Tracks dl a) {node : ℕ} {ttl : CatTime} (ht : ttl.Proper) (hn : node ∉ dl.timers.map Prod.fst) :
    Tracks (dlIns dl node ttl) (a.step (.update node ttl)) := by
  obtain ⟨hg,hr⟩ := insWalk_spec h.good hn ht
  refine ⟨hg,fun id => (hr id).trans ?_⟩
  rw [h.remaining]
  simp only [Agenda.step]
  split
  · rw [Option.map_some]
    congr 1
    omega
  · rfl

theorem Tracks.rem (h : Tracks dl a) {elem : ℕ} (he : elem ∈ dl.timers.map Prod.fst) :
    Tracks (dlRem dl elem) (a.step (.rem elem)) ∧ elem ∉ (dlRem dl elem).timers.map Prod.fst := by
  obtain ⟨hg,hm,hr⟩ := dlRemAt_spec h.good he dl.head
  refine ⟨⟨hg,fun id => (hr id).trans ?_⟩,fun hid => ((hm elem).1 hid).1 rfl⟩
  rw [h.remaining]
  simp only [Agenda.step]
  split <;> rfl

theorem Tracks.adv (h : Tracks dl a) {amt : CatTime} (ht : amt.Proper) :
    Answers a (.adv amt) ((dlAdv dl amt).1.map Prod.fst) ∧ Tracks (dlAdv dl amt).2 (a.step (.adv amt)) := by
  obtain ⟨hg,hnd,hdue,hord,hrest⟩ := advWalk_spec h.good ht
  refine ⟨⟨hnd,fun id => (hdue id).trans ?_,hord.imp fun {i j} hij t u hi hj => ?_⟩,hg,fun id => (hrest id).trans ?_⟩
  · rw [h.remaining]
    constructor
    · rintro ⟨r,hr,hle⟩
      obtain ⟨t,ha,rfl⟩ := Option.map_eq_some_iff.1 hr
      exact ⟨amt,t,rfl,ha,by omega⟩
    · rintro ⟨amt',t,hop,ha,hle⟩
      cases hop
      exact ⟨t - a.now,by rw [ha]; rfl,by omega⟩
  · have := hij (t - a.now) (u - a.now) (by rw [h.remaining,hi]; rfl) (by rw [h.remaining,hj]; rfl)
    omega
  · rw [h.remaining]
    simp only [Agenda.step]
    cases a.due id with
    | none => rfl
    | some t =>
      rw [Option.map_some,Option.bind_some,Option.bind_some]
      by_cases hle : t ≤ a.now + amt.value
      · rw [if_pos (by omega),if_pos hle]
        rfl
      · rw [if_neg (by omega),if_neg hle,Option.map_some]
        congr 1
        omega

theorem dlStep_spec (h : Tracks dl a) (hop : a.Allows op) :
    Answers a op ((dlStep dl op).1.map Prod.fst) ∧ Tracks (dlStep dl op).2 (a.step op) := by
  cases op with
  | ins node ttl =>
    obtain ⟨ht,hn⟩ := hop
    refine ⟨answers_quiet (fun _ => nofun),?_⟩
    rw [dlStep,startTtl_proper ht]
    exact h.ins ht (by rw [h.mem,hn]; decide)
  | adv amt => exact h.adv hop
  | rem elem => exact ⟨answers_quiet (fun _ => nofun),(h.rem (h.mem.2 hop)).1⟩
  | update elem ttl =>
    obtain ⟨ht,he⟩ := hop
    obtain ⟨h1,h2⟩ := h.rem (h.mem.2 he)
    refine ⟨answers_quiet (fun _ => nofun),?_⟩
    rw [dlStep,dlUpdate,startTtl_proper ht]
    obtain ⟨hg,hr⟩ := h1.ins ht h2
    refine ⟨hg,fun id => (hr id).trans ?_⟩
    simp only [Agenda.step]
    split <;> rfl

theorem dlRun_tracks (h : Allowed ops) : Tracks (dlRun ops) (agenda ops) := by
  induction ops using List.reverseRecOn with
  | nil => exact ⟨⟨nofun,List.nodup_nil⟩,fun _ => rfl⟩
  | append_singleton ops op ih =>
    rw [dlRun_concat,agenda_concat]
    exact (dlStep_spec (ih h.front) h.last).2

/-! ## The first advance that reaches the deadline -/

/-- The time that the calls advance. -/
def advanced (ops : List Op) : ℤ :=
  (ops.map fun op => match op with | .adv amt => amt.value | _ => 0).sum

/-- The call gives the timer this time to live. -/
def Op.Sets (op : Op) (id : ℕ) (ttl : CatTime) : Prop := op = .ins id ttl ∨ op = .update id ttl

/-- The call is about another timer, or an advance. -/
def Op.Spares (op : Op) (id : ℕ) : Prop := ∀ ttl, op ≠ .ins id ttl ∧ op ≠ .rem id ∧ op ≠ .update id ttl

/-- Some advance among the calls reaches the time to live. -/
def Reached (ops : List Op) (ttl : ℤ) : Prop := ∃ pre amt post, ops = pre ++ .adv amt :: post ∧ ttl ≤ advanced pre + amt.value

def Op.isAdv : Op → Bool
  | .adv _ => true
  | _ => false

theorem now_run (ops : List Op) : (ops.foldl Agenda.step a).now = a.now + advanced ops := by
  induction ops generalizing a with
  | nil => simp [advanced]
  | cons op ops ih =>
    rw [List.foldl_cons,ih,advanced,advanced,List.map_cons,List.sum_cons]
    cases op <;> simp only [Agenda.step] <;> omega

theorem due_step {id : ℕ} (hs : op.Spares id) : (a.step op).due id =
    (a.due id).bind fun t => if op.isAdv ∧ t ≤ a.now + advanced [op] then none else some t := by
  cases op with
  | adv amt => simp [Agenda.step, advanced, Op.isAdv]
  | ins node ttl =>
    have : id ≠ node := fun e => (hs ttl).1 (by rw [e])
    simp [Agenda.step, Op.isAdv, this]
  | rem elem =>
    have : id ≠ elem := fun e => (hs tmZero).2.1 (by rw [e])
    simp [Agenda.step, Op.isAdv, this]
  | update elem ttl =>
    have : id ≠ elem := fun e => (hs ttl).2.2 (by rw [e])
    simp [Agenda.step, Op.isAdv, this]

theorem due_run_none {id : ℕ} (hs : ∀ op ∈ ops, op.Spares id) (h : a.due id = none) :
    (ops.foldl Agenda.step a).due id = none := by
  induction ops generalizing a with
  | nil => exact h
  | cons op ops ih =>
    refine ih (fun x hx => hs x (List.mem_cons_of_mem _ hx)) ?_
    rw [due_step (hs op List.mem_cons_self),h]
    rfl

theorem due_run {id : ℕ} {t : ℤ} (hs : ∀ op ∈ ops, op.Spares id) (h : a.due id = some t) :
    (ops.foldl Agenda.step a).due id = some t ∧ ¬Reached ops (t - a.now) ∨
      (ops.foldl Agenda.step a).due id = none ∧ Reached ops (t - a.now) := by
  induction ops generalizing a with
  | nil => exact Or.inl ⟨h,fun ⟨pre,amt,post,he,_⟩ => by simp at he⟩
  | cons op ops ih =>
    have hstep := due_step (a := a) (hs op List.mem_cons_self)
    have hrest := fun x hx => hs x (List.mem_cons_of_mem op hx)
    have hnow : (a.step op).now = a.now + advanced [op] := now_run [op]
    rw [h,Option.bind_some] at hstep
    rw [List.foldl_cons]
    -- the first advance that counts is this one or one behind it
    have hsplit : Reached (op :: ops) (t - a.now) ↔
        (op.isAdv ∧ t ≤ a.now + advanced [op]) ∨ Reached ops (t - (a.step op).now) := by
      constructor
      · rintro ⟨pre,amt,post,he,hle⟩
        cases pre with
        | nil =>
          cases he
          left
          refine ⟨rfl,?_⟩
          simp only [advanced, List.map_nil, List.sum_nil, List.map_cons, List.sum_cons] at hle ⊢
          omega
        | cons x pre =>
          cases he
          right
          refine ⟨pre,amt,post,rfl,?_⟩
          rw [hnow]
          simp only [advanced, List.map_nil, List.sum_nil, List.map_cons, List.sum_cons] at hle ⊢
          omega
      · rintro (⟨hadv,hle⟩ | ⟨pre,amt,post,rfl,hle⟩)
        · obtain ⟨amt,rfl⟩ : ∃ amt, op = .adv amt := by
            cases op <;> first | exact ⟨_,rfl⟩ | cases hadv
          refine ⟨[],amt,ops,rfl,?_⟩
          simp only [advanced, List.map_nil, List.sum_nil, List.map_cons, List.sum_cons] at hle ⊢
          omega
        · refine ⟨op :: pre,amt,post,rfl,?_⟩
          rw [hnow] at hle
          simp only [advanced, List.map_nil, List.sum_nil, List.map_cons, List.sum_cons] at hle ⊢
          omega
    rw [hsplit]
    by_cases hreach : op.isAdv ∧ t ≤ a.now + advanced [op]
    · rw [if_pos hreach] at hstep
      exact Or.inr ⟨due_run_none hrest hstep,Or.inl hreach⟩
    · rw [if_neg hreach] at hstep
      rw [or_iff_right hreach]
      exact ih hrest hstep

/-- **A timer is released by exactly the first advance that reaches its time to live.** The
calls release the timers that are due, each once and in the order of their deadlines; and a
call other than an advance leaves the remaining times of the other timers alone. -/
theorem dlRun_spec (h : Allowed (ops ++ [op])) :
    (∀ id ttl pre o mid amt, ops = pre ++ o :: mid → op = .adv amt → o.Sets id ttl → (∀ x ∈ mid, x.Spares id) →
      (id ∈ released ops op ↔ ¬Reached mid ttl.value ∧ ttl.value ≤ advanced mid + amt.value)) ∧
    Answers (agenda ops) op (released ops op) ∧
    (∀ id, remaining (dlRun ops).timers id = ((agenda ops).due id).map (· - (agenda ops).now)) ∧
    ∀ id, (∀ amt, op ≠ .adv amt) → op.Spares id →
      remaining (dlRun (ops ++ [op])).timers id = remaining (dlRun ops).timers id := by
  have ht := dlRun_tracks h.front
  have ht' := dlRun_tracks h
  have hans := (dlStep_spec ht h.last).1
  refine ⟨fun id ttl pre o mid amt he hop hset hspare => ?_,hans,ht.remaining,fun id hq hs => ?_⟩
  · have hdue : ((agenda pre).step o).due id = some ((agenda pre).now + ttl.value) ∧
        ((agenda pre).step o).now = (agenda pre).now := by
      rcases hset with rfl | rfl <;> exact ⟨if_pos rfl,rfl⟩
    have hrun : agenda ops = mid.foldl Agenda.step ((agenda pre).step o) := by
      rw [he,agenda,List.foldl_append]
      rfl
    have hnow : (agenda ops).now = (agenda pre).now + advanced mid := by
      rw [hrun,now_run,hdue.2]
    have hmid := due_run hspare hdue.1
    rw [hdue.2,← hrun,add_sub_cancel_left] at hmid
    change id ∈ (dlStep (dlRun ops) op).1.map Prod.fst ↔ _
    rw [hans.due]
    subst hop
    rcases hmid with ⟨hd,hr⟩ | ⟨hd,hr⟩
    · rw [hd,hnow]
      constructor
      · rintro ⟨amt',t,ha,hdt,hle⟩
        cases ha
        cases hdt
        exact ⟨hr,by omega⟩
      · rintro ⟨-,hle⟩
        exact ⟨amt,_,rfl,rfl,by omega⟩
    · rw [hd]
      constructor
      · rintro ⟨amt',t,-,hdt,-⟩
        cases hdt
      · rintro ⟨hn,-⟩
        exact absurd hr hn
  · rw [ht'.remaining,ht.remaining,agenda_concat,due_step hs]
    have hquiet : op.isAdv = false ∧ ((agenda ops).step op).now = (agenda ops).now := by
      cases op with
      | adv amt => exact absurd rfl (hq amt)
      | ins _ _ | rem _ | update _ _ => exact ⟨rfl,rfl⟩
    rw [hquiet.2]
    simp only [hquiet.1, Bool.false_eq_true, false_and, if_false, Option.bind_fun_some]

theorem allowed_concat (h : Allowed ops) (hop : (agenda ops).Allows op) : Allowed (ops ++ [op]) := by
  intro pre x post he
  rcases List.eq_nil_or_concat post with rfl | ⟨q,y,rfl⟩
  · obtain ⟨rfl,hx⟩ := List.append_inj' he rfl
    cases hx
    exact hop
  · rw [List.concat_eq_append,← List.cons_append,← List.append_assoc] at he
    obtain ⟨rfl,-⟩ := List.append_inj' he rfl
    exact h pre x q rfl

def sampleOps : List Op := [.ins 1 ⟨2,0⟩,.ins 2 ⟨1,500000000⟩,.adv ⟨1,0⟩,.update 1 ⟨0,500000000⟩]

theorem sampleOps_allowed : Allowed (sampleOps ++ [.adv ⟨0,500000000⟩]) := by
  have h0 : Allowed [] := fun pre op post he => by simp at he
  have h1 : Allowed ([] ++ [.ins 1 ⟨2,0⟩]) := allowed_concat h0 ⟨⟨by decide,by decide,by decide⟩,rfl⟩
  have h2 : Allowed ([.ins 1 ⟨2,0⟩] ++ [.ins 2 ⟨1,500000000⟩]) :=
    allowed_concat h1 ⟨⟨by decide,by decide,by decide⟩,rfl⟩
  have h3 : Allowed ([.ins 1 ⟨2,0⟩,.ins 2 ⟨1,500000000⟩] ++ [.adv ⟨1,0⟩]) :=
    allowed_concat h2 ⟨by decide,by decide,by decide⟩
  have h4 : Allowed ([.ins 1 ⟨2,0⟩,.ins 2 ⟨1,500000000⟩,.adv ⟨1,0⟩] ++ [.update 1 ⟨0,500000000⟩]) :=
    allowed_concat h3 ⟨⟨by decide,by decide,by decide⟩,by decide⟩
  exact allowed_concat h4 ⟨by decide,by decide,by decide⟩

theorem dlRun_spec_sample : 1 ∈ released sampleOps (.adv ⟨0,500000000⟩) ↔
    ¬Reached [] (CatTime.value ⟨0,500000000⟩) ∧ CatTime.value ⟨0,500000000⟩ ≤ advanced [] + CatTime.value ⟨0,500000000⟩ :=
  (dlRun_spec sampleOps_allowed).1 1 ⟨0,500000000⟩ [.ins 1 ⟨2,0⟩,.ins 2 ⟨1,500000000⟩,.adv ⟨1,0⟩]
    (.update 1 ⟨0,500000000⟩) [] ⟨0,500000000⟩ rfl rfl (Or.inr rfl) nofun

end Catlib.Timer
