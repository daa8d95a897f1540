import Catlib.Timer.Dlist
import Catlib.Logic.Loop

/-! # The event dispatcher of uevent.c

Timers and I/O events are named by numbers. A circular list is the list of its nodes in
order; a node on no list is linked to itself. `ue_next` moves the timers that are due to a
list `l` of its own, whose head is a plain `struct list`, and walks that list and the list
of I/O events with `l_apply`, which takes the next pointer before it calls.
-/
namespace Catlib.Uevent
open Timer

/-- `UE_RD`, `UE_WR` and `UE_EX`. -/
inductive UeType
  | rd
  | wr
  | ex
  deriving DecidableEq

/-- An I/O event; `mux` says whether its mux pointer is set. -/
structure UeIoevent where
  fd : ℕ
  type : UeType
  mux : Bool

/-- A timer with its flags `UE_PERIODIC` and `UE_TREG`. -/
structure UeTimer where
  periodic : Bool
  treg : Bool
  orig : ℕ

structure Uemux where
  timers : Dlist
  maxfd : ℤ
  fdtab : List (ℕ × List ℕ)
  iolist : List ℕ
  set : UeType → ℕ → Bool
  sigtab : ℕ → Option (List ℕ)
  done : Bool

inductive UeEvent
  | timer (k : ℕ)
  | io (e : ℕ)
  | sig (g : ℕ)
  deriving DecidableEq

/-- What happened to an event, and the signals whose handlers were run: kept for the statements,
nothing in the code reads it. -/
inductive Note
  | ran (e : UeEvent)
  | registered (e : UeEvent)
  | cancelled (e : UeEvent)
  | signal (i : ℕ)

/-- A mux with its timers and events, the list `l` of `ue_next`, the state that the
callbacks keep, and the notes, newest first. -/
structure UeState (σ : Type) where
  mux : Uemux
  tm : ℕ → UeTimer
  io : ℕ → UeIoevent
  due : Timers
  client : σ
  log : List Note

/-- A call that a callback makes. -/
inductive UeAct
  | tmCancel (k : ℕ)
  | ioCancel (e : ℕ)
  | stop

/-- The callbacks: the calls each makes, what it returns and what it keeps. -/
abbrev Callbacks (σ : Type) := UeEvent → UeState σ → List UeAct × ℤ × σ

variable {σ : Type}

/-- The timers on a list. -/
abbrev keys (l : Timers) : List ℕ := l.map Prod.fst

def UeState.note (s : UeState σ) (n : Note) : UeState σ := { s with log := n :: s.log }

def tmLset (sec nsec : ℤ) : CatTime := tmNormalize ⟨sec,nsec⟩

def tmGez (t : CatTime) : Bool := !tmLtz t

def dlFirst (dl : Dlist) : CatTime :=
  match dl.timers with
  | [] => tmLset (-1) (-1)
  | (_,d) :: _ => d

/-! ## Registration -/

def ueInit (sigtab : ℕ → Option (List ℕ)) : Uemux := ⟨dlInit,-1,[],[],fun _ _ => false,sigtab,false⟩

def ueStop (s : UeState σ) : UeState σ := { s with mux := { s.mux with done := true } }

/-- `ue_tm_reg` of a timer that holds the time `ttl`. -/
def ueTmReg (s : UeState σ) (k : ℕ) (ttl : CatTime) : UeState σ :=
  { s with
    mux := { s.mux with timers := dlIns s.mux.timers k ttl }
    tm := Function.update s.tm k { s.tm k with treg := true } }.note (.registered (.timer k))

/-- `ue_tm_cancel`. `dl_rem` gives the time of the node to the next one; behind the last due
timer that is the head of `l`, which has no time: the write goes past it, with no result here. -/
def ueTmCancel (s : UeState σ) (k : ℕ) : Option (UeState σ) :=
  if !(s.tm k).treg then some s
  else if (keys s.due).getLast? = some k then none
  else some ({ s with
    due := (dlRemAt k tmZero s.due).timers
    mux := { s.mux with timers := dlRem s.mux.timers k }
    tm := Function.update s.tm k { s.tm k with treg := false } }.note (.cancelled (.timer k)))

def fdDel (fd : ℕ) (tab : List (ℕ × List ℕ)) : List (ℕ × List ℕ) := tab.filter (·.1 ≠ fd)

def fdPut (fd : ℕ) (l : List ℕ) (tab : List (ℕ × List ℕ)) : List (ℕ × List ℕ) := (fd,l) :: fdDel fd tab

/-- `FD_SET` and `FD_CLR`. -/
def fdSet (set : UeType → ℕ → Bool) (type : UeType) (fd : ℕ) (b : Bool) : UeType → ℕ → Bool :=
  fun t n => if t = type ∧ n = fd then b else set t n

/-- `ue_io_reg`, with memory available. -/
def ueIoReg (s : UeState σ) (e : ℕ) : UeState σ :=
  let io := s.io e
  { s with
    mux := { s.mux with
      fdtab := fdPut io.fd (e :: (s.mux.fdtab.lookup io.fd).getD []) s.mux.fdtab
      iolist := e :: s.mux.iolist
      set := fdSet s.mux.set io.type io.fd true
      maxfd := max io.fd s.mux.maxfd }
    io := Function.update s.io e { io with mux := true } }.note (.registered (.io e))

/-- `fdmax`: it takes the list of the highest descriptor for an I/O event, and `stray` is
what it finds where the descriptor of one would be. -/
def fdmax (stray : List (ℕ × List ℕ) → ℤ) (tab : List (ℕ × List ℕ)) : ℤ := if tab = [] then -1 else stray tab

/-- `ue_io_cancel`; it aborts when the table has no list for the descriptor. -/
def ueIoCancel (stray : List (ℕ × List ℕ) → ℤ) (s : UeState σ) (e : ℕ) : Option (UeState σ) :=
  let io := s.io e
  if !io.mux then some s
  else
    match s.mux.fdtab.lookup io.fd with
    | none => none
    | some l =>
      let list := l.erase e
      let set := if list.any fun e' => (s.io e').type = io.type then s.mux.set else fdSet s.mux.set io.type io.fd false
      let fdtab := if list = [] then fdDel io.fd s.mux.fdtab else fdPut io.fd list s.mux.fdtab
      let maxfd := if list = [] ∧ io.fd = s.mux.maxfd then fdmax stray fdtab else s.mux.maxfd
      some ({ s with
        mux := { s.mux with iolist := s.mux.iolist.erase e, set := set, fdtab := fdtab, maxfd := maxfd }
        io := Function.update s.io e { io with mux := false } }.note (.cancelled (.io e)))

/-! ## Dispatch -/

section
variable (cb : Callbacks σ) (stray : List (ℕ × List ℕ) → ℤ)

def act (s : UeState σ) : UeAct → Option (UeState σ)
  | .tmCancel k => ueTmCancel s k
  | .ioCancel e => ueIoCancel stray s e
  | .stop => some (ueStop s)

/-- The state in which the callback of an event makes its calls. -/
def called (s : UeState σ) (e : UeEvent) : UeState σ := { s.note (.ran e) with client := (cb e s).2.2 }

def cbCall (s : UeState σ) (e : UeEvent) : Option (ℤ × UeState σ) :=
  ((cb e s).1.foldlM (act stray) (called cb s e)).map fun s' => ((cb e s).2.1,s')

/-- `cb_run`, on a list that the callbacks leave alone. -/
def cbRun : List ℕ → UeState σ → Option (UeState σ)
  | [], s => some s
  | g :: l, s => (cbCall cb stray s (.sig g)).bind fun r => if r.1 ≠ 0 then some r.2 else cbRun l r.2

/-- `l_rem`, which leaves the times of the other timers as they are. -/
def lRem (s : UeState σ) (k : ℕ) : UeState σ :=
  { s with
    due := s.due.filter (·.1 ≠ k)
    mux := { s.mux with timers := { s.mux.timers with timers := s.mux.timers.timers.filter (·.1 ≠ k) } } }

/-- The part of `tdispatch` before the call: a periodic timer is registered again. -/
def requeue (s : UeState σ) (k : ℕ) : UeState σ :=
  let s' := lRem s k
  if (s.tm k).periodic then
    let tout := tmLset ((s.tm k).orig / 1000 : ℕ) ((s.tm k).orig % 1000 * 1000000 : ℕ)
    { s' with mux := { s'.mux with timers := dlIns s'.mux.timers k (startTtl tout) } }
  else s'

def tdispatch (s : UeState σ) (k : ℕ) : Option (UeState σ) :=
  if s.mux.done then some s else (cbCall cb stray (requeue s k) (.timer k)).map Prod.snd

def iorun (ready : UeType → ℕ → Bool) (s : UeState σ) (e : ℕ) : Option (UeState σ) :=
  if s.mux.done then some s
  else if ready (s.io e).type (s.io e).fd then (cbCall cb stray s (.io e)).map Prod.snd
  else some s

/-- What `run_sig_handlers` does for the signals from `i` on. -/
def sigHandlers (fired : ℕ → Bool) : List ℕ → UeState σ → Option (UeState σ)
  | [], s => some s
  | i :: l, s =>
    if s.mux.done then some s
    else if !fired i then sigHandlers fired l s
    else
      match s.mux.sigtab i with
      | none => sigHandlers fired l s
      | some list => (cbRun cb stray list (s.note (.signal i))).bind (sigHandlers fired l)

def runSigHandlers (fired : ℕ → Bool) (maxsig : ℤ) (s : UeState σ) : Option (UeState σ) :=
  sigHandlers cb stray fired (List.range (maxsig + 1).toNat) s

/-- A place in the walk over the due timers: the head of `l`, the head of the list of timers
in the mux, or a timer. -/
inductive LNode
  | out
  | mux
  | timer (k : ℕ)
  deriving DecidableEq

/-- The node behind another one on a list; `none` is the head. -/
def after : List ℕ → ℕ → Option ℕ
  | [], _ => none
  | a :: l, x => if a = x then l.head? else after l x

/-- The next pointer of a timer. -/
def nextTimer (s : UeState σ) (k : ℕ) : LNode :=
  if k ∈ keys s.due then (after (keys s.due) k).elim .out .timer
  else if k ∈ keys s.mux.timers.timers then (after (keys s.mux.timers.timers) k).elim .mux .timer
  else .timer k

/-- The next pointer of an I/O event. -/
def nextIo (s : UeState σ) (e : ℕ) : Option ℕ := if e ∈ s.mux.iolist then after s.mux.iolist e else some e

/-- One turn of `l_apply(&l, tdispatch, mux)`. The head of the list in the mux is no timer. -/
def timerTurn : UeState σ × LNode → Option (Turn (UeState σ × LNode) (UeState σ))
  | (s,.out) => some (.leave s)
  | (_,.mux) => none
  | (s,.timer k) => (tdispatch cb stray s k).map fun s' => .again (s',nextTimer s k)

/-- One turn of `l_apply(&mux->iolist, iorun, &iorp)`. -/
def ioTurn (ready : UeType → ℕ → Bool) : UeState σ × Option ℕ → Option (Turn (UeState σ × Option ℕ) (UeState σ))
  | (s,none) => some (.leave s)
  | (s,some e) => (iorun cb stray ready s e).map fun s' => .again (s',nextIo s e)

/-- What the system reports to one call: what `select` found, whether a signal interrupted it
(its other errors end the process), the times around it, and the signals that were caught. -/
structure Report where
  ready : UeType → ℕ → Bool
  eintr : Bool
  cur : ℤ × ℤ
  tv : ℤ × ℤ
  fired : ℕ → Bool
  maxsig : ℤ

def Report.delta (r : Report) : CatTime :=
  if r.tv.2 - r.cur.2 < 0 then tmLset (r.tv.1 - r.cur.1 - 1) ((r.tv.2 - r.cur.2 + 1000000) * 1000)
  else tmLset (r.tv.1 - r.cur.1) ((r.tv.2 - r.cur.2) * 1000)

/-- The timers that are due move to `l`. -/
def dlAdvance (s : UeState σ) (delta : CatTime) : UeState σ :=
  { s with due := (dlAdv s.mux.timers delta).1, mux := { s.mux with timers := (dlAdv s.mux.timers delta).2 } }

/-- The place at the front of a list of timers. -/
def front (l : List ℕ) : LNode := l.head?.elim .out .timer

/-- `ue_next` up to the timers. -/
def afterSignals (r : Report) (s : UeState σ) : Option (UeState σ) :=
  if r.maxsig ≥ 0 then runSigHandlers cb stray r.fired r.maxsig s else some s

/-- The timers of `ue_next`, where `tvp` says that there was one to wait for. -/
def runTimers (r : Report) (tvp : Bool) (fuel : ℕ) (s : UeState σ) : Option (UeState σ) :=
  if tvp then loop (timerTurn cb stray) fuel (dlAdvance s r.delta,front (keys (dlAdvance s r.delta).due)) else some s

def ueNext (r : Report) (fuel : ℕ) (s : UeState σ) : Option (UeState σ) :=
  if s.mux.done then some s
  else
    (afterSignals cb stray r s).bind fun s1 =>
      if r.eintr then some s1
      else
        (runTimers cb stray r (tmGez (dlFirst s.mux.timers)) fuel s1).bind fun s2 =>
          loop (ioTurn cb stray r.ready) fuel (s2,s2.mux.iolist.head?)

end

end Catlib.Uevent
