import Mathlib.Data.Int.Notation
import Mathlib.Data.List.Nodup

/-! # Setting up the descriptors of a child in pspawn.c

The descriptor table of the kernel maps a descriptor to its open file; a new descriptor is the
lowest free one. A list of entries is a list, and what changes in it, the `pipefd` of an entry, is
kept by the entry's index.
-/
namespace Catlib.Pspawn

variable {φ : Type*}

/-- `CAT_PS_MAXFDS`. -/
def maxFds : ℕ := 1024

/-! ## Specifications -/

def psfdIn : ℕ := 0x0001
def psfdOut : ℕ := 0x0002
def psfdDmask : ℕ := 0x0003
def psfdStdio : ℕ := 0x0004
def psfdAppend : ℕ := 0x0008
def psfdBmask : ℕ := 0x0030
def psfdRemap : ℕ := 0x0200
def psfdFsrdr : ℕ := 0x0400

/-- What is read of a `struct ps_fd_entry` here. -/
structure FdEntry where
  type : ℕ
  locfd : ℤ
  pipefd : ℤ
  remfds : List ℤ

def psFdsTypeOk (type : ℕ) : Bool :=
  if type = psfdRemap then true
  else if type &&& psfdRemap ≠ 0 then false
  else if type &&& psfdFsrdr ≠ 0 ∧ type &&& (psfdStdio ||| psfdBmask) ≠ 0 then false
  else if (type &&& psfdFsrdr = 0 ∨ type &&& psfdDmask ≠ psfdOut) ∧ type &&& psfdAppend ≠ 0 then false
  else if type &&& psfdDmask = 0 then false
  else if type &&& psfdStdio ≠ 0 ∧ type &&& psfdBmask = 0 then false
  else true

/-- The targets of an entry on top of those mapped already. -/
def mapFds : List ℤ → List ℤ → Option (List ℤ)
  | [], mapped => some mapped
  | fd :: fds, mapped => if fd < 0 ∨ (maxFds : ℤ) ≤ fd ∨ fd ∈ mapped then none else mapFds fds (fd :: mapped)

def specLoop : List FdEntry → List ℤ → Bool
  | [], _ => true
  | e :: es, mapped =>
    if psFdsTypeOk e.type = false ∨ e.remfds = [] then false
    else
      match mapFds e.remfds mapped with
      | none => false
      | some mapped => specLoop es mapped

def specOk (spec : List FdEntry) : Bool := specLoop spec []

/-! ## The kernel -/

abbrev FdTable (φ : Type*) := ℤ → Option φ

def FdTable.set (t : FdTable φ) (fd : ℤ) (f : Option φ) : FdTable φ := fun d => if d = fd then f else t d

def closeFd (t : FdTable φ) (fd : ℤ) : FdTable φ := t.set fd none

/-- The lowest free descriptor. -/
def lowestFree (t : FdTable φ) : Option ℤ := ((List.range maxFds).find? fun n : ℕ => (t n).isNone).map Int.ofNat

def dupFd (t : FdTable φ) (fd : ℤ) : Option (ℤ × FdTable φ) :=
  if (t fd).isNone then none else (lowestFree t).map fun d => (d,t.set d (t fd))

def dup2Fd (t : FdTable φ) (old new : ℤ) : Option (FdTable φ) := if (t old).isNone then none else some (t.set new (t old))

/-! ## set_up_fds -/

/-- The descriptors, the bit set and the variables of `set_up_fds`; `src` is the `pipefd` of each
entry. -/
structure Child (φ : Type*) where
  fds : FdTable φ
  pipefds : ℤ → Bool
  src : ℕ → ℤ
  retfd : ℤ
  nomap : Bool

/-- `psfde` behind the search for the entry at `tfd`: the first such one, or else the last of all. -/
def blocking (n : ℕ) (src : ℕ → ℤ) (tfd : ℤ) : Option ℕ :=
  match (List.range n).find? fun j => src j = tfd with
  | some j => some j
  | none => if n = 0 then none else some (n - 1)

/-- The end of `set_up_fd` for a descriptor that was in the way. -/
def unblock (n : ℕ) (c : Child φ) (tfd dfd : ℤ) : Option (Child φ) :=
  match blocking n c.src tfd with
  | none => if tfd = c.retfd then some { c with retfd := dfd } else none
  | some j => some { c with src := fun k => if k = j then dfd else c.src k }

/-- `set_up_fd`; a return of -1 is no result. -/
def setUpFd (n : ℕ) (c : Child φ) (tfd sfd : ℤ) : Option (Child φ) :=
  if tfd = sfd then some { c with nomap := true }
  else
    let clear : Child φ → Child φ := fun c => { c with pipefds := fun d => if d = sfd then false else c.pipefds d }
    if c.pipefds tfd then
      (dupFd c.fds tfd).bind fun r => (dup2Fd r.2 sfd tfd).bind fun fds =>
        (unblock n { c with fds := fds } tfd r.1).map clear
    else (dup2Fd c.fds sfd tfd).map fun fds => clear { c with fds := fds }

/-- The loop over the targets of entry `i`. -/
def setUpRemfds (n i : ℕ) : List ℤ → Child φ → Option (Child φ)
  | [], c => some c
  | tfd :: ts, c => (setUpFd n c tfd (c.src i)).bind (setUpRemfds n i ts)

/-- Behind that loop. -/
def finishEntry (i : ℕ) (c : Child φ) : Child φ :=
  if c.nomap then c else { c with fds := closeFd c.fds (c.src i), src := fun k => if k = i then -1 else c.src k }

/-- The loop over the entries from `i` on. -/
def setUpEntries (n : ℕ) : List FdEntry → ℕ → Child φ → Option (Child φ)
  | [], _, c => some c
  | e :: es, i, c =>
    (setUpRemfds n i e.remfds { c with nomap := false }).bind fun c => setUpEntries n es (i + 1) (finishEntry i c)

/-- The state before the loop: the parent's ends are closed, and all that is not to be mapped. -/
def startChild (spec : List FdEntry) (retfd : ℤ) (fds : FdTable φ) : Child φ :=
  let pipefds : ℤ → Bool := fun d => d = retfd ∨ d ∈ spec.map FdEntry.pipefd
  let fds := spec.foldl (fun t e => if 0 ≤ e.locfd then closeFd t e.locfd else t) fds
  { fds := fun d => if 0 ≤ d ∧ d < maxFds ∧ pipefds d = false then none else fds d
    pipefds := pipefds
    src := fun i => (spec.map FdEntry.pipefd).getD i (-1)
    retfd := retfd
    nomap := false }

def setUpFds (spec : List FdEntry) (retfd : ℤ) (fds : FdTable φ) : Option (Child φ) :=
  setUpEntries spec.length spec 0 (startChild spec retfd fds)

/-! ## What the call is for -/

/-- Every target has the file of its entry, and the return pipe its own. -/
def Mapped (spec : List FdEntry) (retfd : ℤ) (fds : FdTable φ) (c : Child φ) : Prop :=
  (∀ e ∈ spec, ∀ t ∈ e.remfds, c.fds t = fds e.pipefd) ∧ c.fds c.retfd = fds retfd

/-- The descriptors of the call: the sources and the return pipe are open, and all that is open is
below the limit. -/
structure Descriptors (spec : List FdEntry) (retfd : ℤ) (fds : FdTable φ) : Prop where
  source : ∀ e ∈ spec, fds e.pipefd ≠ none
  ret : fds retfd ≠ none
  range : ∀ d, fds d ≠ none → 0 ≤ d ∧ d < maxFds

/-- No parent's end is a source or the return pipe. -/
def CleanStart (spec : List FdEntry) (retfd : ℤ) : Prop :=
  ∀ e ∈ spec, e.locfd ≠ retfd ∧ ∀ e' ∈ spec, e.locfd ≠ e'.pipefd

/-- A target that has to be taken is not the return pipe; where a later entry has its source there,
it is the only one and the source has not been moved. -/
def CleanTarget (n i : ℕ) (c : Child φ) (tfd : ℤ) : Prop :=
  tfd ≠ c.src i → tfd ≠ c.retfd ∧
    ∀ j, i < j → j < n → c.src j = tfd → c.pipefds tfd = true ∧ ∀ k, i < k → k < n → c.src k = tfd → k = j

/-- A source that is closed is not the return pipe, a later entry's source or an earlier target. -/
def CleanClose (spec : List FdEntry) (i : ℕ) (c : Child φ) : Prop :=
  c.nomap = false → c.src i ≠ c.retfd ∧ (∀ j, i < j → j < spec.length → c.src j ≠ c.src i) ∧
    ∀ e ∈ spec.take i, c.src i ∉ e.remfds

/-- The steps from the targets `ts` of entry `i` and the entries behind it on are clean. -/
inductive CleanRun (spec : List FdEntry) : ℕ → List ℤ → List FdEntry → Child φ → Prop
  | last {i : ℕ} {c : Child φ} (h : CleanClose spec i c) : CleanRun spec i [] [] c
  | next {i : ℕ} {e : FdEntry} {es : List FdEntry} {c : Child φ} (h : CleanClose spec i c)
      (hrun : CleanRun spec (i + 1) e.remfds es { finishEntry i c with nomap := false }) : CleanRun spec i [] (e :: es) c
  | target {i : ℕ} {t : ℤ} {ts : List ℤ} {es : List FdEntry} {c : Child φ} (h : CleanTarget spec.length i c t)
      (hrun : ∀ c', setUpFd spec.length c t (c.src i) = some c' → CleanRun spec i ts es c') : CleanRun spec i (t :: ts) es c

/-- The whole call is clean. -/
def Clean (spec : List FdEntry) (retfd : ℤ) (fds : FdTable φ) : Prop :=
  CleanStart spec retfd ∧ ∀ e es, spec = e :: es → CleanRun spec 0 e.remfds es (startChild spec retfd fds)

end Catlib.Pspawn
