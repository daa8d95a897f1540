import Catlib.Hash.Table
import Mathlib.Algebra.GroupWithZero.Nat

/-! # The debugging memory manager of dbgmem.c

The blocks of malloc, and in them the headers that hang in the hash table. An access outside the
blocks has no result, and neither has one to the header of a block that is gone. The answers of
malloc and realloc come with the calls.
-/
namespace Catlib.Dbgmem

open Hash Linked

/-- `sizeof(struct dbg_header)`: the hash node and the amount. -/
def headerSize : ℕ := 32

/-- `sizeof(union dbg_header_u)`, in which only the hash node is. -/
def headerUSize : ℕ := 24

/-- `ROUNDUP`, as a size_t. -/
def roundup (amt : ℕ) : ℕ := (amt + (headerUSize - 1)) % 2 ^ 64 / headerUSize * headerUSize

def toMem (dh : Addr) : Addr := dh + headerUSize

/-- `cmp_ptr`: the difference, returned as an int. -/
def cmpPtr (k1 k2 : Addr) : ℤ := ((k1 : ℤ) - k2).bmod (2 ^ 32)

def htPhash (key : Addr) : ℕ := key / 4 % 2 ^ 32

def dbgHtab : Htab Addr := ⟨4096,4095,cmpPtr,htPhash⟩

/-- What malloc has given, the headers in it, and the counters. -/
structure DbgState where
  blocks : Addr → Option ℕ
  heap : HtHeap Addr
  dhAmt : Addr → ℕ
  numAlloc : ℕ
  allocAmt : ℕ

/-- There are `n` bytes from the start of the block at `a`. -/
def DbgState.Covers (s : DbgState) (a : Addr) (n : ℕ) : Prop := ∃ size ∈ s.blocks a, n ≤ size

instance (s : DbgState) (a : Addr) (n : ℕ) : Decidable (s.Covers a n) :=
  match h : s.blocks a with
  | none => .isFalse (by rintro ⟨size,hs,-⟩; rw [h] at hs; cases hs)
  | some size =>
    if hn : n ≤ size then .isTrue ⟨size,h,hn⟩
    else .isFalse (by rintro ⟨size',hs,hn'⟩; rw [h] at hs; cases hs; exact hn hn')

def DbgState.setBlock (s : DbgState) (a : Addr) (size : Option ℕ) : DbgState :=
  { s with blocks := fun x => if x = a then size else s.blocks x }

/-- A failed assertion and `errsys` end the program. -/
inductive Outcome (ρ : Type) where
  | ended
  | back (r : ρ)

/-- A turn of `ht_lkup`, where the node has to be there. -/
def dbgLkupBody (s : DbgState) (key node : Addr) : Option (Turn Addr Addr) :=
  if node ≠ 0 ∧ ¬s.Covers node headerUSize then none else lkupBody dbgHtab s.heap key node

def dbgLkup (s : DbgState) (key : Addr) (fuel : ℕ) : Option Addr :=
  loop (dbgLkupBody s key) fuel (s.heap.bkts (dbgHtab.index (htPhash key)))

/-- `dh->dh_amt = amt`, `ht_ninit` and `ht_ins_h` for the pointer `p` behind the header. -/
def dbgEnter (s : DbgState) (dh : Addr) (amt : ℕ) : Option (Addr × DbgState) :=
  let p := toMem dh
  let first := s.heap.bkts (dbgHtab.index (htPhash p))
  if ¬s.Covers dh headerSize ∨ first ≠ 0 ∧ ¬s.Covers first headerUSize then none
  else
    (htIns dbgHtab (htNinit s.heap dh p) dh (htPhash p)).map fun h =>
      (p,{ s with heap := h, dhAmt := fun x => if x = dh then amt else s.dhAmt x })

/-- The counters with one more allocation. -/
def DbgState.took (s : DbgState) (amt : ℕ) : DbgState :=
  { s with numAlloc := (s.numAlloc + 1) % 2 ^ 64, allocAmt := (s.allocAmt + amt) % 2 ^ 64 }

def dbgMemGet (s : DbgState) (amt : ℕ) (malloc : Option Addr) : Option (Outcome (Addr × DbgState)) :=
  let ramt := roundup amt
  if ramt < amt then some .ended
  else
    match malloc with
    | none => some (.back (0,s))
    | some dh => (dbgEnter ((s.setBlock dh (some ramt)).took amt) dh amt).map .back

/-- The counters with one allocation of `osize` bytes less. -/
def DbgState.gone (s : DbgState) (osize : ℕ) : DbgState :=
  { s with numAlloc := (s.numAlloc + (2 ^ 64 - 1)) % 2 ^ 64, allocAmt := (s.allocAmt + (2 ^ 64 - osize)) % 2 ^ 64 }

/-- `realloc` to another place takes the header along. -/
def DbgState.moveBlock (s : DbgState) (dh q : Addr) (ramt : ℕ) : DbgState :=
  { (s.setBlock dh none).setBlock q (some ramt) with
    heap := s.heap.put q (s.heap.node dh)
    dhAmt := fun x => if x = q then s.dhAmt dh else s.dhAmt x }

def dbgMemResize (s : DbgState) (p newsize : ℕ) (realloc : Option Addr) (fuel : ℕ) : Option (Outcome (Addr × DbgState)) :=
  (dbgLkup s p fuel).bind fun dh =>
    if dh = 0 then some .ended
    else if ¬s.Covers dh headerSize then none
    else
      let osize := s.dhAmt dh
      let ramt := if 0 < newsize then roundup newsize else 0
      if ramt < newsize then some .ended
      else if ramt = 0 then some (.back (0,(s.setBlock dh none).gone osize))
      else
        match realloc with
        | none => some (.back (0,s))
        | some q =>
          let s := { s.moveBlock dh q ramt with allocAmt := (s.allocAmt + (2 ^ 64 - osize) + newsize) % 2 ^ 64 }
          (dbgEnter s q newsize).map .back

def dbgMemFree (s : DbgState) (p : Addr) (fuel : ℕ) : Option (Outcome (Addr × DbgState)) :=
  (dbgLkup s p fuel).bind fun dh =>
    if dh = 0 then some .ended
    else if ¬s.Covers dh headerSize then none
    else some (.back (0,(s.setBlock dh none).gone (s.dhAmt dh)))

def dbgIsDynMem (s : DbgState) (p : Addr) (fuel : ℕ) : Option Bool := (dbgLkup s p fuel).map fun n => decide (n ≠ 0)

def dbgInit : DbgState := ⟨fun _ => none,⟨fun _ => 0,fun _ => ⟨0,none,0⟩⟩,fun _ => 0,0,0⟩

/-! ## Runs -/

inductive DbgOp
  | get (amt : ℕ) (malloc : Option Addr)
  | resize (p newsize : ℕ) (realloc : Option Addr)
  | free (p : Addr)

/-- A state with the live allocations, each with its size. -/
structure Tracked where
  mem : DbgState
  live : List (Addr × ℕ)

def dbgStep (fuel : ℕ) (t : Tracked) : DbgOp → Option (Outcome Tracked)
  | .get amt malloc => (dbgMemGet t.mem amt malloc).map fun
    | .ended => .ended
    | .back (p,s) => .back ⟨s,if p = 0 then t.live else (p,amt) :: t.live⟩
  | .resize p newsize realloc => (dbgMemResize t.mem p newsize realloc fuel).map fun
    | .ended => .ended
    | .back (q,s) =>
      let rest := t.live.filter fun e => e.1 ≠ p
      .back ⟨s,if newsize = 0 then rest else if q = 0 then t.live else (q,newsize) :: rest⟩
  | .free p => (dbgMemFree t.mem p fuel).map fun
    | .ended => .ended
    | .back (_,s) => .back ⟨s,t.live.filter fun e => e.1 ≠ p⟩

/-- A new block is none of the blocks there are, and outside all of them. -/
def Gives (s : DbgState) (size : ℕ) (answer : Option Addr) : Prop :=
  ∀ a ∈ answer, a ≠ 0 ∧ a + size ≤ 2 ^ 64 ∧ ∀ b n, s.blocks b = some n → b ≠ a ∧ (b + n ≤ a ∨ a + size ≤ b)

/-- A call with an unsigned long for a size and with a live pointer, on a malloc and a realloc that
behave. -/
def Proper (t : Tracked) : DbgOp → Prop
  | .get amt malloc => amt < 2 ^ 64 ∧ Gives t.mem (roundup amt) malloc
  | .resize p newsize realloc => newsize < 2 ^ 64 ∧ p ∈ t.live.map Prod.fst ∧
      Gives (t.mem.setBlock (p - headerUSize) none) (roundup newsize) realloc
  | .free p => p ∈ t.live.map Prod.fst

def RunProper : List DbgOp → Tracked → Prop
  | [], _ => True
  | op :: ops, t => Proper t op ∧ ∀ fuel t', dbgStep fuel t op = some (.back t') → RunProper ops t'

/-- The counters and the table are those of the live allocations, and each of these has its bytes
in its block, behind the header. -/
structure Kept (t : Tracked) : Prop where
  num : t.mem.numAlloc = t.live.length
  amt : t.mem.allocAmt = (t.live.map Prod.snd).sum
  dyn : ∀ p, p ≠ 0 → ∃ fuel, dbgIsDynMem t.mem p fuel = some (decide (p ∈ t.live.map Prod.fst))
  inside : ∀ e ∈ t.live, ∃ dh size, e.1 = toMem dh ∧ t.mem.blocks dh = some size ∧ e.1 + e.2 ≤ dh + size ∧
    (e.2 = 0 ∨ dh + headerSize ≤ e.1)

/-- Every call comes back, or ends the program, and every state is as it should be. -/
def RunKept : List DbgOp → Tracked → Prop
  | [], t => Kept t
  | op :: ops, t => Kept t ∧ ∃ fuel,
    match dbgStep fuel t op with
    | none => False
    | some .ended => True
    | some (.back t') => RunKept ops t'

/-- malloc gives nothing, up to a request that is too large to be rounded. -/
def Starved : List DbgOp → Prop
  | [] => True
  | .get amt malloc :: ops => roundup amt < amt ∨ malloc = none ∧ Starved ops
  | _ :: _ => True

variable {s s' : DbgState} {amt : ℕ} {dh p : Addr} {live : List (Addr × ℕ)}

theorem roundup_le (amt : ℕ) : roundup amt ≤ amt + (headerUSize - 1) :=
  (Nat.div_mul_le_self _ _).trans (Nat.mod_le _ _)

theorem covers_iff {n size : ℕ} (h : s.blocks dh = some size) : s.Covers dh n ↔ n ≤ size := by
  constructor
  · rintro ⟨size',hs,hn⟩
    rw [h] at hs
    cases hs
    exact hn
  · exact fun hn => ⟨size,h,hn⟩

theorem took_blocks (s : DbgState) (dh : Addr) (size amt : ℕ) : ((s.setBlock dh (some size)).took amt).blocks dh = some size :=
  if_pos rfl

theorem dbgMemGet_astray (h : roundup amt < headerSize) (hamt : amt ≤ roundup amt) : dbgMemGet s amt (some dh) = none := by
  rw [dbgMemGet,if_neg (not_lt.2 hamt)]
  show Option.map _ (dbgEnter _ dh amt) = none
  rw [dbgEnter,if_pos (Or.inl fun hc => absurd ((covers_iff (took_blocks s dh _ amt)).1 hc) (not_le.2 h))]
  rfl

theorem dbgMemGet_back (h : dbgMemGet s amt (some dh) = some (.back (p,s'))) :
    p = toMem dh ∧ s'.blocks dh = some (roundup amt) ∧ headerSize ≤ roundup amt := by
  rw [dbgMemGet] at h
  split at h
  · cases h
  obtain ⟨⟨q,s1⟩,h1,h2⟩ := Option.map_eq_some_iff.1 h
  cases h2
  rw [dbgEnter] at h1
  split at h1
  · cases h1
  · rename_i hcov
    obtain ⟨h,-,h3⟩ := Option.map_eq_some_iff.1 h1
    cases h3
    refine ⟨rfl,if_pos rfl,?_⟩
    by_contra hlt
    exact hcov (Or.inl fun hc => hlt ((covers_iff (took_blocks s dh _ amt)).1 hc))

theorem get_not_kept (h : dbgMemGet s amt (some dh) = some (.back (p,s'))) : ¬Kept ⟨s',(p,amt) :: live⟩ := by
  intro hk
  obtain ⟨rfl,hblock,-⟩ := dbgMemGet_back h
  obtain ⟨dh',size,hdh,hsize,hle,-⟩ := hk.inside _ List.mem_cons_self
  obtain rfl : dh = dh' := Nat.add_right_cancel hdh
  rw [hblock] at hsize
  cases hsize
  have hround : roundup amt ≤ amt + 23 := roundup_le amt
  have hend : 24 + amt ≤ roundup amt := Nat.le_of_add_le_add_left ((Nat.add_assoc dh 24 amt).symm.trans_le hle)
  omega

theorem init_kept : Kept ⟨dbgInit,[]⟩ := ⟨rfl,rfl,fun _ _ => ⟨1,rfl⟩,nofun⟩

/-- With nothing live yet, a run is as it should be exactly when malloc never gives anything. -/
theorem runKept_iff (ops : List DbgOp) (hops : RunProper ops ⟨dbgInit,[]⟩) : RunKept ops ⟨dbgInit,[]⟩ ↔ Starved ops := by
  induction ops with
  | nil => exact iff_of_true init_kept trivial
  | cons op ops ih =>
    obtain ⟨hop,hrest⟩ := hops
    cases op with
    | get amt malloc =>
      rw [RunKept,Starved]
      by_cases hlarge : roundup amt < amt
      · refine iff_of_true ⟨init_kept,0,?_⟩ (Or.inl hlarge)
        have hget : dbgMemGet dbgInit amt malloc = some .ended := if_pos hlarge
        have hstep : dbgStep 0 ⟨dbgInit,[]⟩ (.get amt malloc) = some .ended := by
          rw [dbgStep,hget]
          rfl
        rw [hstep]
        trivial
      cases malloc with
      | none =>
        have hstep : ∀ fuel, dbgStep fuel ⟨dbgInit,[]⟩ (.get amt none) = some (.back ⟨dbgInit,[]⟩) := by
          intro fuel
          have hget : dbgMemGet dbgInit amt none = some (.back (0,dbgInit)) := if_neg hlarge
          rw [dbgStep,hget]
          rfl
        have hiff := ih (hrest 0 _ (hstep 0))
        constructor
        · rintro ⟨-,fuel,hrun⟩
          rw [hstep] at hrun
          exact Or.inr ⟨rfl,hiff.1 hrun⟩
        · rintro (h | ⟨-,h⟩)
          · exact (hlarge h).elim
          · refine ⟨init_kept,0,?_⟩
            rw [hstep]
            exact hiff.2 h
      | some dh =>
        refine iff_of_false ?_ (by rintro (h | ⟨h,-⟩); exacts [hlarge h,nomatch h])
        rintro ⟨-,fuel,hrun⟩
        rw [dbgStep] at hrun
        cases hget : dbgMemGet dbgInit amt (some dh) with
        | none =>
          rw [hget] at hrun
          exact hrun
        | some o =>
          rw [hget] at hrun
          cases o with
          | ended =>
            rw [dbgMemGet,if_neg hlarge] at hget
            obtain ⟨_,-,h⟩ := Option.map_eq_some_iff.1 hget
            cases h
          | back r =>
            obtain ⟨p,s'⟩ := r
            have hp : p ≠ 0 := by
              rw [(dbgMemGet_back hget).1]
              exact Nat.succ_ne_zero _
            have hkept : Kept ⟨s',(p,amt) :: []⟩ := by
              change RunKept ops ⟨s',if p = 0 then [] else (p,amt) :: []⟩ at hrun
              rw [if_neg hp] at hrun
              cases ops with
              | nil => exact hrun
              | cons op ops => exact hrun.1
            exact get_not_kept hget hkept
    | resize p newsize realloc => exact nomatch hop.2.1
    | free p => exact nomatch hop

theorem runKept_iff_one : RunKept [.get 1 none] ⟨dbgInit,[]⟩ ↔ Starved [.get 1 none] :=
  runKept_iff _ ⟨⟨by decide,nofun⟩,fun _ _ _ => trivial⟩

/-- A header does not fit into the block for one byte; and the node of an allocation of 100 bytes
that was freed is still in the table, where the next question for it reads the block that is gone. -/
theorem runKept_fails : ¬RunKept [.get 1 (some 4096)] ⟨dbgInit,[]⟩ ∧
    ∃ t t', dbgStep 0 ⟨dbgInit,[]⟩ (.get 100 (some 4096)) = some (.back t) ∧ dbgStep 1 t (.free 4120) = some (.back t') ∧
      ∀ fuel, dbgIsDynMem t'.mem 4120 fuel = none := by
  constructor
  · rintro ⟨-,fuel,hrun⟩
    have hget : dbgMemGet dbgInit 1 (some 4096) = none := dbgMemGet_astray (by decide) (by decide)
    rw [dbgStep,hget] at hrun
    exact hrun
  · refine ⟨_,_,rfl,rfl,fun fuel => ?_⟩
    rw [dbgIsDynMem,dbgLkup,loop_none]
    · rfl
    · rfl

end Catlib.Dbgmem
