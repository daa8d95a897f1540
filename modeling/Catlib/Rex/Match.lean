import Catlib.Rex.Parse

/-! # rex_match of match.c

A position is an index of the string. The frames that the matcher links with each other are a
list, the innermost first: `aux->prev` is its tail, and every call answers with the frames as it
leaves them, so that what it writes to the frames of its caller is seen there. The number of a
repetition is not bounded. An access that the language does not define, and a recursion deeper
than the fuel, have no result.
-/
namespace Catlib.Rex

/-- The results of `rex_match`. -/
inductive RexRes where
  | matched
  | nomatch
  | error
  deriving DecidableEq

/-- `struct rex_match_aux`, without what is the same in all frames. -/
structure RexAux where
  gstart : ℕ
  grep : ℕ
  deriving DecidableEq

/-- `struct rex_match_loc`. -/
structure RexMatchLoc where
  valid : Bool
  start : ℕ
  len : ℕ
  deriving DecidableEq

/-- The match slots. What is not in the source is `vain`: the slots that were written for a group
which was skipped before the rest of the pattern failed. -/
structure RexSlots where
  locs : List RexMatchLoc
  vain : List ℕ := []

/-- The result with the frames and the slots. -/
structure RexRet where
  rv : RexRes
  aux : List RexAux
  slots : RexSlots

/-- A function with the parameters of `rex_match_rxn`. -/
abbrev RexFun := Option ℕ → ℕ → ℕ → List RexAux → RexSlots → Option RexRet

/-- There is a slot, and it is not valid. -/
def RexSlots.free (x : RexSlots) (num : ℕ) : Bool :=
  match x.locs[num]? with
  | some l => !l.valid
  | none => false

/-- A slot is written once. -/
def RexSlots.record (x : RexSlots) (num start len : ℕ) : RexSlots :=
  if x.free num then { x with locs := x.locs.set num ⟨true,start,len⟩ } else x

variable (ns : List RexNode) (str : List UInt8) (rec : RexFun)

/-- The first half of `rex_next`: one more repetition, if there may be one. -/
def rexNextRep (i : ℕ) (rxn : RexNode) (cur rep : ℕ) (aux : List RexAux) (x : RexSlots) : Option RexRet :=
  if rxn.repmax = rexWildcard ∨ rep < rxn.repmax then rec (some i) cur rep aux x else some ⟨.nomatch,aux,x⟩

def rexNext (i : ℕ) (rxn : RexNode) (cur rep : ℕ) (aux : List RexAux) (x : RexSlots) : Option RexRet := do
  let r ← rexNextRep rec i rxn cur rep aux x
  if r.rv ≠ .nomatch then return r
  else if rep ≥ rxn.repmin then rec rxn.next cur 0 r.aux r.slots
  else return r

/-- The string of a node is the next one. -/
def hasStr (rxn : RexNode) (cur : ℕ) : Bool :=
  rxn.str.length ≤ str.length - cur && (str.drop cur).take rxn.str.length = rxn.str

def rexMatchString (i : ℕ) (rxn : RexNode) (cur rep : ℕ) (aux : List RexAux) (x : RexSlots) : Option RexRet :=
  if hasStr str rxn cur then rexNext rec i rxn (cur + rxn.str.length) (rep + 1) aux x
  else if rxn.repmin = 0 ∧ rep = 0 then rec rxn.next cur 0 aux x
  else some ⟨.nomatch,aux,x⟩

/-- A bit of the set of a class, which has 32 bytes. -/
def inSet (set : List UInt8) (c : UInt8) : Bool := set.getD (c.toNat >>> 3) 0 &&& (1 <<< (c &&& 7)) ≠ 0

def hasClass (rxn : RexNode) (cur : ℕ) : Bool :=
  match str[cur]? with
  | some c => inSet rxn.set c
  | none => false

def rexMatchClass (i : ℕ) (rxn : RexNode) (cur rep : ℕ) (aux : List RexAux) (x : RexSlots) : Option RexRet :=
  if hasClass str rxn cur then rexNext rec i rxn (cur + 1) (rep + 1) aux x
  else if rxn.repmin = 0 ∧ rep = 0 then rec rxn.next cur 0 aux x
  else some ⟨.nomatch,aux,x⟩

def rexMatchChoice (rxn : RexNode) (cur rep : ℕ) (aux : List RexAux) (x : RexSlots) : Option RexRet := do
  if rep ≠ 0 then none
  else
    let r ← rec rxn.opt1 cur 0 aux x
    if r.rv ≠ .nomatch then return r else rec rxn.opt2 cur 0 r.aux r.slots

/-- A write to `grep` of the innermost frame. -/
def setGrep (rep : ℕ) : List RexAux → List RexAux
  | [] => []
  | fr :: prev => { fr with grep := rep } :: prev

/-- `rex_match_group_s`: the first repetition has a frame of its own, which ends with the call. -/
def rexMatchGroupS (rxn : RexNode) (cur rep : ℕ) (aux : List RexAux) (x : RexSlots) : Option RexRet := do
  let newAux := setGrep (rep + 1) (if rep = 0 then ⟨cur,0⟩ :: aux else aux)
  let r ← rec rxn.next cur 0 newAux x
  let aux := if rep = 0 then r.aux.tail else r.aux
  if r.rv = .nomatch ∧ rxn.repmin = 0 ∧ rep = 0 then
    let o ← rxn.other
    let rge ← ns[o]?
    let q ← rec rge.next cur 0 aux (r.slots.record rxn.num cur 0)
    if q.rv ≠ .matched ∧ r.slots.free rxn.num then
      return { q with slots := { q.slots with vain := rxn.num :: q.slots.vain } }
    else return q
  else return { r with aux := aux }

/-- The first half of `rex_match_group_e`: one more repetition of the group, if there may be one. -/
def rexGroupRep (rxn : RexNode) (cur : ℕ) (fr : RexAux) (prev : List RexAux) (x : RexSlots) : Option RexRet :=
  if rxn.repmax = rexWildcard ∨ fr.grep < rxn.repmax then do
    let o ← rxn.other
    let rgs ← ns[o]?
    let r ← rexMatchGroupS ns rec rgs cur fr.grep (fr :: prev) x
    return { r with aux := setGrep fr.grep r.aux }
  else some ⟨.nomatch,fr :: prev,x⟩

/-- `rex_match_group_e`, in which `rep` is read from the frame. -/
def rexMatchGroupE (rxn : RexNode) (cur : ℕ) (fr : RexAux) (prev : List RexAux) (x : RexSlots) : Option RexRet := do
  let r ← rexGroupRep ns rec rxn cur fr prev x
  if r.rv ≠ .nomatch then return r
  else if fr.grep ≥ rxn.repmin then
    let q ← rec rxn.next cur 0 r.aux.tail r.slots
    let x := if q.rv = .matched then q.slots.record rxn.num fr.gstart (cur - fr.gstart) else q.slots
    return ⟨q.rv,r.aux.take 1 ++ q.aux,x⟩
  else return r

/-- `rex_match_rxn`, which calls itself through the functions above. -/
def rexMatchRxn : ℕ → RexFun
  | 0, _, _, _, _, _ => none
  | f + 1, rxn, cur, rep, aux, x =>
    match rxn with
    | none => some ⟨.matched,aux,x⟩
    | some i => do
      let rxn ← ns[i]?
      match aux with
      | [] => none
      | fr :: prev =>
        match rxn.type with
        | .string => rexMatchString str (rexMatchRxn f) i rxn cur rep aux x
        | .cls => rexMatchClass str (rexMatchRxn f) i rxn cur rep aux x
        | .choice => rexMatchChoice (rexMatchRxn f) rxn cur rep aux x
        | .groupS => rexMatchGroupS ns (rexMatchRxn f) rxn cur rep aux x
        | .groupE => rexMatchGroupE ns (rexMatchRxn f) rxn cur fr prev x
        | .banchor => if cur = 0 then rexMatchRxn f rxn.next cur 0 aux x else some ⟨.nomatch,aux,x⟩
        | .eanchor => if cur = str.length then rexMatchRxn f rxn.next cur 0 aux x else some ⟨.nomatch,aux,x⟩

/-- A write to `gstart` of the innermost frame. -/
def setGstart (cur : ℕ) : List RexAux → List RexAux
  | [] => []
  | fr :: prev => { fr with gstart := cur } :: prev

/-- The loop of `rex_match` over the positions from `cur` on, of which `k` are left. -/
def rexSearch (fuel : ℕ) : ℕ → ℕ → List RexAux → RexSlots → Option (RexRes × RexSlots)
  | 0, _, _, x => some (.nomatch,x)
  | k + 1, cur, aux, x => do
    let r ← rexMatchRxn ns str fuel (some 0) cur 0 (setGstart cur aux) x
    if r.rv ≠ .nomatch then return (r.rv,r.slots) else rexSearch fuel k (cur + 1) r.aux r.slots

/-- `rex_match`; `m` are the match slots. -/
def rexMatch (anchor : Bool) (m : List RexMatchLoc) (fuel : ℕ) : Option (RexRes × RexSlots) := do
  let rgs ← ns[0]?
  let rge ← ns[1]?
  if rgs.repmin ≠ 1 ∨ rgs.repmax ≠ 1 ∨ rge.repmin ≠ 1 ∨ rge.repmax ≠ 1 then return (.error,{ locs := m })
  else
    let r ← rexMatchRxn ns str fuel (some 0) 0 0 [⟨0,0⟩] { locs := m.map fun _ => ⟨false,0,0⟩ }
    if r.rv ≠ .nomatch ∨ anchor ∨ str.length = 0 then return (r.rv,r.slots)
    else rexSearch ns str fuel (str.length - 1) 1 r.aux r.slots

end Catlib.Rex

/-! # Traversals of a pattern

What a compiled pattern means, without the matcher: which tables of nodes are well formed, and
which parts of a string a traversal of the nodes consumes.
-/
namespace Catlib.Rex

variable {ns : List RexNode} {str : List UInt8}

/-- The start and end nodes of a group. -/
structure Group (ns : List RexNode) (i j : ℕ) (rgs rge : RexNode) : Prop where
  start : ns[i]? = some rgs
  stop : ns[j]? = some rge
  groupS : rgs.type = .groupS
  groupE : rge.type = .groupE
  forth : rgs.other = some j
  back : rge.other = some i
  num : rge.num = rgs.num
  repmin : rge.repmin = rgs.repmin
  repmax : rge.repmax = rgs.repmax

/-- The nodes from one on lead to another; a group lies between its two nodes. -/
inductive Seg (ns : List RexNode) : Option ℕ → Option ℕ → Prop
  | done {e : Option ℕ} : Seg ns e e
  | elem {e : Option ℕ} {i : ℕ} {n : RexNode} (hn : ns[i]? = some n) (ht : n.type = .string ∨ n.type = .cls)
      (h : Seg ns n.next e) : Seg ns (some i) e
  | anchor {e : Option ℕ} {i : ℕ} {n : RexNode} (hn : ns[i]? = some n) (ht : n.type = .banchor ∨ n.type = .eanchor)
      (h : Seg ns n.next e) : Seg ns (some i) e
  | choice {e : Option ℕ} {i : ℕ} {n : RexNode} (hn : ns[i]? = some n) (ht : n.type = .choice)
      (h1 : Seg ns n.opt1 e) (h2 : Seg ns n.opt2 e) : Seg ns (some i) e
  | group {e : Option ℕ} {i j : ℕ} {rgs rge : RexNode} (hg : Group ns i j rgs rge) (hb : Seg ns rgs.next (some j))
      (h : Seg ns rge.next e) : Seg ns (some i) e

/-- A well-formed pattern: the group of the nodes 0 and 1, behind which nothing comes. -/
structure WellFormed (ns : List RexNode) : Prop where
  pattern : ∃ rgs rge, Group ns 0 1 rgs rge ∧ Seg ns rgs.next (some 1) ∧ rge.next = none ∧ rgs.repmin = 1 ∧ rgs.repmax = 1

/-! ## Traversals -/

/-- A node that is traversed, and the part of the string. -/
structure RexStep where
  node : ℕ
  start : ℕ
  stop : ℕ
  deriving DecidableEq

/-- A number of repetitions within the bounds of a node. -/
def RexNode.Bounds (n : RexNode) (k : ℕ) : Prop := n.repmin ≤ k ∧ (n.repmax = rexWildcard ∨ k ≤ n.repmax)

/-- One repetition of a string or a class consumes what is between two positions. -/
inductive Fits (str : List UInt8) (n : RexNode) : ℕ → ℕ → Prop
  | string {p : ℕ} (ht : n.type = .string) (hp : p + n.str.length ≤ str.length) (hs : (str.drop p).take n.str.length = n.str) :
      Fits str n p (p + n.str.length)
  | cls {p : ℕ} {c : UInt8} (ht : n.type = .cls) (hp : str[p]? = some c) (hc : inSet n.set c = true) : Fits str n p (p + 1)

/-- An anchor holds at a position. -/
def Anchored (str : List UInt8) (n : RexNode) (p : ℕ) : Prop :=
  (n.type = .banchor → p = 0) ∧ (n.type = .eanchor → p = str.length)

/-- A number of repetitions of a string or a class. -/
inductive Reps (str : List UInt8) (i : ℕ) (n : RexNode) : ℕ → ℕ → ℕ → List RexStep → Prop
  | zero {p : ℕ} : Reps str i n 0 p p []
  | succ {k p q r : ℕ} {t : List RexStep} (hf : Fits str n p q) (h : Reps str i n k q r t) : Reps str i n (k + 1) p r (⟨i,p,q⟩ :: t)

mutual

/-- A traversal from a node to another. The steps of a group come in front of the one for the group itself. -/
inductive Trav (ns : List RexNode) (str : List UInt8) : Option ℕ → Option ℕ → ℕ → ℕ → List RexStep → Prop
  | done {e : Option ℕ} {p : ℕ} : Trav ns str e e p p []
  | elem {e : Option ℕ} {i k p q r : ℕ} {n : RexNode} {t u : List RexStep} (hn : ns[i]? = some n)
      (ht : n.type = .string ∨ n.type = .cls) (hr : Reps str i n k p q t) (hb : n.Bounds k) (h : Trav ns str n.next e q r u) : Trav ns str (some i) e p r (t ++ u)
  | anchor {e : Option ℕ} {i p r : ℕ} {n : RexNode} {u : List RexStep} (hn : ns[i]? = some n)
      (ht : n.type = .banchor ∨ n.type = .eanchor) (ha : Anchored str n p) (h : Trav ns str n.next e p r u) :
      Trav ns str (some i) e p r (⟨i,p,p⟩ :: u)
  | opt1 {e : Option ℕ} {i p r : ℕ} {n : RexNode} {u : List RexStep} (hn : ns[i]? = some n) (ht : n.type = .choice)
      (h : Trav ns str n.opt1 e p r u) : Trav ns str (some i) e p r (⟨i,p,p⟩ :: u)
  | opt2 {e : Option ℕ} {i p r : ℕ} {n : RexNode} {u : List RexStep} (hn : ns[i]? = some n) (ht : n.type = .choice)
      (h : Trav ns str n.opt2 e p r u) : Trav ns str (some i) e p r (⟨i,p,p⟩ :: u)
  | group {e : Option ℕ} {i j k p q r : ℕ} {rgs rge : RexNode} {t u : List RexStep} (hg : Group ns i j rgs rge)
      (hi : Iters ns str rgs.next j k p q t) (hb : rgs.Bounds k) (h : Trav ns str rge.next e q r u) :
      Trav ns str (some i) e p r (t ++ ⟨i,p,q⟩ :: u)

/-- A number of repetitions of the nodes up to the end node of a group. -/
inductive Iters (ns : List RexNode) (str : List UInt8) : Option ℕ → ℕ → ℕ → ℕ → ℕ → List RexStep → Prop
  | zero {b : Option ℕ} {j p : ℕ} : Iters ns str b j 0 p p []
  | succ {b : Option ℕ} {j k p q r : ℕ} {t u : List RexStep} (h : Trav ns str b (some j) p q t)
      (hi : Iters ns str b j k q r u) : Iters ns str b j (k + 1) p r (t ++ u)

end

/-- A traversal of the whole pattern. -/
abbrev Whole (ns : List RexNode) (str : List UInt8) (p q : ℕ) (t : List RexStep) : Prop := Trav ns str (some 0) none p q t

variable {n : RexNode} {i : ℕ}

theorem Fits.le {p q : ℕ} (h : Fits str n p q) : p ≤ q ∧ q ≤ str.length := by
  cases h with
  | string _ hp => exact ⟨Nat.le_add_right p _,hp⟩
  | cls _ hp => exact ⟨Nat.le_succ p,(List.getElem?_eq_some_iff.1 hp).1⟩

theorem Reps.le {k p q : ℕ} {t : List RexStep} (h : Reps str i n k p q t) : p ≤ q := by
  induction h with
  | zero => exact le_rfl
  | succ hf _ ih => exact hf.le.1.trans ih

mutual

theorem Trav.le {a e : Option ℕ} {p q : ℕ} {t : List RexStep} : Trav ns str a e p q t → p ≤ q
  | .done => le_rfl
  | .elem _ _ hr _ h => hr.le.trans h.le
  | .anchor _ _ _ h => h.le
  | .opt1 _ _ h => h.le
  | .opt2 _ _ h => h.le
  | .group _ hi _ h => hi.le.trans h.le

theorem Iters.le {b : Option ℕ} {j k p q : ℕ} {t : List RexStep} : Iters ns str b j k p q t → p ≤ q
  | .zero => le_rfl
  | .succ h hi => h.le.trans hi.le

end

end Catlib.Rex
