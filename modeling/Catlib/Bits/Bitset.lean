import Catlib.Logic.Runs
import Mathlib.Tactic.Common
import Mathlib.Order.ConditionallyCompleteLattice.Basic

/-! # Bit sets with a size, bitset.h and stduse.c

A set is an array of words of 32 bits. An index is compared with the number of bits before the array
is touched, and `err` ends the process; the comparison lets the number of bits itself pass. A
failed assertion and an access behind the array have no result.
-/
namespace Catlib.Bits

/-- `bitset_t`. -/
abbrev SetWord := BitVec 32

def bitsetLen (nbits : ℕ) : ℕ := (nbits + 31) / 32

variable {ι : Type} {set dst src : List SetWord} {nbits index i k : ℕ}

def putWord (set : List SetWord) (i : ℕ) (w : SetWord) : Option (List SetWord) :=
  if i < set.length then some (set.set i w) else none

/-- A loop that writes the first words. -/
def eachWord (f : ℕ → Option SetWord) (len : ℕ) (set : List SetWord) : Option (List SetWord) :=
  (List.range len).foldlM (fun set i => (f i).bind (putWord set i)) set

def bsetZero (set : List SetWord) (nbits : ℕ) : Option (List SetWord) := eachWord (fun _ => some 0) (bitsetLen nbits) set

def bsetFill (set : List SetWord) (nbits : ℕ) : Option (List SetWord) := eachWord (fun _ => some (~~~0)) (bitsetLen nbits) set

def bsetTest (set : List SetWord) (index : ℕ) : Option Bool :=
  set[index / 32]?.map fun w => w &&& 1#32 <<< (index % 32) != 0

/-- A word is combined with the mask of a bit. -/
def bsetUpd (op : SetWord → SetWord → SetWord) (set : List SetWord) (index : ℕ) : Option (List SetWord) :=
  set[index / 32]?.map fun w => set.set (index / 32) (op w (1#32 <<< (index % 32)))

def bsetSet (set : List SetWord) (index : ℕ) : Option (List SetWord) := bsetUpd (· ||| ·) set index

def bsetClr (set : List SetWord) (index : ℕ) : Option (List SetWord) := bsetUpd (fun w m => w &&& ~~~m) set index

def bsetFlip (set : List SetWord) (index : ℕ) : Option (List SetWord) := bsetUpd (· ^^^ ·) set index

def bsetSetTo (set : List SetWord) (index : ℕ) (val : Bool) : Option (List SetWord) :=
  if val then bsetSet set index else bsetClr set index

/-- `bset_copy`: whole words, and the last one bit by bit. -/
def bsetCopy (dst src : List SetWord) (nbits : ℕ) : Option (List SetWord) :=
  let len := bitsetLen nbits
  if len = 0 then some dst
  else (eachWord (fun i => src[i]?) (len - 1) dst).bind fun dst =>
    (List.range' ((len - 1) * 32) (nbits - (len - 1) * 32)).foldlM
      (fun dst i => (bsetTest src i).bind (bsetSetTo dst i)) dst

structure SafeBitset where
  nbits : ℕ
  len : ℕ
  set : List SetWord

/-- What comes back, or the end in `err`. -/
inductive Checked (ρ : Type) where
  | done (r : ρ)
  | err

/-- The assertion that the functions begin with. -/
def asserted {ρ : Type} (s : SafeBitset) (r : Option ρ) : Option ρ := if bitsetLen s.nbits = s.len then r else none

/-- An access to one bit. -/
def sbsAccess {ρ : Type} (s : SafeBitset) (index : ℕ) (r : Option ρ) : Option (Checked ρ) :=
  asserted s (if index > s.nbits then some .err else r.map .done)

def SafeBitset.with (s : SafeBitset) (r : Option (List SetWord)) : Option SafeBitset := r.map fun set => { s with set := set }

def sbsZero (s : SafeBitset) : Option SafeBitset := asserted s (s.with (bsetZero s.set s.nbits))

def sbsFill (s : SafeBitset) : Option SafeBitset := asserted s (s.with (bsetFill s.set s.nbits))

/-- `sbs_copy`, with the number of bits that it returns. -/
def sbsCopy (dst src : SafeBitset) : Option (SafeBitset × ℕ) :=
  asserted dst (asserted src ((dst.with (bsetCopy dst.set src.set (min dst.nbits src.nbits))).map fun s =>
    (s,min dst.nbits src.nbits)))

def sbsTest (s : SafeBitset) (index : ℕ) : Option (Checked Bool) := sbsAccess s index (bsetTest s.set index)

def sbsSet (s : SafeBitset) (index : ℕ) : Option (Checked SafeBitset) := sbsAccess s index (s.with (bsetSet s.set index))

def sbsClr (s : SafeBitset) (index : ℕ) : Option (Checked SafeBitset) := sbsAccess s index (s.with (bsetClr s.set index))

def sbsFlip (s : SafeBitset) (index : ℕ) : Option (Checked SafeBitset) := sbsAccess s index (s.with (bsetFlip s.set index))

def sbsSetTo (s : SafeBitset) (index : ℕ) (val : Bool) : Option (Checked SafeBitset) :=
  sbsAccess s index (s.with (bsetSetTo s.set index val))

/-- `sbs_new` with the block that the allocator gives, which has a word also for no bits. -/
def sbsNew (nbits : ℕ) (block : List SetWord) : Option SafeBitset := sbsZero ⟨nbits,bitsetLen nbits,block⟩

/-! ## Bits of an array -/

/-- The bit at an index. -/
def bitAt (set : List SetWord) (i : ℕ) : Bool := (set[i / 32]?.getD 0).getLsbD (i % 32)

theorem bitAt_of_word {w : SetWord} (h : set[i / 32]? = some w) : bitAt set i = w.getLsbD (i % 32) := by
  rw [bitAt,h,Option.getD_some]

theorem mask_bit (j : ℕ) (hj : j < 32) (m : ℕ) : (1#32 <<< m).getLsbD j = decide (j = m) := by
  rw [← BitVec.twoPow_eq,BitVec.getLsbD_twoPow]
  by_cases h : j = m
  · simp [← h, hj]
  · simp [h, Ne.symm h]

theorem bsetTest_spec (h : index / 32 < set.length) : bsetTest set index = some (bitAt set index) := by
  have hw := List.getElem?_eq_getElem h
  rw [bsetTest,hw,Option.map_some,bitAt_of_word hw,← BitVec.twoPow_eq,BitVec.and_twoPow]
  have hm : index % 32 < 32 := Nat.mod_lt _ (by decide)
  have hne : BitVec.twoPow 32 (index % 32) ≠ 0#32 := by
    intro he
    have := congrArg (fun w => w.getLsbD (index % 32)) he
    simp [hm] at this
  cases set[index / 32].getLsbD (index % 32) <;> simp [hne]

theorem bsetUpd_spec {op : SetWord → SetWord → SetWord} {f : Bool → Bool} (hop : ∀ w m : SetWord, ∀ j < 32,
    (op w m).getLsbD j = if m.getLsbD j then f (w.getLsbD j) else w.getLsbD j) (h : index / 32 < set.length) :
    ∃ set', bsetUpd op set index = some set' ∧ set'.length = set.length ∧
      ∀ i, bitAt set' i = if i = index then f (bitAt set i) else bitAt set i := by
  obtain ⟨w,hw⟩ : ∃ w, set[index / 32]? = some w := ⟨_,List.getElem?_eq_getElem h⟩
  refine ⟨_,by rw [bsetUpd,hw]; rfl,List.length_set,fun i => ?_⟩
  have hi : i % 32 < 32 := Nat.mod_lt _ (by decide)
  by_cases hword : index / 32 = i / 32
  · have hset : (set.set (index / 32) (op w (1#32 <<< (index % 32))))[i / 32]? =
        some (op w (1#32 <<< (index % 32))) := by rw [← hword,List.getElem?_set_self h]
    rw [bitAt_of_word hset,hop _ _ _ hi,mask_bit _ hi]
    rw [hword] at hw
    rw [@bitAt_of_word set i _ hw]
    simp only [decide_eq_true_eq]
    exact if_congr (by omega) rfl rfl
  · have hne : i ≠ index := fun he => hword (by rw [he])
    rw [if_neg hne,bitAt,bitAt,List.getElem?_set_ne hword]

theorem bsetSet_spec (h : index / 32 < set.length) : ∃ set', bsetSet set index = some set' ∧ set'.length = set.length ∧
    ∀ i, bitAt set' i = if i = index then true else bitAt set i :=
  bsetUpd_spec (f := fun _ => true) (fun w m j _ => by rw [BitVec.getLsbD_or]; cases m.getLsbD j <;> simp) h

theorem bsetClr_spec (h : index / 32 < set.length) : ∃ set', bsetClr set index = some set' ∧ set'.length = set.length ∧
    ∀ i, bitAt set' i = if i = index then false else bitAt set i :=
  bsetUpd_spec (f := fun _ => false) (fun w m j hj => by
    rw [BitVec.getLsbD_and,BitVec.getLsbD_not]; cases m.getLsbD j <;> simp [hj]) h

theorem bsetFlip_spec (h : index / 32 < set.length) : ∃ set', bsetFlip set index = some set' ∧ set'.length = set.length ∧
    ∀ i, bitAt set' i = if i = index then !bitAt set i else bitAt set i :=
  bsetUpd_spec (f := Bool.not) (fun w m j _ => by rw [BitVec.getLsbD_xor]; cases m.getLsbD j <;> simp) h

theorem bsetSetTo_spec (val : Bool) (h : index / 32 < set.length) : ∃ set', bsetSetTo set index val = some set' ∧
    set'.length = set.length ∧ ∀ i, bitAt set' i = if i = index then val else bitAt set i := by
  cases val with
  | true => exact bsetSet_spec h
  | false => exact bsetClr_spec h

/-! ## Loops -/

theorem eachWord_spec {f : ℕ → Option SetWord} {g : ℕ → SetWord} {len : ℕ} (hf : ∀ i < len, f i = some (g i))
    (hlen : len ≤ set.length) : ∃ set', eachWord f len set = some set' ∧ set'.length = set.length ∧
      ∀ i, bitAt set' i = if i / 32 < len then (g (i / 32)).getLsbD (i % 32) else bitAt set i := by
  induction len with
  | zero => exact ⟨set,rfl,rfl,fun i => (if_neg (Nat.not_lt_zero _)).symm⟩
  | succ len ih =>
    obtain ⟨set',hs,hl,hb⟩ := ih (fun i hi => hf i (by omega)) (by omega)
    have hlt : len < set'.length := by omega
    refine ⟨set'.set len (g len),?_,by rw [List.length_set,hl],fun i => ?_⟩
    · rw [eachWord,List.range_succ,List.foldlM_append]
      change (eachWord f len set).bind _ = _
      rw [hs]
      simp [hf len (Nat.lt_succ_self _), putWord, hlt]
    · by_cases hi : i / 32 = len
      · rw [if_pos (by omega),hi,bitAt_of_word (w := g len) (by rw [hi,List.getElem?_set_self hlt])]
      · rw [bitAt,List.getElem?_set_ne (Ne.symm hi)]
        change bitAt set' i = _
        rw [hb]
        exact if_congr (by omega) rfl rfl

theorem eachBit_spec (n lo : ℕ) (hd : ∀ i < lo + n, i / 32 < dst.length) (hs : ∀ i < lo + n, i / 32 < src.length) :
    ∃ dst', (List.range' lo n).foldlM (fun dst i => (bsetTest src i).bind (bsetSetTo dst i)) dst = some dst' ∧
      dst'.length = dst.length ∧ ∀ i, bitAt dst' i = if lo ≤ i ∧ i < lo + n then bitAt src i else bitAt dst i := by
  induction n generalizing lo dst with
  | zero => exact ⟨dst,rfl,rfl,fun i => (if_neg (by omega)).symm⟩
  | succ n ih =>
    obtain ⟨d₁,h₁,hl₁,hb₁⟩ := @bsetSetTo_spec dst _ (bitAt src lo) (hd lo (by omega))
    obtain ⟨d₂,h₂,hl₂,hb₂⟩ := @ih d₁ (lo + 1) (fun i hi => by rw [hl₁]; exact hd i (by omega)) fun i hi => hs i (by omega)
    refine ⟨d₂,?_,hl₂.trans hl₁,fun i => ?_⟩
    · rw [List.range'_succ,List.foldlM_cons,bsetTest_spec (hs lo (by omega))]
      simp only [Option.bind_some, h₁, Option.bind_eq_bind]
      exact h₂
    · rw [hb₂,hb₁]
      by_cases hi : i = lo
      · rw [if_neg (by omega),if_pos hi,if_pos (by omega),hi]
      · rw [if_neg hi]
        exact if_congr (by omega) rfl rfl

theorem bsetCopy_spec (hd : bitsetLen nbits ≤ dst.length) (hs : bitsetLen nbits ≤ src.length) :
    ∃ dst', bsetCopy dst src nbits = some dst' ∧ dst'.length = dst.length ∧
      ∀ i, bitAt dst' i = if i < nbits then bitAt src i else bitAt dst i := by
  unfold bitsetLen at hd hs
  by_cases h0 : (nbits + 31) / 32 = 0
  · exact ⟨dst,if_pos h0,rfl,fun i => (if_neg (by lia)).symm⟩
  · obtain ⟨d₁,h₁,hl₁,hb₁⟩ := @eachWord_spec dst (fun i => src[i]?) (fun i => src[i]?.getD 0)
      ((nbits + 31) / 32 - 1) (fun i hi => by rw [List.getElem?_eq_getElem (by lia)]; rfl) (by lia)
    obtain ⟨d₂,h₂,hl₂,hb₂⟩ := @eachBit_spec d₁ src (nbits - ((nbits + 31) / 32 - 1) * 32)
      (((nbits + 31) / 32 - 1) * 32) (fun i hi => by lia) fun i hi => by lia
    refine ⟨d₂,?_,hl₂.trans hl₁,fun i => ?_⟩
    · rw [bsetCopy,bitsetLen,if_neg h0,h₁,Option.bind_some,h₂]
    · rw [hb₂,hb₁]
      change (if _ then _ else if _ then bitAt src i else _) = _
      split_ifs <;> first | rfl | lia

/-! ## Sets of indices -/

/-- The assertion and the room that `sbs_new` has made. -/
structure SafeBitset.Ok (s : SafeBitset) : Prop where
  len : bitsetLen s.nbits = s.len
  room : s.set.length = max s.len 1

/-- A set of indices below the number of bits. -/
def SafeBitset.Holds (s : SafeBitset) (S : Set ℕ) : Prop := s.Ok ∧ ∀ i < s.nbits, bitAt s.set i = true ↔ i ∈ S

inductive SetOp (ι : Type) where
  | zero (d : ι)
  | fill (d : ι)
  | set (d : ι) (i : ℕ)
  | clr (d : ι) (i : ℕ)
  | flip (d : ι) (i : ℕ)
  | setTo (d : ι) (i : ℕ) (val : Bool)
  | copy (d s : ι)
  | test (d : ι) (i : ℕ)

/-- The access of an operation to one bit. -/
def SetOp.access : SetOp ι → Option (ι × ℕ)
  | .set d i | .clr d i | .flip d i | .setTo d i _ | .test d i => some (d,i)
  | _ => none

section
variable [DecidableEq ι]

/-- The sets after an operation on one of them, and what it returns. -/
def store (st : ι → SafeBitset) (d : ι) (r : Option (Checked SafeBitset)) : Option (Checked ((ι → SafeBitset) × ℕ)) :=
  r.map fun
    | .done s => .done (Function.update st d s,0)
    | .err => .err

def sbsStep (st : ι → SafeBitset) : SetOp ι → Option (Checked ((ι → SafeBitset) × ℕ))
  | .zero d => store st d ((sbsZero (st d)).map .done)
  | .fill d => store st d ((sbsFill (st d)).map .done)
  | .set d i => store st d (sbsSet (st d) i)
  | .clr d i => store st d (sbsClr (st d) i)
  | .flip d i => store st d (sbsFlip (st d) i)
  | .setTo d i val => store st d (sbsSetTo (st d) i val)
  | .copy d s => (sbsCopy (st d) (st s)).map fun r => .done (Function.update st d r.1,r.2)
  | .test d i => (sbsTest (st d) i).map fun
    | .done b => .done (st,b.toNat)
    | .err => .err

/-- What the operation means for sets of indices. -/
def absStep (nbits : ι → ℕ) (S : ι → Set ℕ) : SetOp ι → ι → Set ℕ
  | .zero d => Function.update S d ∅
  | .fill d => Function.update S d Set.univ
  | .set d i => Function.update S d (insert i (S d))
  | .clr d i => Function.update S d (S d \ {i})
  | .flip d i => Function.update S d (symmDiff (S d) {i})
  | .setTo d i val => Function.update S d (if val then insert i (S d) else S d \ {i})
  | .copy d s => Function.update S d {i | if i < min (nbits d) (nbits s) then i ∈ S s else i ∈ S d}
  | .test _ _ => S

/-- The sets of numbers that a family of bit sets stands for. -/
def Refines (nbits : ι → ℕ) (st : ι → SafeBitset) (S : ι → Set ℕ) : Prop := ∀ d, (st d).nbits = nbits d ∧ (st d).Holds (S d)

/-- What `sbs_test` and `sbs_copy` have to return. -/
def ReplyRight (nbits : ι → ℕ) (S : ι → Set ℕ) (r : ℕ) : SetOp ι → Prop
  | .test d i => r ≠ 0 ↔ i ∈ S d
  | .copy d s => r = min (nbits d) (nbits s)
  | _ => True

/-- The index of the operation is not below the number of bits. -/
def SetOp.Outside (nbits : ι → ℕ) (op : SetOp ι) : Prop := ∃ d i, op.access = some (d,i) ∧ nbits d ≤ i

/-- An index that is too large is an error, and everything else does what it means. -/
def StepRight (nbits : ι → ℕ) (st : ι → SafeBitset) (S : ι → Set ℕ) (op : SetOp ι) : Prop :=
  (op.Outside nbits → sbsStep st op = some .err) ∧
  (¬op.Outside nbits → ∃ st' r, sbsStep st op = some (.done (st',r)) ∧ Refines nbits st' (absStep nbits S op) ∧
    ReplyRight nbits S r op)

end

variable {s t : SafeBitset} {S T : Set ℕ}

theorem asserted_eq {ρ : Type} (h : s.Ok) (r : Option ρ) : asserted s r = r := if_pos h.len

theorem SafeBitset.Ok.word (h : s.Ok) (hi : index < s.nbits) : index / 32 < s.set.length := by
  have hl := h.len
  rw [h.room,← hl]
  unfold bitsetLen
  omega

theorem SafeBitset.Holds.with {f : Option (List SetWord)} (h : s.Ok) (hf : ∃ set', f = some set' ∧ set'.length = s.set.length ∧
    ∀ i < s.nbits, bitAt set' i = true ↔ i ∈ T) : ∃ s', s.with f = some s' ∧ s'.nbits = s.nbits ∧ s'.Holds T := by
  obtain ⟨set',rfl,hl,hb⟩ := hf
  exact ⟨{ s with set := set' },rfl,rfl,⟨h.len,hl.trans h.room⟩,hb⟩

theorem sbsZero_spec (h : s.Ok) : ∃ s', sbsZero s = some s' ∧ s'.nbits = s.nbits ∧ s'.Holds ∅ := by
  have hl := h.len
  have hroom := h.room
  obtain ⟨set',hs,hlen,hb⟩ := @eachWord_spec s.set (fun _ => some 0) (fun _ => 0) (bitsetLen s.nbits)
    (fun _ _ => rfl) (by omega)
  rw [sbsZero,asserted_eq h]
  refine SafeBitset.Holds.with h ⟨set',hs,hlen,fun i hi => ?_⟩
  rw [hb]
  unfold bitsetLen
  rw [if_pos (by omega)]
  simp

theorem sbsFill_spec (h : s.Ok) : ∃ s', sbsFill s = some s' ∧ s'.nbits = s.nbits ∧ s'.Holds Set.univ := by
  have hl := h.len
  have hroom := h.room
  obtain ⟨set',hs,hlen,hb⟩ := @eachWord_spec s.set (fun _ => some (~~~0)) (fun _ => ~~~0)
    (bitsetLen s.nbits) (fun _ _ => rfl) (by omega)
  rw [sbsFill,asserted_eq h]
  refine SafeBitset.Holds.with h ⟨set',hs,hlen,fun i hi => ?_⟩
  have hm : i % 32 < 32 := Nat.mod_lt _ (by decide)
  rw [hb,if_pos (by unfold bitsetLen; omega),BitVec.getLsbD_not]
  simp [hm]

theorem sbsCopy_spec (hs : s.Holds S) (ht : t.Holds T) : ∃ s', sbsCopy s t = some (s',min s.nbits t.nbits) ∧
    s'.nbits = s.nbits ∧ s'.Holds {i | if i < min s.nbits t.nbits then i ∈ T else i ∈ S} := by
  have hle : ∀ {u : SafeBitset}, u.Ok → min s.nbits t.nbits ≤ u.nbits → bitsetLen (min s.nbits t.nbits) ≤ u.set.length := by
    intro u hu hmin
    have hl := hu.len
    have hroom := hu.room
    unfold bitsetLen at *
    omega
  obtain ⟨set',hset,hlen,hb⟩ := bsetCopy_spec (hle hs.1 (min_le_left _ _)) (hle ht.1 (min_le_right _ _))
  obtain ⟨s',hw,hn,hh⟩ := SafeBitset.Holds.with (T := {i | if i < min s.nbits t.nbits then i ∈ T else i ∈ S}) hs.1
    ⟨set',hset,hlen,fun i hi => by
      rw [hb]
      change _ ↔ if i < min s.nbits t.nbits then i ∈ T else i ∈ S
      split
      · rename_i hmin
        exact ht.2 i (lt_of_lt_of_le hmin (min_le_right _ _))
      · exact hs.2 i hi⟩
  exact ⟨s',by rw [sbsCopy,asserted_eq hs.1,asserted_eq ht.1,hw]; rfl,hn,hh⟩

theorem sbsAccess_lt {ρ : Type} (h : s.Ok) (hi : index < s.nbits) (r : Option ρ) : sbsAccess s index r = r.map .done := by
  rw [sbsAccess,asserted_eq h,if_neg (by omega)]

theorem access_spec {f : ℕ → Option (List SetWord)} {b : Bool → Bool} (hs : s.Holds S) (hi : index < s.nbits)
    (hf : ∃ set', f index = some set' ∧ set'.length = s.set.length ∧
      ∀ i, bitAt set' i = if i = index then b (bitAt s.set i) else bitAt s.set i)
    (hT : ∀ i < s.nbits, i ∈ T ↔ if i = index then b (bitAt s.set i) = true else i ∈ S) :
    ∃ s', sbsAccess s index (s.with (f index)) = some (.done s') ∧ s'.nbits = s.nbits ∧ s'.Holds T := by
  obtain ⟨set',hset,hl,hb⟩ := hf
  obtain ⟨s',hw,hn,hh⟩ := SafeBitset.Holds.with hs.1 ⟨set',hset,hl,fun i hi' => by
    rw [hb,hT i hi']
    split
    · rfl
    · exact hs.2 i hi'⟩
  exact ⟨s',by rw [sbsAccess_lt hs.1 hi,hw]; rfl,hn,hh⟩

section
variable [DecidableEq ι] {nb : ι → ℕ} {st : ι → SafeBitset} {A : ι → Set ℕ} {op : SetOp ι} {d : ι}

theorem Refines.update (h : Refines nb st A) {s' : SafeBitset} (hn : s'.nbits = (st d).nbits) (hh : s'.Holds T) :
    Refines nb (Function.update st d s') (Function.update A d T) := by
  intro e
  by_cases he : e = d
  · subst he
    rw [Function.update_self,Function.update_self]
    exact ⟨hn.trans (h e).1,hh⟩
  · rw [Function.update_of_ne he,Function.update_of_ne he]
    exact h e

theorem step_inside (h : Refines nb st A) (hin : ∀ d i, op.access = some (d,i) → i < nb d) :
    ∃ st' r, sbsStep st op = some (.done (st',r)) ∧ Refines nb st' (absStep nb A op) ∧ ReplyRight nb A r op := by
  have hlt : ∀ {d i}, op.access = some (d,i) → i < (st d).nbits := fun ha => by rw [(h _).1]; exact hin _ _ ha
  cases op with
  | zero d =>
    obtain ⟨s',hs,hn,hh⟩ := sbsZero_spec (h d).2.1
    exact ⟨_,_,by rw [sbsStep,hs]; rfl,h.update hn hh,trivial⟩
  | fill d =>
    obtain ⟨s',hs,hn,hh⟩ := sbsFill_spec (h d).2.1
    exact ⟨_,_,by rw [sbsStep,hs]; rfl,h.update hn hh,trivial⟩
  | set d i =>
    obtain ⟨s',hs,hn,hh⟩ := access_spec (f := bsetSet (st d).set) (b := fun _ => true)
      (T := insert i (A d)) (h d).2 (hlt rfl) (bsetSet_spec ((h d).2.1.word (hlt rfl)))
      fun j _ => by by_cases hj : j = i <;> simp [hj]
    exact ⟨_,_,by rw [sbsStep,sbsSet,hs]; rfl,h.update hn hh,trivial⟩
  | clr d i =>
    obtain ⟨s',hs,hn,hh⟩ := access_spec (f := bsetClr (st d).set) (b := fun _ => false)
      (T := A d \ {i}) (h d).2 (hlt rfl) (bsetClr_spec ((h d).2.1.word (hlt rfl)))
      fun j _ => by by_cases hj : j = i <;> simp [hj]
    exact ⟨_,_,by rw [sbsStep,sbsClr,hs]; rfl,h.update hn hh,trivial⟩
  | flip d i =>
    obtain ⟨s',hs,hn,hh⟩ := access_spec (f := bsetFlip (st d).set) (b := Bool.not)
      (T := symmDiff (A d) {i}) (h d).2 (hlt rfl)
      (bsetFlip_spec ((h d).2.1.word (hlt rfl))) fun j hj' => by
        have := (h d).2.2 j hj'
        by_cases hj : j = i <;> simp [hj, Set.mem_symmDiff]
        rw [← hj,← this]
        simp
    exact ⟨_,_,by rw [sbsStep,sbsFlip,hs]; rfl,h.update hn hh,trivial⟩
  | setTo d i val =>
    obtain ⟨s',hs,hn,hh⟩ := access_spec (f := fun i => bsetSetTo (st d).set i val) (b := fun _ => val)
      (T := if val then insert i (A d) else A d \ {i}) (h d).2 (hlt rfl)
      (bsetSetTo_spec val ((h d).2.1.word (hlt rfl))) fun j _ => by by_cases hj : j = i <;> cases val <;> simp [hj]
    exact ⟨_,_,by rw [sbsStep,sbsSetTo,hs]; rfl,h.update hn hh,trivial⟩
  | copy d s =>
    obtain ⟨s',hs,hn,hh⟩ := sbsCopy_spec (h d).2 (h s).2
    rw [(h d).1,(h s).1] at hs hh
    exact ⟨_,_,by rw [sbsStep,hs]; rfl,h.update hn hh,rfl⟩
  | test d i =>
    refine ⟨st,(bitAt (st d).set i).toNat,?_,h,?_⟩
    · rw [sbsStep,sbsTest,sbsAccess_lt (h d).2.1 (hlt rfl),bsetTest_spec ((h d).2.1.word (hlt rfl))]
      rfl
    · have := (h d).2.2 i (hlt rfl)
      rw [ReplyRight,← this]
      cases bitAt (st d).set i <;> simp

theorem sbsAccess_gt {ρ : Type} (h : s.Ok) (hi : s.nbits < index) (r : Option ρ) : sbsAccess s index r = some .err := by
  rw [sbsAccess,asserted_eq h,if_pos hi]

theorem sbsAccess_eq {ρ : Type} (h : s.Ok) (r : Option ρ) : sbsAccess s s.nbits r = r.map .done := by
  rw [sbsAccess,asserted_eq h,if_neg (lt_irrefl _)]

theorem step_beyond (h : Refines nb st A) {i : ℕ} (ha : op.access = some (d,i)) (hi : nb d < i) : sbsStep st op = some .err := by
  have hgt : (st d).nbits < i := by rw [(h d).1]; exact hi
  have hok := (h d).2.1
  cases op <;> simp only [SetOp.access, Option.some.injEq, Prod.mk.injEq, reduceCtorEq] at ha
  all_goals
    obtain ⟨rfl,rfl⟩ := ha
    simp only [sbsStep, sbsSet, sbsClr, sbsFlip, sbsSetTo, sbsTest, sbsAccess_gt hok hgt]
    rfl

theorem step_edge (h : Refines nb st A) (ha : op.access = some (d,nb d)) : sbsStep st op ≠ some .err := by
  have hok := (h d).2.1
  have hnb := (h d).1
  cases op <;> simp only [SetOp.access, Option.some.injEq, Prod.mk.injEq, reduceCtorEq] at ha
  all_goals
    obtain ⟨rfl,rfl⟩ := ha
    simp only [sbsStep, sbsSet, sbsClr, sbsFlip, sbsSetTo, sbsTest, ← hnb, sbsAccess_eq hok, store]
    intro he
    simp at he

theorem stepRight_iff (h : Refines nb st A) : StepRight nb st A op ↔ ∀ d, op.access ≠ some (d,nb d) := by
  constructor
  · intro hr d ha
    exact step_edge h ha (hr.1 ⟨d,nb d,ha,le_rfl⟩)
  · intro hne
    refine ⟨fun ⟨d,i,ha,hi⟩ => step_beyond h ha (lt_of_le_of_ne hi fun he => hne d (he ▸ ha)),fun hout => ?_⟩
    exact step_inside h fun d i ha => not_le.mp fun hi => hout ⟨d,i,ha,hi⟩

/-- One operation after another, with the sets of indices beside the arrays. -/
def bothStep (nb : ι → ℕ) (c : (ι → SafeBitset) × (ι → Set ℕ)) (op : SetOp ι) (c' : (ι → SafeBitset) × (ι → Set ℕ)) : Prop :=
  (∃ r, sbsStep c.1 op = some (.done (c'.1,r))) ∧ c'.2 = absStep nb c.2 op

theorem sbsNew_spec (n : ℕ) {block : List SetWord} (hb : block.length = max (bitsetLen n) 1) :
    ∃ s, sbsNew n block = some s ∧ s.nbits = n ∧ s.Holds ∅ := sbsZero_spec ⟨rfl,hb⟩

/-- **Any run on any family of new bit sets** is right in every step, unless an operation asks for the bit
whose index is the number of bits. -/
theorem sbs_run_iff (nb : ι → ℕ) (block : ι → List SetWord) (hb : ∀ d, (block d).length = max (bitsetLen (nb d)) 1)
    (ops : List (SetOp ι)) : ∃ st : ι → SafeBitset, (∀ d, sbsNew (nb d) (block d) = some (st d)) ∧
      (Along (bothStep nb) (fun c op => StepRight nb c.1 c.2 op) ops (st,fun _ => ∅) ↔
        Along (bothStep nb) (fun _ op => ∀ d, op.access ≠ some (d,nb d)) ops (st,fun _ => ∅)) := by
  choose st hst hn hh using fun d => sbsNew_spec (nb d) (hb d)
  refine ⟨st,hst,Along.iff (I := fun c : (ι → SafeBitset) × (ι → Set ℕ) => Refines nb c.1 c.2) (R := fun _ _ => True)
    (fun c op hc _ => stepRight_iff hc)
    (fun c op hc _ hr c' hnext => ?_) (fun d => ⟨hn d,hh d⟩) (along_true _ _)⟩
  obtain ⟨⟨r,hstep⟩,habs⟩ := hnext
  have hin : ¬op.Outside nb := fun hout => by
    rw [hr.1 hout] at hstep
    cases hstep
  obtain ⟨st',r',hs,href,-⟩ := hr.2 hin
  rw [hs] at hstep
  cases hstep
  rw [habs]
  exact href

end

/-- Two sets of 5 and 40 bits: the larger one is filled and copied into the smaller one. -/
theorem sbs_run_iff_copy : ∃ st : Bool → SafeBitset, (∀ d, sbsNew (if d then 40 else 5) (if d then [7,7] else [7]) = some (st d)) ∧
    Along (bothStep fun d => if d then 40 else 5) (fun c op => StepRight (fun d => if d then 40 else 5) c.1 c.2 op)
      [.fill true,.copy false true,.clr true 39,.test false 4] (st,fun _ => ∅) := by
  obtain ⟨st,hst,hiff⟩ := sbs_run_iff (fun d => if d then 40 else 5) (fun d => if d then [7,7] else [7])
    (by intro d; cases d <;> rfl) [.fill true,.copy false true,.clr true 39,.test false 4]
  refine ⟨st,hst,hiff.mpr ⟨?_,fun _ _ => ⟨?_,fun _ _ => ⟨?_,fun _ _ => ⟨?_,fun _ _ => trivial⟩⟩⟩⟩⟩
  all_goals
    intro d
    cases d <;> decide

/-- The bit with the index 32 of a set of 32 bits is read behind its array. -/
theorem sbs_test_edge : ¬∀ (nb : Unit → ℕ) (block : Unit → List SetWord), (∀ d, (block d).length = max (bitsetLen (nb d)) 1) →
    ∀ (ops : List (SetOp Unit)) (st : Unit → SafeBitset), (∀ d, sbsNew (nb d) (block d) = some (st d)) →
      Along (bothStep nb) (fun c op => StepRight nb c.1 c.2 op) ops (st,fun _ => ∅) := by
  intro h
  obtain ⟨s,hs,hn,hh⟩ := @sbsNew_spec 32 [0] rfl
  have hr := (h (fun _ => 32) (fun _ => [0]) (fun _ => rfl) [.test () 32] (fun _ => s) fun _ => hs).1
  exact (stepRight_iff fun _ => ⟨hn,hh⟩).mp hr () rfl

end Catlib.Bits
