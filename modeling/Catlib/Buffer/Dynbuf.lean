import Catlib.Buffer.Memory
import Mathlib.Algebra.Group.Nat.Defs

/-! # The growable buffer of buffer.c

A buffer has a block of `size` cells and in it `len` cells of content from `off` on. The
memory manager is asked by each call and may refuse; what it adds to a block holds anything.
-/
namespace Catlib.Buffer

variable {α : Type*}

def ulongMax : ℕ := 2 ^ 64 - 1

structure Dynbuf (α : Type*) where
  size : ℕ
  data : Option (List α)
  off : ℕ
  len : ℕ

/-- The cells behind `data`; a null pointer has none. -/
def Dynbuf.mem (b : Dynbuf α) : List α := b.data.getD []

/-- `dyb_sanity`. -/
def Dynbuf.Ck (b : Dynbuf α) : Prop := b.off ≤ b.size ∧ b.len ≤ b.size - b.off ∧ (b.data.isSome = true ∨ b.size = 0)

instance Dynbuf.decidableCk (b : Dynbuf α) : Decidable b.Ck := inferInstanceAs (Decidable (_ ∧ _))

def dybInit : Dynbuf α := ⟨0,none,0,0⟩

/-- The answer of a memory manager: no block of that size, or one with these cells where the old
one had none. -/
abbrev MemMgr (α : Type*) := ℕ → Option (ℕ → α)

def memResize (mm : MemMgr α) (old : List α) (sz : ℕ) : Option (List α) :=
  (mm sz).map fun fill => (List.range sz).map fun i => old.getD i (fill i)

/-- What `dyb_resv` asks for: twice the size if that is more. -/
def resvTo (size sz : ℕ) : ℕ := if size < ulongMax / 2 ∧ sz < size * 2 then size * 2 else sz

def dybResv (mm : MemMgr α) (b : Dynbuf α) (sz : ℕ) : Option (ℤ × Dynbuf α) :=
  if ¬b.Ck then none
  else if sz ≤ b.size then some (0,b)
  else
    match memResize mm b.mem (resvTo b.size sz) with
    | none => some (-1,b)
    | some p => some (0,{ b with data := some p, size := resvTo b.size sz })

def dybClear (b : Dynbuf α) : Option (Dynbuf α) := if ¬b.Ck then none else some dybInit

def dybEmpty (b : Dynbuf α) : Option (Dynbuf α) := if ¬b.Ck then none else some { b with off := 0, len := 0 }

/-- `memmove(b->data + off, p, len)`. -/
def store (b : Dynbuf α) (off : ℕ) (p : List α) : Option (Dynbuf α) :=
  (writeMem b.mem off p).map fun d => { b with data := b.data.map fun _ => d }

def catTail (b : Dynbuf α) (p : List α) : Option (ℤ × Dynbuf α) :=
  (store b (b.off + b.len) p).map fun b' => (0,{ b' with len := b.len + p.length })

def dybCat (b : Dynbuf α) (p : List α) : Option (ℤ × Dynbuf α) :=
  if ¬b.Ck then none
  else if b.size - b.off - b.len < p.length then some (-1,b)
  else catTail b p

def dybCatA (mm : MemMgr α) (b : Dynbuf α) (p : List α) : Option (ℤ × Dynbuf α) :=
  if ¬b.Ck then none
  else if b.size - b.off - b.len < p.length then
    if ulongMax - b.off - b.len < p.length then some (-1,b)
    else (dybResv mm b (b.off + b.len + p.length)).bind fun r => if r.1 < 0 then some (-1,r.2) else catTail r.2 p
  else catTail b p

def setTail (b : Dynbuf α) (off : ℕ) (p : List α) : Option (ℤ × Dynbuf α) :=
  (store b off p).map fun b' => (0,{ b' with off := off, len := p.length })

def dybSet (b : Dynbuf α) (off : ℕ) (p : List α) : Option (ℤ × Dynbuf α) :=
  if ¬b.Ck then none
  else if b.size < off ∨ b.size - off < p.length then some (-1,b)
  else setTail b off p

/-- `dyb_set_a`, with its test of the range the way it is written. -/
def dybSetA (mm : MemMgr α) (b : Dynbuf α) (off : ℕ) (p : List α) : Option (ℤ × Dynbuf α) :=
  if ¬b.Ck then none
  else if ulongMax - off > p.length then some (-1,b)
  else
    let tlen := (off + p.length) % 2 ^ 64
    if b.size < tlen then (dybResv mm b tlen).bind fun r => if r.1 < 0 then some (-1,r.2) else setTail r.2 off p
    else setTail b off p

/-- `dyb_copy`, which reserves the size that the target has already. -/
def dybCopy (mm : MemMgr α) (db sb : Dynbuf α) : Option (ℤ × Dynbuf α) :=
  if ¬db.Ck ∨ ¬sb.Ck then none
  else
    (dybResv mm db db.size).bind fun r =>
      if r.1 < 0 then some (-1,r.2) else (readMem sb.mem sb.off sb.len).bind fun p => setTail r.2 sb.off p

/-! ## What the calls are for -/

/-- The content. -/
def Dynbuf.bytes (b : Dynbuf α) : List α := (b.mem.drop b.off).take b.len

structure Dynbuf.Sane (b : Dynbuf α) : Prop where
  ck : b.Ck
  mem : b.mem.length = b.size
  le : b.size ≤ ulongMax

inductive DybOp (α : Type*)
  | resv (sz : ℕ)
  | cat (p : List α)
  | catA (p : List α)
  | set (off : ℕ) (p : List α)
  | setA (off : ℕ) (p : List α)
  | copy (sb : Dynbuf α)
  | empty
  | clear

/-- The arguments are unsigned longs, and a source is sane. -/
def DybOp.Proper : DybOp α → Prop
  | .resv sz => sz ≤ ulongMax
  | .cat p => p.length ≤ ulongMax
  | .catA p => p.length ≤ ulongMax
  | .set off p => off ≤ ulongMax ∧ p.length ≤ ulongMax
  | .setA off p => off ≤ ulongMax ∧ p.length ≤ ulongMax
  | .copy sb => sb.Sane
  | .empty => True
  | .clear => True

def dybStep (mm : MemMgr α) (b : Dynbuf α) : DybOp α → Option (ℤ × Dynbuf α)
  | .resv sz => dybResv mm b sz
  | .cat p => dybCat b p
  | .catA p => dybCatA mm b p
  | .set off p => dybSet b off p
  | .setA off p => dybSetA mm b off p
  | .copy sb => dybCopy mm b sb
  | .empty => (dybEmpty b).map ((0,·))
  | .clear => (dybClear b).map ((0,·))

/-- The offset and the content that a call is meant to leave. -/
def meant (b : Dynbuf α) : DybOp α → ℕ × List α
  | .resv _ => (b.off,b.bytes)
  | .cat p => (b.off,b.bytes ++ p)
  | .catA p => (b.off,b.bytes ++ p)
  | .set off p => (off,p)
  | .setA off p => (off,p)
  | .copy sb => (sb.off,sb.bytes)
  | .empty => (0,[])
  | .clear => (0,[])

/-- Growing to `need` cells is refused, or is beyond the range. -/
def Refused (mm : MemMgr α) (b : Dynbuf α) (need : ℕ) : Prop :=
  ulongMax < need ∨ b.size < need ∧ mm (resvTo b.size need) = none

/-- When a call may fail: the plain ones for want of room, the others for want of memory. -/
def MayFail (mm : MemMgr α) (b : Dynbuf α) : DybOp α → Prop
  | .resv sz => Refused mm b sz
  | .cat p => b.size < b.off + b.len + p.length
  | .catA p => Refused mm b (b.off + b.len + p.length)
  | .set off p => b.size < off + p.length
  | .setA off p => Refused mm b (off + p.length)
  | .copy sb => Refused mm b (sb.off + sb.len)
  | .empty => False
  | .clear => False

/-- A call comes back with a sane buffer; it has done what it is meant for, or it may fail and
has changed nothing. -/
def Meets (mm : MemMgr α) (b : Dynbuf α) (op : DybOp α) : Prop :=
  ∃ ret b', dybStep mm b op = some (ret,b') ∧ b'.Sane ∧
    (ret = 0 ∧ (b'.off,b'.bytes) = meant b op ∨
      ret = -1 ∧ b'.off = b.off ∧ b'.len = b.len ∧ b'.bytes = b.bytes ∧ MayFail mm b op)

/-- The calls that go well: `dyb_set_a` only up to the very end of the range or where memory is
refused, `dyb_copy` only into a target that has the room already. -/
def GoesWell (mm : MemMgr α) (b : Dynbuf α) : DybOp α → Prop
  | .setA off p => off + p.length = ulongMax ∨
      off + p.length < ulongMax ∧ b.size < off + p.length ∧ mm (resvTo b.size (off + p.length)) = none ∨
      ulongMax < off + p.length ∧ b.size < off + p.length - 2 ^ 64 ∧ mm (resvTo b.size (off + p.length - 2 ^ 64)) = none
  | .copy sb => sb.off + sb.len ≤ b.size
  | _ => True

variable {mm : MemMgr α} {b b' sb : Dynbuf α} {p : List α} {off sz : ℕ}

theorem le_resvTo (size sz : ℕ) : sz ≤ resvTo size sz := by
  unfold resvTo
  split <;> omega

theorem resvTo_le {size : ℕ} (h : sz ≤ ulongMax) : resvTo size sz ≤ ulongMax := by
  unfold resvTo
  split
  · unfold ulongMax at *
    omega
  · exact h

theorem Dynbuf.Sane.room (h : b.Sane) : b.off + b.len ≤ b.size := by
  obtain ⟨h1,h2,-⟩ := h.ck
  omega

theorem Dynbuf.Sane.bytes_length (h : b.Sane) : b.bytes.length = b.len := by
  have := h.room
  have := h.mem
  rw [Dynbuf.bytes,List.length_take,List.length_drop]
  omega

/-- A buffer with more memory behind the old one. -/
structure Grown (b b' : Dynbuf α) : Prop where
  sane : b'.Sane
  off : b'.off = b.off
  len : b'.len = b.len
  bytes : b'.bytes = b.bytes

theorem Grown.refl (h : b.Sane) : Grown b b := ⟨h,rfl,rfl,rfl⟩

variable (mm) in
theorem dybResv_spec (h : b.Sane) (hsz : sz ≤ ulongMax) : ∃ ret b', dybResv mm b sz = some (ret,b') ∧ Grown b b' ∧
    (ret = 0 ∧ sz ≤ b'.size ∧ b.size ≤ b'.size ∨ ret = -1 ∧ b.size < sz ∧ mm (resvTo b.size sz) = none) := by
  rw [dybResv,if_neg (not_not.2 h.ck)]
  by_cases hle : sz ≤ b.size
  · rw [if_pos hle]
    exact ⟨0,b,rfl,.refl h,Or.inl ⟨rfl,hle,le_refl _⟩⟩
  · rw [if_neg hle,memResize]
    cases hmm : mm (resvTo b.size sz) with
    | none => exact ⟨-1,b,rfl,.refl h,Or.inr ⟨rfl,by lia,rfl⟩⟩
    | some fill =>
      have hto := le_resvTo b.size sz
      have hroom := h.room
      have hmem := h.mem
      refine ⟨0,_,rfl,⟨⟨⟨?_,?_,Or.inl rfl⟩,?_,resvTo_le hsz⟩,rfl,rfl,?_⟩,Or.inl ⟨rfl,hto,?_⟩⟩
      · show b.off ≤ resvTo b.size sz
        lia
      · show b.len ≤ resvTo b.size sz - b.off
        lia
      · show ((List.range (resvTo b.size sz)).map _).length = resvTo b.size sz
        rw [List.length_map,List.length_range]
      · show (((List.range (resvTo b.size sz)).map fun i => b.mem.getD i (fill i)).drop b.off).take b.len = b.bytes
        apply List.ext_getElem?
        intro i
        by_cases hi : i < b.len
        · rw [Dynbuf.bytes,List.getElem?_take_of_lt hi,List.getElem?_take_of_lt hi,List.getElem?_drop,List.getElem?_drop,
            List.getElem?_map,List.getElem?_range (by lia),Option.map_some,List.getD_eq_getElem?_getD,
            List.getElem?_eq_getElem (by lia),Option.getD_some]
        · rw [List.getElem?_eq_none (by rw [List.length_take]; lia),
            List.getElem?_eq_none (by rw [h.bytes_length]; lia)]
      · show b.size ≤ resvTo b.size sz
        lia

theorem store_spec (h : b.Sane) (hp : off + p.length ≤ b.size) : ∃ b', store b off p = some b' ∧ b'.size = b.size ∧
    b'.data.isSome = b.data.isSome ∧ b'.mem = b.mem.take off ++ p ++ b.mem.drop (off + p.length) := by
  have hmem := h.mem
  have hw : writeMem b.mem off p = some (b.mem.take off ++ p ++ b.mem.drop (off + p.length)) := writeMem_some (by omega)
  have hlen := writeMem_length hw
  refine ⟨{ b with data := b.data.map fun _ => b.mem.take off ++ p ++ b.mem.drop (off + p.length) },?_,rfl,
    Option.isSome_map,?_⟩
  · rw [store,hw]
    rfl
  cases hdata : b.data with
  | some d => rfl
  | none =>
    -- without a block there is nothing to store
    have hzero : b.mem = [] := by rw [Dynbuf.mem,hdata]; rfl
    rw [hzero,List.length_nil,List.length_eq_zero_iff] at hlen
    rw [hzero,hlen]
    rfl

theorem store_none (h : b.Sane) (hp : b.size < off + p.length) : store b off p = none := by
  rw [store,writeMem_none (by rw [h.mem]; exact hp)]
  rfl

theorem store_sane {b' : Dynbuf α} {n m : ℕ} (h : b.Sane) (hp : off + p.length ≤ b.size) (hb : b'.size = b.size)
    (hd : b'.data.isSome = b.data.isSome) (hm : b'.mem = b.mem.take off ++ p ++ b.mem.drop (off + p.length))
    (hn : n + m ≤ b.size) : Dynbuf.Sane { b' with off := n, len := m } := by
  have hmem := h.mem
  refine ⟨⟨?_,?_,?_⟩,?_,?_⟩
  · show n ≤ b'.size
    omega
  · show m ≤ b'.size - n
    omega
  · show b'.data.isSome = true ∨ b'.size = 0
    rw [hd,hb]
    exact h.ck.2.2
  · show b'.mem.length = b'.size
    rw [hm,hb]
    simp only [List.length_append, List.length_take, List.length_drop]
    omega
  · show b'.size ≤ ulongMax
    rw [hb]
    exact h.le

theorem setTail_spec (h : b.Sane) (hp : off + p.length ≤ b.size) :
    ∃ b', setTail b off p = some (0,b') ∧ b'.Sane ∧ (b'.off,b'.bytes) = (off,p) := by
  obtain ⟨b1,h1,hs,hd,hm⟩ := store_spec h hp
  refine ⟨_,by rw [setTail,h1]; rfl,store_sane h hp hs hd hm hp,?_⟩
  have htake : (b.mem.take off).length = off := by
    rw [List.length_take,h.mem]
    omega
  show (off,(b1.mem.drop off).take p.length) = (off,p)
  rw [hm,List.append_assoc,List.drop_left' htake,List.take_left' rfl]

theorem catTail_spec (h : b.Sane) (hp : b.off + b.len + p.length ≤ b.size) :
    ∃ b', catTail b p = some (0,b') ∧ b'.Sane ∧ (b'.off,b'.bytes) = (b.off,b.bytes ++ p) := by
  obtain ⟨b1,h1,hs,hd,hm⟩ := store_spec h hp
  have hoff : b1.off = b.off := by
    rw [store] at h1
    obtain ⟨d,-,rfl⟩ := Option.map_eq_some_iff.1 h1
    rfl
  have hsane : Dynbuf.Sane { b1 with off := b.off, len := b.len + p.length } :=
    store_sane h hp hs hd hm (by omega)
  rw [← hoff] at hsane
  refine ⟨_,by rw [catTail,h1]; rfl,hsane,?_⟩
  show (b1.off,(b1.mem.drop b1.off).take (b.len + p.length)) = (b.off,b.bytes ++ p)
  rw [hoff,hm]
  have hroom := h.room
  have htake : (b.mem.take (b.off + b.len)).length = b.off + b.len := by
    rw [List.length_take,h.mem]
    omega
  have hdrop : (b.mem.take (b.off + b.len)).drop b.off = b.bytes := by
    rw [List.drop_take,Nat.add_sub_cancel_left]
    rfl
  have hlen : (b.bytes ++ p).length = b.len + p.length := by rw [List.length_append,h.bytes_length]
  rw [List.append_assoc,List.drop_append_of_le_length (by omega),hdrop,← List.append_assoc,List.take_left' hlen]

/-! ## The calls -/

theorem resv_meets (h : b.Sane) (hsz : sz ≤ ulongMax) : Meets mm b (.resv sz) := by
  obtain ⟨ret,b1,h1,hg,⟨rfl,-,-⟩ | ⟨rfl,hlt,hmm⟩⟩ := dybResv_spec mm h hsz
  · exact ⟨0,b1,h1,hg.sane,Or.inl ⟨rfl,by rw [hg.off,hg.bytes]; rfl⟩⟩
  · exact ⟨-1,b1,h1,hg.sane,Or.inr ⟨rfl,hg.off,hg.len,hg.bytes,Or.inr ⟨hlt,hmm⟩⟩⟩

theorem cat_meets (h : b.Sane) : Meets mm b (.cat p) := by
  have hroom := h.room
  by_cases hp : b.off + b.len + p.length ≤ b.size
  · obtain ⟨b',hb',hs,hm⟩ := catTail_spec h hp
    refine ⟨0,b',?_,hs,Or.inl ⟨rfl,hm⟩⟩
    rw [dybStep,dybCat,if_neg (not_not.2 h.ck),if_neg (by omega),hb']
  · refine ⟨-1,b,?_,h,Or.inr ⟨rfl,rfl,rfl,rfl,not_le.1 hp⟩⟩
    rw [dybStep,dybCat,if_neg (not_not.2 h.ck),if_pos (by omega)]

theorem catA_meets (h : b.Sane) : Meets mm b (.catA p) := by
  have hroom := h.room
  have hle := h.le
  by_cases hp : b.off + b.len + p.length ≤ b.size
  · obtain ⟨b',hb',hs,hm⟩ := catTail_spec h hp
    refine ⟨0,b',?_,hs,Or.inl ⟨rfl,hm⟩⟩
    rw [dybStep,dybCatA,if_neg (not_not.2 h.ck),if_neg (by omega),hb']
  · by_cases hmax : b.off + b.len + p.length ≤ ulongMax
    · have hstep : dybStep mm b (.catA p) =
          (dybResv mm b (b.off + b.len + p.length)).bind fun r => if r.1 < 0 then some (-1,r.2) else catTail r.2 p := by
        rw [dybStep,dybCatA,if_neg (not_not.2 h.ck),if_pos (by omega),if_neg (by omega)]
      obtain ⟨ret,b1,h1,hg,⟨rfl,hsz,-⟩ | ⟨rfl,hlt,hmm⟩⟩ := dybResv_spec mm h hmax
      · obtain ⟨b',hb',hs,hm⟩ := catTail_spec (p := p) hg.sane (by rw [hg.off,hg.len]; exact hsz)
        refine ⟨0,b',?_,hs,Or.inl ⟨rfl,?_⟩⟩
        · rw [hstep,h1]
          exact hb'
        · rw [hm,hg.off,hg.bytes]
          rfl
      · refine ⟨-1,b1,?_,hg.sane,Or.inr ⟨rfl,hg.off,hg.len,hg.bytes,Or.inr ⟨hlt,hmm⟩⟩⟩
        rw [hstep,h1]
        rfl
    · refine ⟨-1,b,?_,h,Or.inr ⟨rfl,rfl,rfl,rfl,Or.inl (not_le.1 hmax)⟩⟩
      rw [dybStep,dybCatA,if_neg (not_not.2 h.ck),if_pos (by omega),if_pos (by omega)]

theorem set_meets (h : b.Sane) : Meets mm b (.set off p) := by
  by_cases hp : off + p.length ≤ b.size
  · obtain ⟨b',hb',hs,hm⟩ := setTail_spec h hp
    refine ⟨0,b',?_,hs,Or.inl ⟨rfl,hm⟩⟩
    rw [dybStep,dybSet,if_neg (not_not.2 h.ck),if_neg (by omega),hb']
  · refine ⟨-1,b,?_,h,Or.inr ⟨rfl,rfl,rfl,rfl,not_le.1 hp⟩⟩
    rw [dybStep,dybSet,if_neg (not_not.2 h.ck),if_pos (by omega)]

theorem setTail_none (h : b.Sane) (hp : b.size < off + p.length) : setTail b off p = none := by
  rw [setTail,store_none h hp]
  rfl

theorem setA_low (h : b.Sane) (hlow : off + p.length < ulongMax) : dybStep mm b (.setA off p) = some (-1,b) := by
  rw [dybStep,dybSetA,if_neg (not_not.2 h.ck),if_pos (by omega)]

variable (mm) in
theorem setA_grow (h : b.Sane) (hoff : off ≤ ulongMax) (hhigh : ulongMax ≤ off + p.length)
    (hgrow : b.size < (off + p.length) % 2 ^ 64) : dybStep mm b (.setA off p) =
      (dybResv mm b ((off + p.length) % 2 ^ 64)).bind fun r => if r.1 < 0 then some (-1,r.2) else setTail r.2 off p := by
  rw [dybStep,dybSetA,if_neg (not_not.2 h.ck),if_neg (by omega)]
  exact if_pos hgrow

theorem setA_keep (h : b.Sane) (hoff : off ≤ ulongMax) (hhigh : ulongMax ≤ off + p.length)
    (hkeep : ¬b.size < (off + p.length) % 2 ^ 64) : dybStep mm b (.setA off p) = setTail b off p := by
  rw [dybStep,dybSetA,if_neg (not_not.2 h.ck),if_neg (by omega)]
  exact if_neg hkeep

theorem setA_low_meets (h : b.Sane) (hlow : off + p.length < ulongMax) :
    Meets mm b (.setA off p) ↔ b.size < off + p.length ∧ mm (resvTo b.size (off + p.length)) = none := by
  rw [Meets,setA_low h hlow]
  constructor
  · rintro ⟨ret,b',hb',-,⟨rfl,-⟩ | ⟨-,-,-,-,hmay⟩⟩
    · cases hb'
    · rcases hmay with hmax | hmm
      · omega
      · exact hmm
  · exact fun hmm => ⟨-1,b,rfl,h,Or.inr ⟨rfl,rfl,rfl,rfl,Or.inr hmm⟩⟩

theorem setA_end_meets (h : b.Sane) (hoff : off ≤ ulongMax) (hend : off + p.length = ulongMax) : Meets mm b (.setA off p) := by
  have hmod : (off + p.length) % 2 ^ 64 = off + p.length := by
    rw [hend]
    rfl
  by_cases hgrow : b.size < off + p.length
  · have hstep := setA_grow mm h hoff (le_of_eq hend.symm) (by rw [hmod]; exact hgrow)
    rw [hmod] at hstep
    obtain ⟨ret,b1,h1,hg,⟨rfl,hsz,-⟩ | ⟨rfl,hlt,hmm⟩⟩ := dybResv_spec mm h (le_of_eq hend)
    · obtain ⟨b',hb',hs,hm⟩ := setTail_spec hg.sane hsz
      refine ⟨0,b',?_,hs,Or.inl ⟨rfl,hm⟩⟩
      rw [hstep,h1]
      exact hb'
    · refine ⟨-1,b1,?_,hg.sane,Or.inr ⟨rfl,hg.off,hg.len,hg.bytes,Or.inr ⟨hlt,hmm⟩⟩⟩
      rw [hstep,h1]
      rfl
  · obtain ⟨b',hb',hs,hm⟩ := setTail_spec h (not_lt.1 hgrow)
    refine ⟨0,b',?_,hs,Or.inl ⟨rfl,hm⟩⟩
    rw [setA_keep h hoff (le_of_eq hend.symm) (by rw [hmod]; exact hgrow),hb']

theorem setA_high_meets (h : b.Sane) (hoff : off ≤ ulongMax) (hp : p.length ≤ ulongMax) (hhigh : ulongMax < off + p.length) :
    Meets mm b (.setA off p) ↔
      b.size < off + p.length - 2 ^ 64 ∧ mm (resvTo b.size (off + p.length - 2 ^ 64)) = none := by
  have hmod : (off + p.length) % 2 ^ 64 = off + p.length - 2 ^ 64 := by
    unfold ulongMax at *
    omega
  have hle := h.le
  by_cases hgrow : b.size < off + p.length - 2 ^ 64
  · have hstep := setA_grow mm h hoff hhigh.le (by rw [hmod]; exact hgrow)
    rw [hmod] at hstep
    have hsz : off + p.length - 2 ^ 64 ≤ ulongMax := by
      unfold ulongMax at *
      omega
    obtain ⟨ret,b1,h1,hg,⟨rfl,-,hsize⟩ | ⟨rfl,hlt,hmm⟩⟩ := dybResv_spec mm h hsz
    · have hnone : dybStep mm b (.setA off p) = none := by
        have hle1 := hg.sane.le
        rw [hstep,h1]
        exact setTail_none hg.sane (hle1.trans_lt hhigh)
      have hsome : mm (resvTo b.size (off + p.length - 2 ^ 64)) ≠ none := by
        intro hmm
        rw [dybResv,if_neg (not_not.2 h.ck),if_neg (by omega),memResize,hmm] at h1
        cases h1
      refine iff_of_false ?_ fun hmm => hsome hmm.2
      rintro ⟨ret,b',hb',-⟩
      rw [hnone] at hb'
      cases hb'
    · refine iff_of_true ⟨-1,b1,?_,hg.sane,Or.inr ⟨rfl,hg.off,hg.len,hg.bytes,Or.inl hhigh⟩⟩ ⟨hlt,hmm⟩
      rw [hstep,h1]
      rfl
  · have hnone : dybStep mm b (.setA off p) = none := by
      rw [setA_keep h hoff hhigh.le (by rw [hmod]; exact hgrow),setTail_none h (by omega)]
    refine iff_of_false ?_ fun hmm => hgrow hmm.1
    rintro ⟨ret,b',hb',-⟩
    rw [hnone] at hb'
    cases hb'

theorem setA_meets (h : b.Sane) (hoff : off ≤ ulongMax) (hp : p.length ≤ ulongMax) :
    Meets mm b (.setA off p) ↔ GoesWell mm b (.setA off p) := by
  rw [GoesWell]
  rcases lt_trichotomy (off + p.length) ulongMax with hlow | hend | hhigh
  · rw [setA_low_meets h hlow]
    constructor
    · exact fun hmm => Or.inr (Or.inl ⟨hlow,hmm⟩)
    · rintro (h1 | ⟨-,hmm⟩ | ⟨h1,-⟩)
      · omega
      · exact hmm
      · omega
  · exact iff_of_true (setA_end_meets h hoff hend) (Or.inl hend)
  · rw [setA_high_meets h hoff hp hhigh]
    constructor
    · exact fun hmm => Or.inr (Or.inr ⟨hhigh,hmm⟩)
    · rintro (h1 | ⟨h1,-⟩ | ⟨-,hmm⟩)
      · omega
      · omega
      · exact hmm

theorem copy_step (h : b.Sane) (hsb : sb.Sane) : dybStep mm b (.copy sb) = setTail b sb.off sb.bytes := by
  have hresv : dybResv mm b b.size = some (0,b) := by
    rw [dybResv,if_neg (not_not.2 h.ck),if_pos (le_refl _)]
  have hread : readMem sb.mem sb.off sb.len = some sb.bytes := readMem_some (by rw [hsb.mem]; exact hsb.room)
  have hck : ¬(¬b.Ck ∨ ¬sb.Ck) := fun hn => hn.elim (fun hn => hn h.ck) fun hn => hn hsb.ck
  rw [dybStep,dybCopy,if_neg hck,hresv,hread]
  rfl

theorem copy_meets (h : b.Sane) (hsb : sb.Sane) : Meets mm b (.copy sb) ↔ GoesWell mm b (.copy sb) := by
  have hlen : sb.off + sb.bytes.length = sb.off + sb.len := by rw [hsb.bytes_length]
  rw [GoesWell,Meets,copy_step h hsb,← hlen]
  constructor
  · rintro ⟨ret,b',hb',-⟩
    by_contra hn
    rw [setTail_none h (not_le.1 hn)] at hb'
    cases hb'
  · intro hroom
    obtain ⟨b',hb',hs,hm⟩ := setTail_spec h hroom
    exact ⟨0,b',hb',hs,Or.inl ⟨rfl,hm⟩⟩

theorem init_sane : (dybInit : Dynbuf α).Sane := ⟨⟨le_refl _,le_refl _,Or.inr rfl⟩,rfl,Nat.zero_le _⟩

theorem empty_meets (h : b.Sane) : Meets mm b .empty := by
  refine ⟨0,{ b with off := 0, len := 0 },?_,⟨⟨Nat.zero_le _,Nat.zero_le _,h.ck.2.2⟩,h.mem,h.le⟩,Or.inl ⟨rfl,rfl⟩⟩
  rw [dybStep,dybEmpty,if_neg (not_not.2 h.ck)]
  rfl

theorem clear_meets (h : b.Sane) : Meets mm b .clear := by
  refine ⟨0,dybInit,?_,init_sane,Or.inl ⟨rfl,rfl⟩⟩
  rw [dybStep,dybClear,if_neg (not_not.2 h.ck)]
  rfl

theorem step_meets {op : DybOp α} (h : b.Sane) (hop : op.Proper) : Meets mm b op ↔ GoesWell mm b op := by
  cases op with
  | resv sz => exact iff_of_true (resv_meets h hop) trivial
  | cat p => exact iff_of_true (cat_meets h) trivial
  | catA p => exact iff_of_true (catA_meets h) trivial
  | set off p => exact iff_of_true (set_meets h) trivial
  | setA off p => exact setA_meets h hop.1 hop.2
  | copy sb => exact copy_meets h hop
  | empty => exact iff_of_true (empty_meets h) trivial
  | clear => exact iff_of_true (clear_meets h) trivial

/-! ## Runs -/

/-- Every call of a run, each with what memory there is for it, comes back as it should. -/
def RunMeets : List (MemMgr α × DybOp α) → Dynbuf α → Prop
  | [], _ => True
  | (mm,op) :: ops, b => Meets mm b op ∧ ∀ ret b', dybStep mm b op = some (ret,b') → RunMeets ops b'

def RunGoesWell : List (MemMgr α × DybOp α) → Dynbuf α → Prop
  | [], _ => True
  | (mm,op) :: ops, b => GoesWell mm b op ∧ ∀ ret b', dybStep mm b op = some (ret,b') → RunGoesWell ops b'

theorem runMeets_iff (ops : List (MemMgr α × DybOp α)) (hops : ∀ o ∈ ops, o.2.Proper) (h : b.Sane) :
    RunMeets ops b ↔ RunGoesWell ops b := by
  induction ops generalizing b with
  | nil => exact Iff.rfl
  | cons o ops ih =>
    obtain ⟨mm,op⟩ := o
    rw [RunMeets,RunGoesWell,step_meets h (hops _ List.mem_cons_self)]
    refine and_congr_right fun hwell => ?_
    have hmeets := (step_meets h (hops _ List.mem_cons_self)).2 hwell
    obtain ⟨ret1,b1,hb1,hs1,-⟩ := hmeets
    refine forall_congr' fun ret => forall_congr' fun b' => imp_congr_right fun hb' => ?_
    rw [hb1] at hb'
    cases hb'
    exact ih (fun o ho => hops o (List.mem_cons_of_mem _ ho)) hs1

/-- A run on a new buffer: every call is right exactly when every `dyb_set_a` and every `dyb_copy`
of it is one that goes well. -/
theorem dybRun_meets (ops : List (MemMgr α × DybOp α)) (hops : ∀ o ∈ ops, o.2.Proper) :
    RunMeets ops dybInit ↔ RunGoesWell ops (dybInit : Dynbuf α) := runMeets_iff ops hops init_sane

theorem dybRun_meets_cat : RunMeets [((fun _ => some fun _ => 0),.catA [1,2]),((fun _ => none),.set 3 [5])] (dybInit : Dynbuf ℕ) := by
  refine (dybRun_meets _ ?_).2 ⟨trivial,fun _ _ _ => ⟨trivial,fun _ _ _ => trivial⟩⟩
  simp only [List.mem_cons, List.not_mem_nil, or_false]
  rintro o (rfl | rfl)
  · show 2 ≤ ulongMax
    decide
  · exact ⟨(by decide),(by decide)⟩

/-- With all the memory there could be, `dyb_set_a` gives up on one byte at offset 0, and `dyb_copy`
of a buffer with one byte writes outside an empty one. -/
theorem dybRun_setA_fails : ¬RunMeets [((fun _ => some fun _ => 0),.setA 0 [1])] (dybInit : Dynbuf ℕ) ∧
    ¬RunMeets [((fun _ => some fun _ => 0),.copy ⟨1,some [7],0,1⟩)] (dybInit : Dynbuf ℕ) := by
  constructor
  · rintro ⟨h,-⟩
    rw [setA_low_meets init_sane (by decide)] at h
    cases h.2
  · rintro ⟨⟨ret,b',h,-⟩,-⟩
    have hnone : dybStep (fun _ => some fun _ => 0) dybInit (.copy ⟨1,some [7],0,1⟩) = none := by
      rw [copy_step init_sane ⟨⟨by decide,by decide,Or.inl rfl⟩,rfl,by decide⟩,setTail_none init_sane (by decide)]
    rw [hnone] at h
    cases h

end Catlib.Buffer
