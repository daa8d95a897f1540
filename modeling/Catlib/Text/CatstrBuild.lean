import Catlib.Buffer.Grow
import Catlib.Text.Catstr
import Catlib.Text.Copy

/-! # Building strings in catstr.c

A string has a block of one byte more than its size, for the null byte. Growth goes through `mm_grow`,
whose pointer is no block.
-/
namespace Catlib.Text
open Buffer

/-! ## The code -/

/-- `struct catstr`, with the flag of a string that was allocated. -/
structure DynCatstr where
  size : ℕ
  dlen : ℕ
  dynamic : Bool
  data : Ptr

/-- The test of `CKCS` and its kin. -/
def DynCatstr.Ck (cs : DynCatstr) : Prop := cs.data.isNull = false ∧ cs.size ≤ csMaxlen ∧ cs.dlen ≤ cs.size

instance DynCatstr.decidableCk (cs : DynCatstr) : Decidable cs.Ck := inferInstanceAs (Decidable (_ ∧ _))

/-- `memmove` of the first `n` bytes of `from` behind the contents, and the new length with its null byte. -/
def appendTo (dst : DynCatstr) (src : Ptr) (n newlen : ℕ) : Option DynCatstr := do
  let d ← memcpy (← dst.data.cells) dst.dlen (← src.cells) 0 n
  let d ← poke d newlen 0
  return { dst with dlen := newlen, data := .block d }

def csConcatD (dst src : DynCatstr) : Option (ℕ × DynCatstr) :=
  if ¬dst.Ck ∨ ¬src.Ck then some (csError,dst)
  else if csMaxlen - dst.dlen > src.dlen then some (csError,dst)
  else
    let room := dst.size - dst.dlen
    let tomove := if room > src.dlen then src.dlen else room
    (appendTo dst src.data tomove (dst.dlen + tomove)).map fun dst => (dst.dlen,dst)

/-- `cs_grow`, which passes the address of the field for the block. -/
def csGrow (mm : MemMgr UInt8) (cs : DynCatstr) (minlen : ℕ) : Option (ℤ × DynCatstr) :=
  if ¬cs.Ck then some (-1,cs)
  else if minlen > csMaxlen ∨ cs.dynamic = false then none
  else do
    let (rv,csp,tlen) ← mmGrow mm .variable (cs.size + 1) (minlen + 1)
    if rv < 0 then return (-1,cs)
    if tlen < cs.size + 1 then none
    return (0,{ cs with data := csp, size := tlen - 1 })

/-- `cs_concat`, with the sum in the arithmetic of size_t and the length of the copy the way it is written. -/
def csConcat (mm : MemMgr UInt8) (dst src : DynCatstr) : Option (ℤ × DynCatstr) :=
  if ¬dst.Ck ∨ ¬src.Ck then some (-1,dst)
  else if csMaxlen - dst.dlen > src.dlen then some (-1,dst)
  else do
    let newlen := (dst.dlen + src.dlen) % 2 ^ 64
    let (rv,dst) ← csGrow mm dst newlen
    if rv < 0 then return (-1,dst)
    return (0,← appendTo dst src.data dst.dlen newlen)

/-- `cs_addch` when there is room. -/
def putch (cs : DynCatstr) (ch : UInt8) : Option (ℤ × DynCatstr) := do
  let d ← poke (← cs.data.cells) cs.dlen ch
  let d ← poke d (cs.dlen + 1) 0
  return (0,{ cs with dlen := cs.dlen + 1, data := .block d })

def csAddch (mm : MemMgr UInt8) (cs : DynCatstr) (ch : UInt8) : Option (ℤ × DynCatstr) :=
  if ¬cs.Ck then some (-1,cs)
  else if cs.dlen ≥ cs.size then
    if cs.dynamic then do
      let (rv,cs) ← csGrow mm cs (cs.dlen + 1)
      if rv < 0 then return (-1,cs) else putch cs ch
    else some (-1,cs)
  else putch cs ch

/-- The size of `struct catstr`. -/
def sizeofCatstr : ℕ := 32

def csAlloc (mm : MemMgr UInt8) (len : ℕ) : Option DynCatstr :=
  if len > csMaxlen then none
  else do
    let _ ← mm sizeofCatstr
    let d ← memResize mm [] (len + 1)
    return ⟨len,0,true,.block (d.set 0 0)⟩

/-- `cs_substr`; the result inside is the string or null. -/
def csSubstr (mm : MemMgr UInt8) (orig : DynCatstr) (off len : ℕ) : Option (Option DynCatstr) :=
  if ¬orig.Ck then some none
  else if off ≥ orig.dlen then some (csAlloc mm 0)
  else
    let remaining := orig.dlen - off
    let len := if remaining > len then remaining else len
    match csAlloc mm len with
    | none => some none
    | some cs => do
      let d ← memcpy (← cs.data.cells) 0 (← orig.data.cells) off len
      let d ← poke d len 0
      return some { cs with dlen := len, data := .block d }

/-! ## What the calls are for -/

variable {mm : MemMgr UInt8} {dst src cs orig : DynCatstr} {text s rest : List UInt8} {ch : UInt8} {n off len : ℕ}

/-- A sound string whose contents are `text`, with its null byte, in a block for its size. -/
structure Keeps (cs : DynCatstr) (text : List UInt8) : Prop where
  size : cs.size ≤ csMaxlen
  fits : text.length ≤ cs.size
  length : cs.dlen = text.length
  data : ∃ rest, cs.data = .block (text ++ 0 :: rest) ∧ cs.size + 1 ≤ (text ++ 0 :: rest).length

/-- There is memory for the block of a string of `n` bytes in the place of this one. -/
def Growable (mm : MemMgr UInt8) (cs : DynCatstr) (n : ℕ) : Prop :=
  cs.dynamic = true ∧ ∃ p len, grow mm cs.data (cs.size + 1) (n + 1) = some (0,p,len)

/-- There is no memory for a new string of `n` bytes. -/
def NoRoom (mm : MemMgr UInt8) (n : ℕ) : Prop := csMaxlen < n ∨ (mm sizeofCatstr).isSome = false ∨ (mm (n + 1)).isSome = false

/-- As much of the source as there is room for. -/
def AppendsRoom (dst : DynCatstr) (text s : List UInt8) (r : Option (ℕ × DynCatstr)) : Prop :=
  ∃ cs, r = some (cs.dlen,cs) ∧ cs.size = dst.size ∧ Keeps cs (text ++ s.take (dst.size - text.length))

/-- All of the source, or nothing where that does not fit and there is no memory for it. -/
def Appends (mm : MemMgr UInt8) (dst : DynCatstr) (text s : List UInt8) (r : Option (ℤ × DynCatstr)) : Prop :=
  (∃ cs, r = some (0,cs) ∧ Keeps cs (text ++ s)) ∨
    r = some (-1,dst) ∧ dst.size < (text ++ s).length ∧ (csMaxlen < (text ++ s).length ∨ ¬Growable mm dst (text ++ s).length)

/-- A new string with this part of the text, or a null pointer where there is no memory. -/
def Extracts (mm : MemMgr UInt8) (text : List UInt8) (r : Option (Option DynCatstr)) : Prop :=
  (∃ cs, r = some (some cs) ∧ Keeps cs text) ∨ r = some none ∧ NoRoom mm text.length

/-! ## Sound strings -/

theorem Keeps.ck (h : Keeps cs text) : cs.Ck := by
  obtain ⟨rest,hdata,-⟩ := h.data
  exact ⟨by rw [hdata]; rfl,h.size,h.length ▸ h.fits⟩

theorem Keeps.checks (hdst : Keeps dst text) (hsrc : Keeps src s) : ¬(¬dst.Ck ∨ ¬src.Ck) := fun h => h.elim (· hdst.ck) (· hsrc.ck)

theorem Keeps.poke {new : List UInt8} (hsize : cs.size ≤ csMaxlen) (hfits : new.length ≤ cs.size)
    (hroom : cs.size + 1 ≤ (new ++ rest).length) :
    ∃ d, poke (new ++ rest) new.length 0 = some d ∧ Keeps { cs with dlen := new.length, data := .block d } new := by
  cases rest with
  | nil =>
    rw [List.append_nil] at hroom
    omega
  | cons x rest =>
    refine ⟨_,poke_head rfl x 0 rest,hsize,hfits,rfl,rest,rfl,?_⟩
    rw [List.length_append,List.length_cons] at hroom ⊢
    exact hroom

theorem appendTo_spec (hdst : Keeps dst text) (hsrc : Keeps src s) (hn : n ≤ s.length) (hfit : text.length + n ≤ dst.size) :
    ∃ cs, appendTo dst src.data n (dst.dlen + n) = some cs ∧ cs.dlen = dst.dlen + n ∧ cs.size = dst.size ∧ Keeps cs (text ++ s.take n) := by
  obtain ⟨dr,hd,hroom⟩ := hdst.data
  obtain ⟨sr,hs,-⟩ := hsrc.data
  have htake : (s.take n).length = n := List.length_take_of_le hn
  have hlen : (text ++ s.take n).length = text.length + n := by rw [List.length_append,htake]
  have hread : readMem (s ++ 0 :: sr) 0 n = some (s.take n) := by
    rw [readMem_some (by rw [List.length_append]; omega),List.drop_zero,List.take_append_of_le_length hn]
  rw [List.length_append] at hroom
  have hwrite : writeMem (text ++ 0 :: dr) text.length (s.take n) = some _ := writeMem_append rfl (by omega)
  obtain ⟨d,hpoke,hkeeps⟩ := @Keeps.poke _ ((0 :: dr).drop (s.take n).length) _ hdst.size (hlen.trans_le hfit)
    (by rw [List.length_append,hlen,List.length_drop]; omega)
  rw [hlen] at hpoke hkeeps
  refine ⟨{ dst with dlen := text.length + n, data := .block d },?_,by rw [hdst.length],rfl,hkeeps⟩
  rw [appendTo,hd,hs,Ptr.cells,Ptr.cells,hdst.length]
  simp only [Option.bind_eq_bind, Option.bind_some, memcpy, hread, hwrite, hpoke]
  rfl

/-! ## The calls -/

theorem csConcatD_right (hdst : Keeps dst text) (hsrc : Keeps src s) :
    AppendsRoom dst text s (csConcatD dst src) ↔ csMaxlen ≤ dst.dlen + src.dlen := by
  rw [csConcatD,if_neg (hdst.checks hsrc)]
  constructor
  · rintro ⟨cs,hcs,-,hkeeps⟩
    by_contra hno
    rw [if_pos (by omega)] at hcs
    -- the error is no length
    have hlen : csError = cs.dlen := congrArg Prod.fst (Option.some_inj.mp hcs)
    have := hkeeps.ck.2
    rw [csError] at hlen
    omega
  · intro h
    rw [if_neg (by omega)]
    dsimp only
    have hle : (if dst.size - dst.dlen > src.dlen then src.dlen else dst.size - dst.dlen) = min (dst.size - text.length) s.length := by
      rw [hdst.length,hsrc.length,min_def]
      split <;> split <;> omega
    have hfits := hdst.fits
    obtain ⟨cs,hcs,-,hsize,hkeeps⟩ := appendTo_spec hdst hsrc (Nat.min_le_right (dst.size - text.length) s.length) (by omega)
    rw [hle,hcs]
    exact ⟨cs,rfl,hsize,by rwa [← List.take_eq_take_min] at hkeeps⟩

theorem csGrow_variable (hcs : Keeps cs text) {rv : ℤ} {cs' : DynCatstr} (h : csGrow mm cs n = some (rv,cs')) :
    rv = 0 ∧ cs'.data = .variable := by
  rw [csGrow,if_neg (not_not.mpr hcs.ck)] at h
  split at h
  · cases h
  rename_i hno
  have hsize := hcs.size
  have hone : ulongMax / 1 = ulongMax := Nat.div_one _
  have hlen : cs.size + 1 ≤ ulongMax / 1 := by
    rw [hone,ulongMax]
    rw [csMaxlen] at hsize
    omega
  have hmin : n + 1 ≤ ulongMax / 1 := by
    rw [hone,ulongMax]
    rw [csMaxlen] at hno
    omega
  by_cases henough : Enough 1 (cs.size + 1) (n + 1)
  · rw [mmGrow,mmAgrow,agrowWith_enough Nat.one_pos (.inl (Nat.succ_pos _)) hlen henough] at h
    simp only [Option.bind_eq_bind, Option.bind_some, lt_irrefl, if_false] at h
    cases h
    exact ⟨rfl,rfl⟩
  · obtain ⟨m,-,-,-,-,hrun⟩ := @agrowWith_grows .variable _ _ _ Nat.one_pos (by decide) (.inl (Nat.succ_pos _)) hlen hmin henough
    rw [mmGrow,mmAgrow,hrun] at h
    cases h

theorem appendTo_variable (h : dst.data = .variable) (p : Ptr) (n newlen : ℕ) : appendTo dst p n newlen = none := by
  rw [appendTo,h]
  rfl

theorem csConcat_none (hdst : Keeps dst text) (hsrc : Keeps src s) (h : csMaxlen ≤ dst.dlen + src.dlen) : csConcat mm dst src = none := by
  rw [csConcat,if_neg (hdst.checks hsrc),if_neg (by omega)]
  dsimp only
  cases hgrow : csGrow mm dst ((dst.dlen + src.dlen) % 2 ^ 64) with
  | none => rfl
  | some r =>
    obtain ⟨hrv,hdata⟩ := csGrow_variable hdst hgrow
    simp [hrv, appendTo_variable hdata]

theorem csConcat_right (hdst : Keeps dst text) (hsrc : Keeps src s) : Appends mm dst text s (csConcat mm dst src) ↔
    dst.dlen + src.dlen < csMaxlen ∧ dst.size < dst.dlen + src.dlen ∧ ¬Growable mm dst (dst.dlen + src.dlen) := by
  rw [hdst.length,hsrc.length,← List.length_append]
  rcases Nat.lt_or_ge (text ++ s).length csMaxlen with hlt | hge
  · have hrun : csConcat mm dst src = some (-1,dst) := by
      rw [List.length_append,← hdst.length,← hsrc.length] at hlt
      rw [csConcat,if_neg (hdst.checks hsrc),if_pos (by omega)]
    rw [hrun]
    constructor
    · rintro (⟨cs,h,-⟩ | ⟨-,hfull,hno⟩)
      · cases h
      · exact ⟨hlt,hfull,hno.resolve_left hlt.not_gt⟩
    · rintro ⟨-,hfull,hno⟩
      exact .inr ⟨rfl,hfull,.inr hno⟩
  · have hrun : csConcat mm dst src = none := csConcat_none hdst hsrc (by rwa [hdst.length,hsrc.length,← List.length_append])
    rw [hrun]
    constructor
    · rintro (⟨cs,h,-⟩ | ⟨h,-⟩) <;> cases h
    · rintro ⟨hlt,-⟩
      exact absurd hlt hge.not_gt

theorem putch_spec (hcs : Keeps cs text) (h : text.length < cs.size) (ch : UInt8) :
    ∃ cs', putch cs ch = some (0,cs') ∧ Keeps cs' (text ++ [ch]) := by
  obtain ⟨rest,hdata,hroom⟩ := hcs.data
  have hlen : (text ++ [ch]).length = text.length + 1 := by rw [List.length_append,List.length_singleton]
  obtain ⟨d,hpoke,hkeeps⟩ := @Keeps.poke _ rest (text ++ [ch]) hcs.size (hlen.trans_le h)
    (by rwa [List.append_assoc,List.length_append] at *)
  rw [hlen,List.append_assoc,List.singleton_append] at hpoke
  rw [hlen] at hkeeps
  refine ⟨{ cs with dlen := text.length + 1, data := .block d },?_,hkeeps⟩
  rw [putch,hdata,Ptr.cells,hcs.length]
  simp only [Option.bind_eq_bind, Option.bind_some, poke_head rfl, hpoke]
  rfl

theorem csAddch_none (hcs : Keeps cs text) (h : cs.size ≤ cs.dlen) (hdyn : cs.dynamic = true) (ch : UInt8) : csAddch mm cs ch = none := by
  rw [csAddch,if_neg (not_not.mpr hcs.ck),if_pos h,if_pos hdyn]
  cases hgrow : csGrow mm cs (cs.dlen + 1) with
  | none => rfl
  | some r =>
    obtain ⟨hrv,hdata⟩ := csGrow_variable hcs hgrow
    simp [hrv, putch, hdata, Ptr.cells]

theorem csAddch_right (hcs : Keeps cs text) (ch : UInt8) :
    Appends mm cs text [ch] (csAddch mm cs ch) ↔ cs.dlen < cs.size ∨ cs.dynamic = false := by
  rcases Nat.lt_or_ge cs.dlen cs.size with hlt | hge
  · obtain ⟨cs',hrun,hkeeps⟩ := putch_spec hcs (hcs.length ▸ hlt) ch
    rw [csAddch,if_neg (not_not.mpr hcs.ck),if_neg hlt.not_ge,hrun]
    exact iff_of_true (.inl ⟨cs',rfl,hkeeps⟩) (.inl hlt)
  cases hdyn : cs.dynamic with
  | false =>
    refine iff_of_true (.inr ⟨?_,?_,.inr fun h => ?_⟩) (.inr rfl)
    · rw [csAddch,if_neg (not_not.mpr hcs.ck),if_pos hge,hdyn]
      rfl
    · rw [List.length_append,List.length_singleton,← hcs.length]
      omega
    · rw [h.1] at hdyn
      cases hdyn
  | true =>
    rw [csAddch_none hcs hge hdyn]
    refine iff_of_false ?_ (by simp [hge.not_gt])
    rintro (⟨cs',h,-⟩ | ⟨h,-⟩) <;> cases h

/-! ## Parts of a string -/

theorem csAlloc_refused (h : NoRoom mm n) : csAlloc mm n = none := by
  rw [csAlloc]
  obtain h | h | h := h
  · exact if_pos h
  · split
    · rfl
    · rw [Option.isSome_eq_false_iff,Option.isNone_iff_eq_none] at h
      rw [h]
      rfl
  · split
    · rfl
    · rw [Option.isSome_eq_false_iff,Option.isNone_iff_eq_none] at h
      cases mm sizeofCatstr <;> simp [memResize, h]

theorem csAlloc_spec (h : ¬NoRoom mm n) : n ≤ csMaxlen ∧ ∃ d, csAlloc mm n = some ⟨n,0,true,.block (0 :: d)⟩ ∧ d.length = n := by
  rw [NoRoom] at h
  push Not at h
  obtain ⟨hn,hhead,hbody⟩ := h
  obtain ⟨u,hu⟩ := Option.isSome_iff_exists.mp (Bool.eq_true_of_not_eq_false hhead)
  obtain ⟨fill,hfill⟩ := Option.isSome_iff_exists.mp (Bool.eq_true_of_not_eq_false hbody)
  refine ⟨hn,(List.range n).map fun i => fill (i + 1),?_,by rw [List.length_map,List.length_range]⟩
  rw [csAlloc,if_neg hn.not_gt,hu,memResize,hfill]
  simp [List.range_succ_eq_map, Function.comp_def]

theorem csSubstr_refused (horig : Keeps orig text) (hoff : off < orig.dlen) (h : NoRoom mm (max len (orig.dlen - off))) :
    csSubstr mm orig off len = some none := by
  have hmax : (if orig.dlen - off > len then orig.dlen - off else len) = max len (orig.dlen - off) := by
    rw [max_def]
    split <;> split <;> omega
  rw [csSubstr,if_neg (not_not.mpr horig.ck),if_neg hoff.not_ge]
  dsimp only
  rw [hmax,csAlloc_refused h]

theorem csSubstr_allocated (horig : Keeps orig text) (hoff : off < orig.dlen) (h : ¬NoRoom mm (max len (orig.dlen - off))) :
    csSubstr mm orig off len ≠ some none ∧ (∀ cs, csSubstr mm orig off len = some (some cs) → cs.dlen = max len (orig.dlen - off)) ∧
      (len = orig.dlen - off → ∃ cs, csSubstr mm orig off len = some (some cs) ∧ Keeps cs (text.drop off)) := by
  have hmax : (if orig.dlen - off > len then orig.dlen - off else len) = max len (orig.dlen - off) := by
    rw [max_def]
    split <;> split <;> omega
  obtain ⟨hle,d,halloc,hd⟩ := csAlloc_spec h
  obtain ⟨rest,hdata,-⟩ := horig.data
  have hrun : csSubstr mm orig off len = (memcpy (0 :: d) 0 (text ++ 0 :: rest) off (max len (orig.dlen - off))).bind fun b =>
      (poke b (max len (orig.dlen - off)) 0).bind fun b =>
        some (some ⟨max len (orig.dlen - off),max len (orig.dlen - off),true,.block b⟩) := by
    rw [csSubstr,if_neg (not_not.mpr horig.ck),if_neg hoff.not_ge]
    dsimp only
    rw [hmax,halloc]
    dsimp only
    rw [hdata]
    rfl
  rw [hrun]
  refine ⟨fun hno => ?_,fun cs hcs => ?_,fun hlen => ?_⟩
  · obtain ⟨b,-,hb⟩ := Option.bind_eq_some_iff.mp hno
    obtain ⟨_,-,hb⟩ := Option.bind_eq_some_iff.mp hb
    cases hb
  · obtain ⟨b,-,hb⟩ := Option.bind_eq_some_iff.mp hcs
    obtain ⟨_,-,hb⟩ := Option.bind_eq_some_iff.mp hb
    cases hb
    rfl
  · subst hlen
    rw [max_self] at hle hd ⊢
    rw [horig.length] at hoff hle hd ⊢
    have hdrop : (text.drop off).length = text.length - off := List.length_drop
    have hread : readMem (text ++ 0 :: rest) off (text.length - off) = some (text.drop off) := by
      rw [readMem_some (by rw [List.length_append]; omega),List.drop_append_of_le_length hoff.le,List.take_left' hdrop]
    have hwrite : writeMem (0 :: d) 0 (text.drop off) = some _ := writeMem_zero (by rw [List.length_cons]; omega)
    obtain ⟨b,hpoke,hkeeps⟩ := @Keeps.poke ⟨text.length - off,0,true,.null⟩
      ((0 :: d).drop (text.drop off).length) (text.drop off) hle hdrop.le (by simp [hd])
    rw [hdrop] at hpoke hkeeps
    refine ⟨_,?_,hkeeps⟩
    rw [memcpy,hread,Option.bind_some,hwrite,Option.bind_some,hdrop,hpoke]
    rfl

theorem csSubstr_right (horig : Keeps orig text) (off len : ℕ) : Extracts mm ((text.drop off).take len) (csSubstr mm orig off len) ↔
    orig.dlen ≤ off ∨ len = orig.dlen - off ∨ NoRoom mm (max len (orig.dlen - off)) ∧ NoRoom mm (min len (orig.dlen - off)) := by
  have hlen : ((text.drop off).take len).length = min len (orig.dlen - off) := by
    rw [List.length_take,List.length_drop,horig.length]
  rcases Nat.lt_or_ge off orig.dlen with hoff | hoff
  · rw [or_iff_right hoff.not_ge]
    by_cases hmax : NoRoom mm (max len (orig.dlen - off))
    · rw [csSubstr_refused horig hoff hmax]
      constructor
      · rintro (⟨cs,h,-⟩ | ⟨-,h⟩)
        · cases h
        · exact .inr ⟨hmax,hlen ▸ h⟩
      · rintro (h | ⟨-,h⟩)
        · rw [← h,max_self] at hmax
          exact .inr ⟨rfl,by rwa [hlen,← h,min_self]⟩
        · exact .inr ⟨rfl,by rwa [hlen]⟩
    · obtain ⟨hnull,hcs,hright⟩ := csSubstr_allocated horig hoff hmax
      constructor
      · rintro (⟨cs,h,hkeeps⟩ | ⟨h,-⟩)
        · have h' := hkeeps.length
          rw [hcs cs h,hlen] at h'
          exact .inl (by omega)
        · exact absurd h hnull
      · rintro (h | ⟨h,-⟩)
        · obtain ⟨cs,hrun,hkeeps⟩ := hright h
          refine .inl ⟨cs,hrun,?_⟩
          rwa [List.take_of_length_le (by rw [List.length_drop,← horig.length,← h])]
        · exact absurd h hmax
  · refine iff_of_true ?_ (.inl hoff)
    have hnil : (text.drop off).take len = [] := by
      rw [List.drop_eq_nil_of_le (horig.length ▸ hoff),List.take_nil]
    rw [csSubstr,if_neg (not_not.mpr horig.ck),if_pos hoff,hnil]
    by_cases hzero : NoRoom mm 0
    · exact .inr ⟨by rw [csAlloc_refused hzero],hzero⟩
    · obtain ⟨-,d,halloc,-⟩ := csAlloc_spec hzero
      exact .inl ⟨_,by rw [halloc],Nat.zero_le _,le_rfl,rfl,d,rfl,Nat.succ_le_succ (Nat.zero_le _)⟩

theorem growable (hmem : ∀ sz, (mm sz).isSome = true) (hdyn : cs.dynamic = true)
    (hblock : ∃ l, cs.data = .block l ∧ l.length = cs.size + 1) (h : cs.size < n) (hn : n ≤ csMaxlen) : Growable mm cs n := by
  obtain ⟨l,hdata,hl⟩ := hblock
  have hmax : n + 1 ≤ ulongMax := by
    rw [ulongMax]
    rw [csMaxlen] at hn
    omega
  obtain ⟨cells,len,hgrow,-⟩ := grow_block hmem (Nat.succ_pos _) (Nat.succ_lt_succ h) hmax hl
  exact ⟨hdyn,_,_,by rw [hdata]; exact hgrow⟩

/-- The two that append strings have the test for the greatest length the wrong way around, what has to grow loses its block,
and a part is as long as the longer one of what is asked for and what there is. -/
theorem catstr_build_iff (dst src : DynCatstr) (text s : List UInt8) (hdst : Keeps dst text) (hsrc : Keeps src s) :
    (AppendsRoom dst text s (csConcatD dst src) ↔ csMaxlen ≤ dst.dlen + src.dlen) ∧
    (∀ mm, Appends mm dst text s (csConcat mm dst src) ↔
      dst.dlen + src.dlen < csMaxlen ∧ dst.size < dst.dlen + src.dlen ∧ ¬Growable mm dst (dst.dlen + src.dlen)) ∧
    (∀ mm ch, Appends mm dst text [ch] (csAddch mm dst ch) ↔ dst.dlen < dst.size ∨ dst.dynamic = false) ∧
    ∀ mm off len, Extracts mm ((text.drop off).take len) (csSubstr mm dst off len) ↔
      dst.dlen ≤ off ∨ len = dst.dlen - off ∨ NoRoom mm (max len (dst.dlen - off)) ∧ NoRoom mm (min len (dst.dlen - off)) :=
  ⟨csConcatD_right hdst hsrc,fun _ => csConcat_right hdst hsrc,fun _ => csAddch_right hdst,fun _ => csSubstr_right hdst⟩

/-- A string that was allocated for two bytes and is full. -/
def full : DynCatstr := ⟨2,2,true,.block [97,98,0]⟩

/-- A string with room for two bytes. -/
def roomy : DynCatstr := ⟨3,1,false,.block [99,0,0,0]⟩

theorem full_keeps : Keeps full [97,98] := ⟨by decide,by decide,rfl,[],rfl,by decide⟩

theorem roomy_keeps : Keeps roomy [99] := ⟨by decide,by decide,rfl,[0,0],rfl,by decide⟩

theorem catstr_build_roomy : Appends (fun _ => none) roomy [99] [100] (csAddch (fun _ => none) roomy 100) :=
  ((catstr_build_iff roomy full [99] [97,98] roomy_keeps full_keeps).2.2.1 _ 100).mpr (.inl (by decide))

/-- Short strings are refused, a full one cannot grow, and a part is the whole. -/
theorem catstr_build_fails : csConcatD roomy full = some (csError,roomy) ∧ ¬AppendsRoom roomy [99] [97,98] (csConcatD roomy full) ∧
    ¬Appends (fun _ => some fun _ => 0) full [97,98] [99] (csConcat (fun _ => some fun _ => 0) full roomy) ∧
    csAddch (fun _ => some fun _ => 0) full 99 = none ∧
    csSubstr (fun _ => some fun _ => 0) full 0 1 = some (some ⟨2,2,true,.block [97,98,0]⟩) := by
  refine ⟨by rfl,fun h => ?_,fun h => ?_,csAddch_none full_keeps (by decide) rfl 99,by rfl⟩
  · exact absurd ((csConcatD_right roomy_keeps full_keeps).mp h) (by decide)
  · exact ((csConcat_right full_keeps roomy_keeps).mp h).2.2 (growable (fun _ => rfl) rfl ⟨_,rfl,rfl⟩ (by decide) (by decide))

end Catlib.Text
