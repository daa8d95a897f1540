import Catlib.Logic.Loop
import Mathlib.Algebra.Order.Ring.Int
import Mathlib.Data.List.Basic

/-! # csv.c

The reader of comma-separated values, on a source that yields bytes and then its end or an
error. A piece is what a call leaves in the buffer in front of the null byte.
-/
namespace Catlib.Text

/-- The results of `csv_next`. -/
inductive CsvCode where
  | err
  | eof
  | fld
  | rcd
  | cnt
  deriving DecidableEq

/-- `struct csv_state` with the bytes that `csv_getc` still yields; `err` says what it yields then. -/
structure CsvState where
  source : List UInt8
  err : Bool
  done : ℤ := 0
  inquote : Bool := false
  sawquote : Bool := false
  last : Option UInt8 := none

def csvInit (source : List UInt8) (err : Bool) : CsvState := { source := source, err := err }

/-- The next byte, the one that was put back first. -/
def CsvState.next (csv : CsvState) : Option UInt8 × CsvState :=
  match csv.last with
  | some c => (some c,{ csv with last := none })
  | none =>
    match csv.source with
    | [] => (none,csv)
    | c :: s => (some c,{ csv with source := s })

/-- A byte that is no quote, or a quote that is to be stored; `len` is the room in the buffer. -/
def csvStore (len : ℕ) (csv : CsvState) (buf : List UInt8) (c : UInt8) :
    Turn (CsvState × List UInt8) (CsvState × List UInt8 × CsvCode) :=
  if c = 44 ∧ csv.inquote = false then .leave (csv,buf,.fld)
  else if c = 10 ∧ csv.inquote = false then .leave (csv,buf,.rcd)
  else if buf.length = len then
    .leave ({ csv with last := some c, inquote := if c = 34 then !csv.inquote else csv.inquote },buf,.cnt)
  else .again (csv,buf ++ [c])

/-- The loop of `csv_next`. -/
def csvBody (len : ℕ) (x : CsvState × List UInt8) :
    Option (Turn (CsvState × List UInt8) (CsvState × List UInt8 × CsvCode)) :=
  match x.1.next with
  | (none,csv) =>
    if csv.err then some (.leave ({ csv with done := -1 },x.2,.err))
    else some (.leave ({ csv with done := 1 },x.2,.rcd))
  | (some c,csv) =>
    if c = 34 then
      let prquote := csv.inquote && csv.sawquote
      let csv := { csv with inquote := !csv.inquote, sawquote := true }
      if prquote then some (csvStore len csv x.2 c) else some (.again (csv,x.2))
    else some (csvStore len { csv with sawquote := false } x.2 c)

/-- `csv_next`: the state, the result, and the piece if there is one. -/
def csvNext (csv : CsvState) (len : ℕ) : Option (CsvState × CsvCode × Option (List UInt8)) :=
  if len < 2 then some (csv,.err,none)
  else if csv.done > 0 then some (csv,.eof,none)
  else if csv.done < 0 then some (csv,.err,none)
  else do
    let (csv,buf,code) ← loop (csvBody (len - 1)) (csv.source.length + 3) (csv,[])
    if buf = [] ∧ csv.done > 0 then return (csv,.eof,none)
    else if code = .cnt then return (csv,code,some buf)
    else return ({ csv with inquote := false, sawquote := false },code,some buf)

/-! ## Whole streams -/

/-- A caller that reads to the end, with the buffer lengths `lens`, and joins the pieces of a field. -/
def csvRun (lens : ℕ → ℕ) : ℕ → ℕ → CsvState → List UInt8 → Option (List (CsvCode × List UInt8))
  | 0, _, _, _ => none
  | f + 1, k, csv, field => do
    let (csv,code,piece) ← csvNext csv (lens k)
    let field := field ++ piece.getD []
    match code with
    | .cnt => csvRun lens f (k + 1) csv field
    | .err => return [(.err,field)]
    | .eof => return [(.eof,field)]
    | code =>
      let rest ← csvRun lens f (k + 1) csv []
      return (code,field) :: rest

/-- The fields of a stream, read without any buffer: `inq` and `saw` are the states of the quotes. -/
def csvFields (err inq saw : Bool) (field : List UInt8) : List UInt8 → List (CsvCode × List UInt8)
  | [] => if err then [(.err,field)] else if field = [] then [(.eof,[])] else [(.rcd,field),(.eof,[])]
  | c :: s =>
    if c = 34 then
      if inq && saw then csvFields err (!inq) true (field ++ [c]) s else csvFields err (!inq) true field s
    else if c = 44 ∧ inq = false then (.fld,field) :: csvFields err false false [] s
    else if c = 10 ∧ inq = false then (.rcd,field) :: csvFields err false false [] s
    else csvFields err inq false (field ++ [c]) s


/-! ## Any buffers, the same fields -/

/-- What is still to be read: the byte that was put back and the bytes of the source. -/
def CsvState.stream (csv : CsvState) : List UInt8 := csv.last.toList ++ csv.source

/-- The fields that are still to come when `field` has been read of the current one. -/
def CsvState.rest (csv : CsvState) (field : List UInt8) : List (CsvCode × List UInt8) :=
  csvFields csv.err csv.inquote csv.sawquote field csv.stream

/-- The byte that was put back is stored when it is read again. -/
def CsvState.Stores (csv : CsvState) : Prop :=
  ∃ c, csv.last = some c ∧ if c = 34 then csv.inquote = true ∧ csv.sawquote = true
    else ¬ (c = 44 ∧ csv.inquote = false) ∧ ¬ (c = 10 ∧ csv.inquote = false)

theorem CsvState.next_some {csv csv' : CsvState} {c : UInt8} (h : csv.next = (some c,csv')) :
    csv.stream = c :: csv'.stream ∧ csv'.last = none ∧ csv'.err = csv.err ∧ csv'.inquote = csv.inquote ∧
      csv'.sawquote = csv.sawquote ∧ csv'.done = csv.done := by
  unfold CsvState.next at h
  split at h
  · rename_i d hd
    cases h
    simp [CsvState.stream, hd]
  · rename_i hl
    split at h
    · cases h
    · rename_i d s hs
      cases h
      simp [CsvState.stream, hl, hs]

theorem CsvState.next_none {csv csv' : CsvState} (h : csv.next = (none,csv')) : csv' = csv ∧ csv.stream = [] := by
  unfold CsvState.next at h
  split at h
  · cases h
  · rename_i hl
    split at h
    · rename_i hs
      cases h
      exact ⟨rfl,by simp [CsvState.stream, hl, hs]⟩
    · cases h

/-- What one more byte does: it is skipped or stored. -/
structure CsvMore (csv : CsvState) (buf : List UInt8) (csv' : CsvState) (buf' : List UInt8) : Prop where
  shorter : csv.stream.length = csv'.stream.length + 1
  done : csv'.done = csv.done
  grows : buf.length ≤ buf'.length ∧ buf'.length ≤ buf.length + 1
  stores : csv.Stores → buf' ≠ []
  fields : ∀ field, csv.rest (field ++ buf) = csv'.rest (field ++ buf')

/-- How a piece ends. -/
inductive CsvEnd (len : ℕ) (csv : CsvState) (buf : List UInt8) (csv' : CsvState) : CsvCode → Prop
  | err (hs : csv.stream = []) (he : csv.err = true) (hd : csv'.done < 0) : CsvEnd len csv buf csv' .err
  | eof (hs : csv.stream = []) (he : csv.err = false) (hs' : csv'.stream = []) (hd : 0 < csv'.done) :
      CsvEnd len csv buf csv' .rcd
  | sep {code : CsvCode} (hc : code = .fld ∨ code = .rcd) (hs : csv'.stream.length < csv.stream.length)
      (hd : csv'.done = csv.done)
      (hf : ∀ field, csv.rest (field ++ buf) = (code,field ++ buf) :: csvFields csv'.err false false [] csv'.stream) :
      CsvEnd len csv buf csv' code
  | cnt (hl : buf.length = len) (hs : csv'.stream.length = csv.stream.length) (hd : csv'.done = csv.done)
      (hst : csv'.Stores) (hf : ∀ field, csv.rest (field ++ buf) = csv'.rest (field ++ buf)) : CsvEnd len csv buf csv' .cnt

/-- What a turn does with the byte in front of it. -/
def CsvTurn (len : ℕ) (csv : CsvState) (buf : List UInt8)
    (t : Turn (CsvState × List UInt8) (CsvState × List UInt8 × CsvCode)) : Prop :=
  (∃ csv' buf', t = .again (csv',buf') ∧ CsvMore csv buf csv' buf') ∨
  ∃ csv' code, t = .leave (csv',buf,code) ∧ CsvEnd len csv buf csv' code

theorem CsvState.rest_other {csv : CsvState} {c : UInt8} {s : List UInt8} (hs : csv.stream = c :: s) (hc : c ≠ 34)
    (field : List UInt8) :
    csv.rest field = if c = 44 ∧ csv.inquote = false then (.fld,field) :: csvFields csv.err false false [] s
      else if c = 10 ∧ csv.inquote = false then (.rcd,field) :: csvFields csv.err false false [] s
      else csvFields csv.err csv.inquote false (field ++ [c]) s := by
  simp only [CsvState.rest, hs, csvFields, hc, if_false]

section Byte

variable {csv csv' : CsvState} {c : UInt8} (hs : csv.stream = c :: csv'.stream) (hl : csv'.last = none)
  (he : csv'.err = csv.err) (hd : csv'.done = csv.done) (len : ℕ) (buf : List UInt8)

include hs hl he hd

theorem csvStore_other (hc : c ≠ 34) (hi : csv'.inquote = csv.inquote) (hw : csv'.sawquote = false) :
    CsvTurn len csv buf (csvStore len csv' buf c) := by
  have hlen : csv.stream.length = csv'.stream.length + 1 := by rw [hs,List.length_cons]
  have hf := csv.rest_other hs hc
  unfold csvStore
  split_ifs with h1 h2 h3
  · refine Or.inr ⟨_,_,rfl,.sep (Or.inl rfl) (by omega) hd fun field => ?_⟩
    rw [hf,if_pos (hi ▸ h1),he]
  · refine Or.inr ⟨_,_,rfl,.sep (Or.inr rfl) (by omega) hd fun field => ?_⟩
    rw [hf,if_neg (hi ▸ h1),if_pos (hi ▸ h2),he]
  · -- the byte is put back
    have hs' : ({ csv' with last := some c } : CsvState).stream = c :: csv'.stream := by simp [CsvState.stream, hl]
    refine Or.inr ⟨_,_,rfl,.cnt h3 (by rw [hs',hs]) hd ⟨c,rfl,?_⟩ fun field => ?_⟩
    · simpa only [hc, if_false] using ⟨h1,h2⟩
    · rw [hf,CsvState.rest_other hs' hc]
      simp only [he, hi]
  · refine Or.inl ⟨_,_,rfl,hlen,hd,⟨by simp,by simp⟩,fun _ => by simp,fun field => ?_⟩
    rw [hf,if_neg (hi ▸ h1),if_neg (hi ▸ h2)]
    simp only [CsvState.rest, he, hi, hw, List.append_assoc]

theorem csvStore_quote (hc : c = 34) (hi : csv.inquote = true) (hq : csv.sawquote = true) (hi' : csv'.inquote = false)
    (hw : csv'.sawquote = true) : CsvTurn len csv buf (csvStore len csv' buf c) := by
  have hlen : csv.stream.length = csv'.stream.length + 1 := by rw [hs,List.length_cons]
  subst hc
  have h1 : ¬ ((34 : UInt8) = 44 ∧ csv'.inquote = false) := by simp
  have h2 : ¬ ((34 : UInt8) = 10 ∧ csv'.inquote = false) := by simp
  have hf : ∀ field, csv.rest field = csvFields csv.err false true (field ++ [34]) csv'.stream := by
    intro field
    simp [CsvState.rest, hs, csvFields, hi, hq]
  unfold csvStore
  rw [if_neg h1,if_neg h2]
  by_cases h3 : buf.length = len
  · rw [if_pos h3,if_pos rfl]
    have hs' : ({ csv' with last := some 34, inquote := !csv'.inquote } : CsvState).stream = 34 :: csv'.stream := by
      simp [CsvState.stream, hl]
    refine Or.inr ⟨_,_,rfl,.cnt h3 (by rw [hs',hs]) hd ⟨34,rfl,by simp [hi', hw]⟩ fun field => ?_⟩
    rw [hf,CsvState.rest,hs']
    simp [csvFields, hi', hw, he]
  · rw [if_neg h3]
    refine Or.inl ⟨_,_,rfl,hlen,hd,⟨by simp,by simp⟩,fun _ => by simp,fun field => ?_⟩
    rw [hf,CsvState.rest,hi',hw,he,List.append_assoc]

end Byte

theorem csvBody_turn (csv : CsvState) (len : ℕ) (buf : List UInt8) :
    ∃ t, csvBody len (csv,buf) = some t ∧ CsvTurn len csv buf t := by
  unfold csvBody
  split
  · rename_i csv' hn
    obtain ⟨rfl,hs⟩ := CsvState.next_none hn
    simp only [] at hn ⊢
    split_ifs with he
    · exact ⟨_,rfl,Or.inr ⟨_,_,rfl,.err hs he (by simp)⟩⟩
    · exact ⟨_,rfl,Or.inr ⟨_,_,rfl,.eof hs (by simpa using he) hs (by simp)⟩⟩
  · rename_i c csv' hn
    obtain ⟨hs,hl,he,hi,hw,hd⟩ := CsvState.next_some hn
    simp only [] at hs hi hw he hd ⊢
    split_ifs with hc hq
    · simp only [hi, hw, Bool.and_eq_true] at hq
      have hs' : csv.stream = c :: ({ csv' with inquote := !csv'.inquote, sawquote := true } : CsvState).stream := hs
      exact ⟨_,rfl,csvStore_quote hs' hl he hd len buf hc hq.1 hq.2 (by simp [hi, hq]) rfl⟩
    · -- a quote that is skipped
      have hq' : (csv.inquote && csv.sawquote) = false := by simpa [hi, hw] using hq
      refine ⟨_,rfl,Or.inl ⟨_,_,rfl,by rw [hs]; rfl,hd,⟨le_refl _,by omega⟩,fun hst => ?_,fun field => ?_⟩⟩
      · obtain ⟨d,hd',hst⟩ := hst
        simp only [CsvState.stream, hd', Option.toList_some, List.singleton_append, List.cons.injEq] at hs
        rw [hs.1] at hst
        simp [hc] at hst
        simp [hst] at hq'
      · simp only [CsvState.rest, hs, csvFields, hc, if_true, hq', hi, he]
        rfl
    · have hs' : csv.stream = c :: ({ csv' with sawquote := false } : CsvState).stream := hs
      exact ⟨_,rfl,csvStore_other hs' hl he hd len buf hc hi rfl⟩

/-- Where the loop of a call is: `csv` is the state at its start. -/
structure CsvAt (csv csv' : CsvState) (buf : List UInt8) : Prop where
  done : csv'.done = 0
  shorter : csv'.stream.length + buf.length ≤ csv.stream.length
  start : csv.Stores → buf = [] → csv'.Stores
  fields : ∀ field, csv.rest field = csv'.rest (field ++ buf)

theorem CsvAt.more {csv csv' csv'' : CsvState} {buf buf' : List UInt8} (h : CsvAt csv csv' buf)
    (hm : CsvMore csv' buf csv'' buf') :
    CsvAt csv csv'' buf' := by
  have h1 := h.shorter
  have h2 := hm.shorter
  have h3 := hm.grows
  refine ⟨hm.done.trans h.done,by omega,fun hs hb => ?_,fun field => (h.fields field).trans (hm.fields field)⟩
  have hb' : buf = [] := by
    rw [hb,List.length_nil] at h3
    exact List.eq_nil_of_length_eq_zero (by omega)
  exact absurd hb (hm.stores (h.start hs hb'))

theorem csvLoop {csv : CsvState} (hd : csv.done = 0) (len : ℕ) :
    ∃ csv' buf code csv'', loop (csvBody len) (csv.source.length + 3) (csv,[]) = some (csv'',buf,code) ∧
      CsvAt csv csv' buf ∧ CsvEnd len csv' buf csv'' code := by
  have hb : ∀ n (x : CsvState × List UInt8), n = x.1.stream.length ∧ CsvAt csv x.1 x.2 →
      (∃ y m, csvBody len x = some (.again y) ∧ m < n ∧ m = y.1.stream.length ∧ CsvAt csv y.1 y.2) ∨
      ∃ r, csvBody len x = some (.leave r) ∧ ∃ csv', CsvAt csv csv' r.2.1 ∧ CsvEnd len csv' r.2.1 r.1 r.2.2 := by
    rintro n ⟨csv',buf⟩ ⟨rfl,hx⟩
    obtain ⟨t,ht,⟨csv'',buf',rfl,hm⟩ | ⟨csv'',code,rfl,he⟩⟩ := csvBody_turn csv' len buf
    · exact Or.inl ⟨_,_,ht,hm.shorter ▸ Nat.lt_add_one _,rfl,hx.more hm⟩
    · exact Or.inr ⟨_,ht,csv',hx,he⟩
  have hl : csv.stream.length < csv.source.length + 3 := by
    cases hl : csv.last <;> simp [CsvState.stream, hl]
  obtain ⟨⟨csv'',buf,code⟩,hr,csv',ha,he⟩ := loop_total hb (s := (csv,[])) ⟨rfl,hd,by simp,fun h _ => h,by simp⟩ hl
  exact ⟨csv',buf,code,csv'',hr,ha,he⟩

/-- What a call does for a caller that has read `field` of the current one. -/
inductive CsvCall (csv : CsvState) (field : List UInt8) (csv' : CsvState) : CsvCode → Option (List UInt8) → Prop
  | err {piece : List UInt8} (hr : csv.rest field = [(.err,field ++ piece)]) : CsvCall csv field csv' .err (some piece)
  | eof (hr : csv.rest field = [(.eof,field)]) : CsvCall csv field csv' .eof none
  | last {piece : List UInt8} (hd : 0 < csv'.done) (hr : csv.rest field = [(.rcd,field ++ piece),(.eof,[])]) :
      CsvCall csv field csv' .rcd (some piece)
  | sep {code : CsvCode} {piece : List UInt8} (hc : code = .fld ∨ code = .rcd) (hd : csv'.done = 0)
      (hs : csv'.stream.length < csv.stream.length) (hr : csv.rest field = (code,field ++ piece) :: csv'.rest []) :
      CsvCall csv field csv' code (some piece)
  | cnt {piece : List UInt8} (hd : csv'.done = 0) (hs : csv'.stream.length < csv.stream.length) (hst : csv'.Stores)
      (hr : csv.rest field = csv'.rest (field ++ piece)) : CsvCall csv field csv' .cnt (some piece)

theorem csvNext_call {csv : CsvState} {field : List UInt8} (hd : csv.done = 0) (hf : field = [] ∨ csv.Stores) {len : ℕ}
    (hlen : 2 ≤ len) :
    ∃ csv' code piece, csvNext csv len = some (csv',code,piece) ∧ CsvCall csv field csv' code piece := by
  obtain ⟨csv',buf,code,csv'',hl,ha,he⟩ := csvLoop hd (len - 1)
  have hrest := ha.fields field
  have hd' := ha.done
  have hsh := ha.shorter
  unfold csvNext
  rw [if_neg (by omega),if_neg (by omega),if_neg (by omega),hl]
  simp only [Option.bind_eq_bind, Option.bind_some]
  cases he with
  | err hs he hd =>
    rw [if_neg (by omega)]
    refine ⟨_,_,_,rfl,.err ?_⟩
    rw [hrest,CsvState.rest,hs,csvFields,if_pos he]
  | eof hs he hs' hd =>
    have hr : csv.rest field = if field ++ buf = [] then [(.eof,[])] else [(.rcd,field ++ buf),(.eof,[])] := by
      rw [hrest,CsvState.rest,hs,csvFields,if_neg (by simp [he])]
    by_cases hb : buf = []
    · -- a byte that was put back would have been stored
      have hf' : field = [] := by
        rcases hf with hf | hf
        · exact hf
        · obtain ⟨c,hc,-⟩ := ha.start hf hb
          simp [CsvState.stream, hc] at hs
      rw [if_pos ⟨hb,hd⟩]
      exact ⟨_,_,_,rfl,.eof (by simpa [hb, hf'] using hr)⟩
    · rw [if_neg (fun h => hb h.1),if_neg (by simp)]
      exact ⟨_,_,_,rfl,.last hd (by simpa [hb] using hr)⟩
  | sep hc hs hd hf =>
    rw [if_neg (by omega),if_neg (by rcases hc with rfl | rfl <;> simp)]
    exact ⟨_,_,_,rfl,.sep hc (hd.trans hd') (by simp only [CsvState.stream] at *; omega) (hrest.trans (hf field))⟩
  | cnt hl hs hd hst hf =>
    rw [if_neg (by omega)]
    refine ⟨_,_,_,rfl,.cnt (hd.trans hd') (by omega) hst ?_⟩
    rw [hrest,hf]

theorem csvRun_rest {lens : ℕ → ℕ} (hlens : ∀ k, 2 ≤ lens k) {f k : ℕ} {csv : CsvState} {field : List UInt8}
    (hd : csv.done = 0) (hf : field = [] ∨ csv.Stores) (hk : csv.stream.length + 2 ≤ f) :
    csvRun lens f k csv field = some (csv.rest field) := by
  induction f generalizing k csv field with
  | zero => omega
  | succ f ih =>
    obtain ⟨csv',code,piece,hn,hc⟩ := csvNext_call hd hf (hlens k)
    rw [csvRun,hn]
    simp only [Option.bind_eq_bind, Option.bind_some]
    cases hc with
    | err hr => rw [hr]; rfl
    | eof hr => simp [hr]
    | last hd' hr =>
      obtain ⟨f,rfl⟩ : ∃ f', f = f' + 1 := ⟨f - 1,by omega⟩
      have hlast : csvNext csv' (lens (k + 1)) = some (csv',.eof,none) := by
        rw [csvNext,if_neg (by have := hlens (k + 1); omega),if_pos hd']
      have hrun : csvRun lens (f + 1) (k + 1) csv' [] = some [(.eof,[])] := by
        rw [csvRun,hlast]
        rfl
      simp [hrun, hr]
    | sep hc hd' hs hr =>
      have hrun : csvRun lens f (k + 1) csv' [] = some (csv'.rest []) := ih hd' (Or.inl rfl) (by omega)
      rcases hc with rfl | rfl <;> simp [hrun, hr]
    | cnt hd' hs hst hr =>
      rw [hr]
      exact ih hd' (Or.inr hst) (by omega)

/-- The fields, the record ends and the last result do not depend on the buffers. -/
theorem csvRun_eq (source : List UInt8) (err : Bool) (lens : ℕ → ℕ) (hlens : ∀ k, 2 ≤ lens k) :
    csvRun lens (source.length + 2) 0 (csvInit source err) [] = some (csvFields err false false [] source) :=
  csvRun_rest hlens rfl (Or.inl rfl) (le_refl _)

/-- The bytes `a"",` and a line end, in buffers of two bytes: the second quote is put back. -/
theorem csvRun_eq_sample :
    csvRun (fun _ => 2) 7 0 (csvInit [97,34,34,44,10] false) [] = some [(.fld,[97,34]),(.rcd,[]),(.eof,[])] :=
  (csvRun_eq [97,34,34,44,10] false (fun _ => 2) (fun _ => le_refl _)).trans (by decide)

end Catlib.Text
