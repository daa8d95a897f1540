import Catlib.Buffer.Grow
import Catlib.Text.Csv

/-! # Records of stdcsv.c

A field is read into a block that grows while `csv_next` says that it goes on. The loop over the fields leaves
where it should go on, and goes on at the end.
-/
namespace Catlib.Text
open Buffer

/-! ## The code -/

/-- One turn of `csv_read_field`: the state, the block, its size and how much of it is in use. -/
def fieldBody (mm : MemMgr UInt8) (x : CsvState × Ptr × ℕ × ℕ) : Option (Turn (CsvState × Ptr × ℕ × ℕ) (CsvState × CsvCode × Ptr)) := do
  let (csv,s,slen,soff) := x
  if (slen + 2) % 2 ^ 64 ≤ slen then none
  let (rv,bp,slen) ← if soff > slen - 2 then mmGrow mm s slen (slen + 2) else some (0,s,slen)
  if rv < 0 then return .leave (csv,.err,s)
  let (csv,code,piece) ← csvNext csv (slen - soff)
  -- nothing is written at the end
  let s ← match piece with
    | none => some bp
    | some piece => (do writeMem (← bp.cells) soff (piece ++ [0])).map .block
  if code = .cnt then return .again (csv,s,slen,soff + (piece.getD []).length) else return .leave (csv,code,s)

def csvReadField (mm : MemMgr UInt8) (fuel : ℕ) (csv : CsvState) : Option (CsvState × CsvCode × Ptr) :=
  match memResize mm [] 32 with
  | none => some (csv,.err,.null)
  | some s => loop (fieldBody mm) fuel (csv,.block s,32,0)

/-- The variables of `csv_read_rec`; no code is the one before the first field, and no array one that is no block. -/
structure RecState where
  csv : CsvState
  code : Option CsvCode
  nf : ℕ
  rsz : ℕ
  fields : Option (List Ptr)

/-- One turn of `csv_read_rec`. -/
def recBody (mm : MemMgr UInt8) (fuel : ℕ) (x : RecState) : Option (Turn RecState RecState) :=
  if x.code = some .rcd ∨ x.code = some .eof then some (.leave x)
  else do
    let (csv,code,field) ← csvReadField mm fuel x.csv
    let x := { x with csv := csv, code := some code }
    if code = .err then return .leave x
    else if code ≠ .eof then return .leave x
    else
      let (rv,x) ← if x.nf = x.rsz then
          (mmGrow mm .variable (x.rsz * 8) (x.rsz * 8 + 8)).map fun r => (r.1,{ x with rsz := r.2.2 / 8, fields := none })
        else some (0,x)
      if rv < 0 then return .leave { x with code := some .err }
      let fields ← x.fields
      return .again { x with fields := some (fields.set x.nf field), nf := x.nf + 2 }

/-- `csv_read_rec`: the state, the result, and the fields of the record. -/
def csvReadRec (mm : MemMgr UInt8) (fuel : ℕ) (csv : CsvState) : Option (CsvState × CsvCode × List Ptr) :=
  if (mm (8 * 8)).isSome = false then some (csv,.err,[])
  else do
    let x ← loop (recBody mm fuel) fuel ⟨csv,none,0,8,some (List.replicate 8 .null)⟩
    if x.code = some .err then return (x.csv,.err,[])
    else if x.code = some .eof then if x.nf = 0 then return (x.csv,.eof,[]) else none
    else return (x.csv,.rcd,(← x.fields).take x.nf)

/-! ## What the calls are for -/

/-- What `csv_next` still gives, its pieces joined. -/
def CsvState.results (csv : CsvState) : List (CsvCode × List UInt8) :=
  if 0 < csv.done then [(.eof,[])] else if csv.done < 0 then [(.err,[])] else csv.rest []

/-- The fields up to the end of a record, or that there is none. -/
inductive NextRecord : List (CsvCode × List UInt8) → Option (List (List UInt8)) → Prop
  | ended : NextRecord [(.eof,[])] none
  | record (fields : List (List UInt8)) (last : List UInt8) (rest : List (CsvCode × List UInt8)) :
      NextRecord (fields.map (Prod.mk .fld) ++ (.rcd,last) :: rest) (some (fields ++ [last]))

/-- The call returns this record, each field with its null byte, or the end. -/
def ReadsRecord (r : Option (CsvState × CsvCode × List Ptr)) : Option (List (List UInt8)) → Prop
  | none => ∃ csv fields, r = some (csv,.eof,fields)
  | some record => ∃ csv fields, r = some (csv,.rcd,fields) ∧ List.Forall₂ (fun p f => ∃ rest, p = .block (f ++ 0 :: rest)) fields record

/-! ## What they do -/

variable {mm : MemMgr UInt8} {csv csv' : CsvState} {code : CsvCode} {fields : List Ptr} {record : Option (List (List UInt8))} {fuel : ℕ}
  {x y : RecState}

theorem recBody_first (hcode : x.code = none) (hnf : x.nf = 0) (hrsz : x.rsz = 8) :
    (∀ y, recBody mm fuel x = some (.leave y) → y.nf = 0 ∧ y.code ≠ some .eof) ∧
      ∀ y, recBody mm fuel x = some (.again y) → y.nf = 2 ∧ y.code = some .eof := by
  rw [recBody,if_neg (by rw [hcode]; simp)]
  cases hread : csvReadField mm fuel x.csv with
  | none => exact ⟨fun _ h => absurd h (Option.some_ne_none _).symm,fun _ h => absurd h (Option.some_ne_none _).symm⟩
  | some r =>
    obtain ⟨csv',code,field⟩ := r
    simp only [Option.bind_eq_bind, Option.bind_some]
    by_cases herr : code = .err
    · rw [if_pos herr]
      refine ⟨fun y hy => ?_,nofun⟩
      cases hy
      exact ⟨hnf,by simp [herr]⟩
    by_cases heof : code = .eof
    · subst heof
      rw [if_neg herr,if_neg (fun h => h rfl),if_neg (by omega)]
      simp only [lt_irrefl, if_false]
      cases x.fields with
      | none => exact ⟨nofun,nofun⟩
      | some l =>
        refine ⟨nofun,fun y hy => ?_⟩
        cases hy
        exact ⟨by rw [hnf],rfl⟩
    · rw [if_neg herr,if_pos heof]
      refine ⟨fun y hy => ?_,nofun⟩
      cases hy
      exact ⟨hnf,by simpa using heof⟩

/-- What is so before the first field, and at the end. -/
def RecState.Early (x : RecState) : Prop := x.code = none ∧ x.nf = 0 ∧ x.rsz = 8 ∨ x.code = some .eof ∧ x.nf = 2

theorem csvReadRec_cases (h : csvReadRec mm fuel csv = some (csv',code,fields)) : fields = [] ∧ code ≠ .eof := by
  rw [csvReadRec] at h
  split at h
  · cases h
    exact ⟨rfl,nofun⟩
  obtain ⟨y,hloop,h⟩ := Option.bind_eq_some_iff.mp h
  have hagain : ∀ x x' : RecState, x.Early → recBody mm fuel x = some (.again x') → x'.Early := by
    rintro x x' (⟨hcode,hnf,hrsz⟩ | ⟨hcode,-⟩) hb
    · obtain ⟨hnf,hcode⟩ := (recBody_first hcode hnf hrsz).2 x' hb
      exact .inr ⟨hcode,hnf⟩
    · rw [recBody,if_pos (.inr hcode)] at hb
      cases hb
  have hleave : ∀ x y : RecState, x.Early → recBody mm fuel x = some (.leave y) →
      y.nf = 0 ∧ y.code ≠ some .eof ∨ y.nf = 2 ∧ y.code = some .eof := by
    rintro x y (⟨hcode,hnf,hrsz⟩ | ⟨hcode,hnf⟩) hb
    · exact .inl ((recBody_first hcode hnf hrsz).1 y hb)
    · rw [recBody,if_pos (.inr hcode)] at hb
      cases hb
      exact .inr ⟨hnf,hcode⟩
  obtain ⟨hnf,hcode⟩ | ⟨hnf,hcode⟩ := loop_partial hagain hleave (.inl ⟨rfl,rfl,rfl⟩) hloop
  · split at h
    · cases h
      exact ⟨rfl,nofun⟩
    · obtain ⟨l,-,h⟩ := Option.bind_eq_some_iff.mp h
      rw [hnf] at h
      cases h
      exact ⟨rfl,nofun⟩
  · rw [hcode,if_neg (by simp),if_pos rfl,if_neg (by omega)] at h
    cases h

/-- No record is ever returned with its fields, and the end is never returned. -/
theorem csvReadRec_never (mm : MemMgr UInt8) (fuel : ℕ) (csv : CsvState) (record : Option (List (List UInt8)))
    (hrecord : NextRecord csv.results record) : ¬ReadsRecord (csvReadRec mm fuel csv) record := by
  generalize csv.results = results at hrecord
  cases hrecord with
  | ended =>
    rintro ⟨csv',fields,h⟩
    exact (csvReadRec_cases h).2 rfl
  | record fields' last rest =>
    rintro ⟨csv',fields,h,hfields⟩
    obtain rfl := (csvReadRec_cases h).1
    have hlen := hfields.length_eq
    simp at hlen

theorem csvReadRec_never_a :
    ¬ReadsRecord (csvReadRec (fun _ => some fun _ => 0) 5 (csvInit [97,10] false)) (some ([] ++ [[97]])) :=
  csvReadRec_never (fun _ => some fun _ => 0) 5 (csvInit [97,10] false) _ (.record [] [97] [(.eof,[])])

/-- That record comes without its field, and at the end of a stream nothing comes. -/
theorem csvReadRec_drops :
    ((csvReadRec (fun _ => some fun _ => 0) 5 (csvInit [97,10] false)).map fun r => (r.2.1,r.2.2.length)) = some (.rcd,0) ∧
    ¬ReadsRecord (csvReadRec (fun _ => some fun _ => 0) 5 (csvInit [97,10] false)) (some [[97]]) ∧
    csvReadRec (fun _ => some fun _ => 0) 5 (csvInit [] false) = none := by
  refine ⟨by decide +kernel,?_,by rfl⟩
  rintro ⟨csv',fields,h,hfields⟩
  obtain rfl := (csvReadRec_cases h).1
  cases hfields

end Catlib.Text
