import Catlib.Text.Csv

/-! # Texts in the quoting convention, read by csv.c

A field in quotes has each quote of its contents doubled. The reader takes a quote for one of the
contents if the byte before it was a quote and the number of quotes so far is odd.
-/
namespace Catlib.Text

/-! ## Texts -/

inductive CsvField where
  | bare (text : List UInt8) (plain : ∀ c ∈ text, c ≠ 34 ∧ c ≠ 44 ∧ c ≠ 10)
  | quoted (content : List UInt8)

/-- The contents between quotes. -/
def doubled : List UInt8 → List UInt8
  | [] => []
  | c :: s => if c = 34 then 34 :: 34 :: doubled s else c :: doubled s

def CsvField.text : CsvField → List UInt8
  | .bare text _ => text
  | .quoted content => 34 :: (doubled content ++ [34])

def CsvField.content : CsvField → List UInt8
  | .bare text _ => text
  | .quoted content => content

structure CsvRow where
  fields : List CsvField
  last : CsvField

def CsvRow.text (row : CsvRow) : List UInt8 := (row.fields.map fun f => f.text ++ [44]).flatten ++ row.last.text

/-- The rows that end with a line end, and one that ends with the text. -/
structure CsvText where
  rows : List CsvRow
  tail : Option CsvRow
  nonempty : ∀ row ∈ tail, row.text ≠ []

def CsvText.text (t : CsvText) : List UInt8 := (t.rows.map fun row => row.text ++ [10]).flatten ++ t.tail.elim [] CsvRow.text

/-- The fields, each with what comes with it. -/
def CsvRow.codes (row : CsvRow) : List (CsvCode × CsvField) := row.fields.map (Prod.mk .fld) ++ [(.rcd,row.last)]

def CsvText.codes (t : CsvText) : List (CsvCode × CsvField) := (t.rows.map CsvRow.codes).flatten ++ t.tail.elim [] CsvRow.codes

/-- A caller that reads to the end, with the buffer lengths `lens`. -/
def csvCalls (lens : ℕ → ℕ) : ℕ → ℕ → CsvState → Option (List (CsvCode × Option (List UInt8)))
  | 0, _, _ => none
  | f + 1, k, csv => do
    let (csv,code,piece) ← csvNext csv (lens k)
    if code = .eof ∨ code = .err then return [(code,piece)] else return (code,piece) :: (← csvCalls lens f (k + 1) csv)

/-- The calls give the fields of a text with their contents, and then the end. -/
def Decodes (t : CsvText) : Prop :=
  ∀ lens : ℕ → ℕ, (∀ k, t.text.length + 2 ≤ lens k) →
    csvCalls lens (t.text.length + 2) 0 (csvInit t.text false) =
      some (t.codes.map (fun p => (p.1,some p.2.content)) ++ [(.eof,none)])

/-! ## Large buffers -/

variable {content s rest field : List UInt8} {err saw : Bool} {c : UInt8} {k len : ℕ} {csv : CsvState} {lens : ℕ → ℕ}

theorem csvNext_large {csv' : CsvState} {code : CsvCode} {piece : Option (List UInt8)} (hd : csv.done = 0)
    (hlen : csv.stream.length + 2 ≤ len) (h : csvNext csv len = some (csv',code,piece)) : code ≠ .cnt := by
  obtain ⟨csv1,buf,code',csv2,hl,ha,he⟩ := csvLoop hd (len - 1)
  have hsh := ha.shorter
  unfold csvNext at h
  rw [if_neg (by omega),if_neg (by omega),if_neg (by omega),hl] at h
  simp only [Option.bind_eq_bind, Option.bind_some] at h
  rintro rfl
  split at h
  · cases h
  split at h
  · rename_i hc
    subst hc
    cases he with
    | sep hc => simp at hc
    | cnt hfull => omega
  · rename_i hc
    cases h
    exact hc rfl

/-- A result with its piece; the end has none. -/
def withPiece (p : CsvCode × List UInt8) : CsvCode × Option (List UInt8) := (p.1,if p.1 = .eof then none else some p.2)

theorem csvCalls_rest {f : ℕ} (hd : csv.done = 0) (hlens : ∀ k, csv.stream.length + 2 ≤ lens k) (hf : csv.stream.length + 2 ≤ f) :
    csvCalls lens f k csv = some ((csv.rest []).map withPiece) := by
  induction f generalizing k csv with
  | zero => omega
  | succ f ih =>
    obtain ⟨csv',code,piece,hn,hc⟩ := csvNext_call hd (.inl rfl) (show 2 ≤ lens k by have := hlens k; omega)
    have hcnt := csvNext_large hd (hlens k) hn
    rw [csvCalls,hn]
    simp only [Option.bind_eq_bind, Option.bind_some]
    cases hc with
    | err hr => rw [hr]; rfl
    | eof hr => rw [hr]; rfl
    | last hd' hr =>
      obtain ⟨f,rfl⟩ : ∃ f', f = f' + 1 := ⟨f - 1,by omega⟩
      have hlast : csvNext csv' (lens (k + 1)) = some (csv',.eof,none) := by
        rw [csvNext,if_neg (by have := hlens (k + 1); omega),if_pos hd']
      have hrun : csvCalls lens (f + 1) (k + 1) csv' = some [(.eof,none)] := by
        rw [csvCalls,hlast]
        rfl
      simp [hrun, hr, withPiece]
    | sep hc hd' hs hr =>
      have hrun : csvCalls lens f (k + 1) csv' = some ((csv'.rest []).map withPiece) :=
        ih hd' (fun k => by have := hlens k; omega) (by omega)
      rcases hc with rfl | rfl <;> simp [hrun, hr, withPiece]
    | cnt => exact absurd rfl hcnt

/-! ## What is read of a field -/

/-- The contents as they are read; `saw` says that a quote was the byte before. -/
def slipped : Bool → List UInt8 → List UInt8
  | saw, [] => if saw then [34] else []
  | saw, c :: s => if c = 34 then if saw then 34 :: slipped true s else slipped true s else c :: slipped false s

/-- The contents of a field as they are read. -/
def CsvField.taken : CsvField → List UInt8
  | .bare text _ => text
  | .quoted content => slipped true content

def CsvField.isQuoted : CsvField → Bool
  | .bare .. => false
  | .quoted _ => true

theorem csvFields_plain (h : ∀ c ∈ s, c ≠ 34 ∧ c ≠ 44 ∧ c ≠ 10) (field rest : List UInt8) :
    csvFields err false false field (s ++ rest) = csvFields err false false (field ++ s) rest := by
  induction s generalizing field with
  | nil => rw [List.nil_append,List.append_nil]
  | cons c s ih =>
    rw [List.forall_mem_cons] at h
    obtain ⟨⟨h1,h2,h3⟩,h⟩ := h
    rw [List.cons_append,csvFields,if_neg h1,if_neg (fun h => h2 h.1),if_neg (fun h => h3 h.1),ih h,List.append_assoc]
    rfl

theorem csvFields_doubled (content field rest : List UInt8) :
    csvFields err true saw field (doubled content ++ 34 :: rest) = csvFields err false true (field ++ slipped saw content) rest := by
  induction content generalizing saw field with
  | nil => cases saw <;> simp [doubled, slipped, csvFields]
  | cons c s ih =>
    by_cases hc : c = 34
    · -- the second of two quotes opens again
      cases saw <;> simp [doubled, slipped, csvFields, hc, ih]
    · simp [doubled, slipped, csvFields, hc, ih]

theorem csvFields_field (f : CsvField) (rest : List UInt8) :
    csvFields err false false [] (f.text ++ rest) = csvFields err false f.isQuoted f.taken rest := by
  cases f with
  | bare text plain => exact csvFields_plain plain [] rest
  | quoted content =>
    have hopen : csvFields err false false [] (34 :: (doubled content ++ 34 :: rest)) = _ := csvFields_doubled content [] rest
    rw [CsvField.text,List.cons_append,List.append_assoc,List.singleton_append,hopen]
    rfl

/-! ## Rows -/

/-- The fields with what is read of them. -/
def takenOf (l : List (CsvCode × CsvField)) : List (CsvCode × List UInt8) := l.map fun p => (p.1,p.2.taken)

theorem takenOf_append (l l' : List (CsvCode × CsvField)) : takenOf (l ++ l') = takenOf l ++ takenOf l' := List.map_append

theorem csvFields_fields (fields : List CsvField) (rest : List UInt8) :
    csvFields err false false [] ((fields.map fun f => f.text ++ [44]).flatten ++ rest) =
      takenOf (fields.map (Prod.mk .fld)) ++ csvFields err false false [] rest := by
  induction fields with
  | nil => rfl
  | cons f fields ih =>
    have hstep : takenOf ((f :: fields).map (Prod.mk .fld)) = (.fld,f.taken) :: takenOf (fields.map (Prod.mk .fld)) := rfl
    rw [hstep,List.cons_append,← ih,List.map_cons,List.flatten_cons,List.append_assoc,List.append_assoc,csvFields_field]
    rfl

theorem csvFields_row (row : CsvRow) (rest : List UInt8) :
    csvFields err false false [] (row.text ++ 10 :: rest) = takenOf row.codes ++ csvFields err false false [] rest := by
  rw [CsvRow.text,List.append_assoc,csvFields_fields,csvFields_field,CsvRow.codes,takenOf_append,List.append_assoc]
  rfl

theorem csvFields_tail (row : CsvRow) :
    csvFields false false false [] row.text = takenOf (row.fields.map (Prod.mk .fld)) ++
      if row.last.taken = [] then [(.eof,[])] else [(.rcd,row.last.taken),(.eof,[])] := by
  rw [CsvRow.text,csvFields_fields,← List.append_nil row.last.text,csvFields_field]
  rfl

theorem csvFields_rows (rows : List CsvRow) (rest : List UInt8) :
    csvFields err false false [] ((rows.map fun row => row.text ++ [10]).flatten ++ rest) =
      takenOf (rows.map CsvRow.codes).flatten ++ csvFields err false false [] rest := by
  induction rows with
  | nil => rfl
  | cons row rows ih =>
    rw [List.map_cons,List.flatten_cons,List.append_assoc,List.append_assoc,List.singleton_append,csvFields_row,ih,List.map_cons,
      List.flatten_cons,takenOf_append,List.append_assoc]

/-! ## Contents that are read as they are -/

/-- Quotes only at the ends, and something between them. -/
def Edged (content : List UInt8) : Prop :=
  ∃ i mid j, mid ≠ [] ∧ (∀ c ∈ mid, c ≠ 34) ∧ content = List.replicate i 34 ++ mid ++ List.replicate j 34

theorem slipped_quotes : slipped true s = 34 :: s ↔ ∃ j, s = List.replicate j 34 := by
  induction s with
  | nil => exact iff_of_true rfl ⟨0,rfl⟩
  | cons c s ih =>
    by_cases hc : c = 34
    · subst hc
      have hstep : slipped true (34 :: s) = 34 :: slipped true s := rfl
      rw [hstep,List.cons_inj_right,ih]
      constructor
      · rintro ⟨j,rfl⟩
        exact ⟨j + 1,rfl⟩
      · rintro ⟨j,hj⟩
        cases j with
        | zero => cases hj
        | succ j => exact ⟨j,(List.cons_inj_right _).mp hj⟩
    · refine iff_of_false (fun h => ?_) (fun ⟨j,hj⟩ => ?_)
      · rw [slipped,if_neg hc] at h
        exact hc (List.cons.inj h).1
      · cases j with
        | zero => cases hj
        | succ j => exact hc (List.cons.inj hj).1

theorem slipped_plain : slipped false s = s ↔ ∃ mid j, (∀ c ∈ mid, c ≠ 34) ∧ s = mid ++ List.replicate j 34 := by
  induction s with
  | nil => exact iff_of_true rfl ⟨[],0,nofun,rfl⟩
  | cons c s ih =>
    by_cases hc : c = 34
    · subst hc
      have hstep : slipped false (34 :: s) = slipped true s := rfl
      rw [hstep,slipped_quotes]
      constructor
      · rintro ⟨j,rfl⟩
        exact ⟨[],j + 1,nofun,rfl⟩
      · rintro ⟨mid,j,hmid,hs⟩
        cases mid with
        | nil =>
          cases j with
          | zero => cases hs
          | succ j => exact ⟨j,(List.cons_inj_right _).mp hs⟩
        | cons d mid => exact absurd (List.cons.inj hs).1.symm (hmid d List.mem_cons_self)
    · have hstep : slipped false (c :: s) = c :: slipped false s := by rw [slipped,if_neg hc]
      rw [hstep,List.cons_inj_right,ih]
      constructor
      · rintro ⟨mid,j,hmid,rfl⟩
        exact ⟨c :: mid,j,List.forall_mem_cons.mpr ⟨hc,hmid⟩,rfl⟩
      · rintro ⟨mid,j,hmid,hs⟩
        cases mid with
        | nil =>
          cases j with
          | zero => cases hs
          | succ j => exact absurd (List.cons.inj hs).1 hc
        | cons d mid => exact ⟨mid,j,fun x hx => hmid x (List.mem_cons_of_mem d hx),(List.cons.inj hs).2⟩

theorem slipped_edged : slipped true content = content ↔ Edged content := by
  induction content with
  | nil =>
    refine iff_of_false (by decide) ?_
    rintro ⟨i,mid,j,hne,-,h⟩
    simp at h
    exact hne h.2.1
  | cons c s ih =>
    by_cases hc : c = 34
    · subst hc
      have hstep : slipped true (34 :: s) = 34 :: slipped true s := rfl
      rw [hstep,List.cons_inj_right,ih]
      constructor
      · rintro ⟨i,mid,j,hne,hmid,rfl⟩
        exact ⟨i + 1,mid,j,hne,hmid,rfl⟩
      · rintro ⟨i,mid,j,hne,hmid,h⟩
        cases i with
        | zero =>
          cases mid with
          | nil => exact absurd rfl hne
          | cons d mid => exact absurd (List.cons.inj h).1.symm (hmid d List.mem_cons_self)
        | succ i => exact ⟨i,mid,j,hne,hmid,(List.cons.inj h).2⟩
    · have hstep : slipped true (c :: s) = c :: slipped false s := by rw [slipped,if_neg hc]
      rw [hstep,List.cons_inj_right,slipped_plain]
      constructor
      · rintro ⟨mid,j,hmid,rfl⟩
        exact ⟨0,c :: mid,j,List.cons_ne_nil _ _,List.forall_mem_cons.mpr ⟨hc,hmid⟩,rfl⟩
      · rintro ⟨i,mid,j,hne,hmid,h⟩
        cases i with
        | zero =>
          cases mid with
          | nil => exact absurd rfl hne
          | cons d mid => exact ⟨mid,j,fun x hx => hmid x (List.mem_cons_of_mem d hx),(List.cons.inj h).2⟩
        | succ i => exact absurd (List.cons.inj h).1 hc

theorem slipped_ne_nil (content : List UInt8) : slipped true content ≠ [] := by
  cases content with
  | nil => exact List.cons_ne_nil _ _
  | cons c s =>
    rw [slipped]
    split <;> exact List.cons_ne_nil _ _

/-! ## Texts that are read as they are -/

theorem rest_codes (t : CsvText) : csvFields false false false [] t.text =
    takenOf (t.rows.map CsvRow.codes).flatten ++ t.tail.elim [(.eof,[])] fun row => csvFields false false false [] row.text := by
  rw [CsvText.text,csvFields_rows]
  cases t.tail <;> rfl

theorem rest_short (t : CsvText) {row : CsvRow} (htail : t.tail = some row) (hlast : row.last.taken = []) :
    csvFields false false false [] t.text =
      takenOf ((t.rows.map CsvRow.codes).flatten ++ row.fields.map (Prod.mk .fld)) ++ [(.eof,[])] := by
  rw [rest_codes,htail,takenOf_append,List.append_assoc]
  show _ ++ csvFields false false false [] row.text = _
  rw [csvFields_tail,if_pos hlast]

theorem rest_full (t : CsvText) (hlast : ∀ row ∈ t.tail, row.last.taken ≠ []) :
    csvFields false false false [] t.text = takenOf t.codes ++ [(.eof,[])] := by
  rw [rest_codes,CsvText.codes,takenOf_append,List.append_assoc]
  cases htail : t.tail with
  | none => rfl
  | some row =>
    show _ ++ csvFields false false false [] row.text = _ ++ (takenOf row.codes ++ _)
    rw [csvFields_tail,if_neg (hlast row htail),CsvRow.codes,takenOf_append,List.append_assoc]
    rfl

theorem taken_content (f : CsvField) : f.taken = f.content ↔ ∀ s, f = .quoted s → Edged s := by
  cases f with
  | bare text plain => exact iff_of_true rfl nofun
  | quoted s =>
    refine slipped_edged.trans ⟨?_,fun h => h s rfl⟩
    rintro h _ ⟨rfl⟩
    exact h

theorem taken_eq_nil (f : CsvField) : f.taken = [] ↔ f.text = [] := by
  cases f with
  | bare text plain => exact .rfl
  | quoted s => exact iff_of_false (slipped_ne_nil s) (List.cons_ne_nil _ _)

theorem codes_ne_eof (t : CsvText) {p : CsvCode × CsvField} (hp : p ∈ t.codes) : p.1 ≠ .eof := by
  have hrow : ∀ row : CsvRow, p ∈ row.codes → p.1 ≠ .eof := by
    intro row hp
    rw [CsvRow.codes,List.mem_append,List.mem_map,List.mem_singleton] at hp
    obtain ⟨f,-,rfl⟩ | rfl := hp <;> exact nofun
  rw [CsvText.codes,List.mem_append,List.mem_flatten] at hp
  obtain ⟨l,hl,hp⟩ | hp := hp
  · obtain ⟨row,-,rfl⟩ := List.mem_map.mp hl
    exact hrow row hp
  · cases htail : t.tail with
    | none =>
      rw [htail] at hp
      exact absurd hp List.not_mem_nil
    | some row =>
      rw [htail] at hp
      exact hrow row hp

theorem csvCalls_text (t : CsvText) {lens : ℕ → ℕ} (hlens : ∀ k, t.text.length + 2 ≤ lens k) :
    csvCalls lens (t.text.length + 2) 0 (csvInit t.text false) = some ((csvFields false false false [] t.text).map withPiece) :=
  csvCalls_rest rfl hlens le_rfl

/-- A text is read as it is if quotes inside of quotes are at the ends of contents that have something else, and
no empty field ends the text. -/
theorem csvCalls_iff (t : CsvText) : Decodes t ↔
    (∀ p ∈ t.codes, ∀ s, p.2 = .quoted s → Edged s) ∧ ∀ row ∈ t.tail, row.last.text ≠ [] := by
  have hpieces : (takenOf t.codes ++ [(CsvCode.eof,[])]).map withPiece = t.codes.map (fun p => (p.1,some p.2.taken)) ++ [(.eof,none)] := by
    rw [List.map_append,takenOf,List.map_map]
    congr 1
    refine List.map_congr_left fun p hp => ?_
    rw [Function.comp_apply,withPiece,if_neg (codes_ne_eof t hp)]
  constructor
  · intro h
    have hrun := h (fun _ => t.text.length + 2) fun _ => le_rfl
    rw [csvCalls_text t fun _ => le_rfl,Option.some_inj] at hrun
    have hlast : ∀ row ∈ t.tail, row.last.text ≠ [] := by
      intro row htail hnil
      -- one result is missing
      have hlen := congrArg List.length hrun
      rw [rest_short t htail ((taken_eq_nil _).mpr hnil),CsvText.codes,show t.tail = some row from htail] at hlen
      simp only [takenOf, Option.elim_some, CsvRow.codes, List.length_map, List.length_append, List.length_cons, List.length_nil] at hlen
      omega
    refine ⟨fun p hp => (taken_content _).mp ?_,hlast⟩
    rw [rest_full t fun row hrow hnil => hlast row hrow ((taken_eq_nil _).mp hnil),hpieces,List.append_left_inj] at hrun
    have hp' := List.map_inj_left.mp hrun p hp
    exact Option.some_inj.mp (Prod.ext_iff.mp hp').2
  · rintro ⟨hfields,hlast⟩ lens hlens
    rw [csvCalls_text t hlens,rest_full t fun row hrow hnil => hlast row hrow ((taken_eq_nil _).mp hnil),hpieces]
    congr 2
    refine List.map_congr_left fun p hp => ?_
    rw [(taken_content p.2).mpr (hfields p hp)]

/-- The text "" of an empty field in quotes has a quote in it, and a doubled quote between two letters is lost. -/
theorem csvCalls_quoted : csvCalls (fun _ => 8) 8 0 (csvInit [34,34,10] false) = some [(.rcd,some [34]),(.eof,none)] ∧
    ¬Decodes ⟨[⟨[],.quoted []⟩],none,nofun⟩ ∧ ¬Decodes ⟨[⟨[],.quoted [97,34,97]⟩],none,nofun⟩ ∧
    ¬Decodes ⟨[],some ⟨[.bare [97] (by simp)],.bare [] nofun⟩,by simp [CsvRow.text, CsvField.text]⟩ := by
  refine ⟨by decide,fun h => ?_,fun h => ?_,fun h => ?_⟩
  · have := h (fun _ => 5) fun _ => by decide
    revert this
    decide
  · have := h (fun _ => 9) fun _ => by decide
    revert this
    decide
  · have := h (fun _ => 4) fun _ => by decide
    revert this
    decide

end Catlib.Text
