import Catlib.Rex.First

/-! # The lexer of lex.c

A token is the first pattern that matches at the next character. The string that the pattern is
matched against begins there, but its length is the one of the whole input: behind the first
token the matcher sees the terminating NUL, and the memory behind it.
-/
namespace Catlib.Lex

open Rex

/-! ## The code -/

/-- `struct lexer_entry`, with the pattern that it was compiled from. -/
structure LexerEntry where
  token : ℕ
  pattern : List UInt8
  nodes : List RexNode
  anchor : Bool
  compiled : ∃ junk, rexInit junk (94 :: pattern) = some (.ok (nodes,anchor))

/-- `struct lexer`; `next_char` is an offset of the input, which goes up to its NUL. -/
structure Lexer where
  entries : List LexerEntry
  input : List UInt8
  nextChar : ℕ

def lexNew : Lexer := ⟨[],[],0⟩

/-- `lex_add_entry`; the two allocations succeed or not. -/
def lexAddEntry (junk : UInt8) (mem : Bool × Bool) (lex : Lexer) (pattern : List UInt8) (token : ℤ) : Option (Lexer × ℤ) :=
  if token < 0 then some (lex,-1)
  else if !mem.1 then some (lex,-1)
  else if !mem.2 then some (lex,-1)
  else
    match h : rexInit junk (94 :: pattern) with
    | none => none
    | some (.error _) => some (lex,-1)
    | some (.ok (nodes,anchor)) => some ({ lex with entries := lex.entries ++ [⟨token.toNat,pattern,nodes,anchor,junk,h⟩] },0)

def lexReset (lex : Lexer) (string : List UInt8) : Lexer := { lex with input := string, nextChar := 0 }

/-- The bytes of memory from the beginning of the input on. -/
def Lexer.byteAt (beyond : ℕ → UInt8) (lex : Lexer) (i : ℕ) : UInt8 :=
  if i = lex.input.length then 0 else lex.input.getD i (beyond i)

/-- The string that the patterns are matched against: `next_char - r.data` is 0, so the length is
the one of the input. -/
def Lexer.raw (beyond : ℕ → UInt8) (lex : Lexer) : List UInt8 :=
  (List.range lex.input.length).map fun k => lex.byteAt beyond (lex.nextChar + k)

/-- `LEX_NOMATCH` and `LEX_ERROR`. -/
inductive LexFail where
  | nomatch
  | error

inductive LexRes where
  | token (k : ℕ) (string : ℕ) (len : ℤ)
  | lexEnd
  | failed (e : LexFail)

/-- A size that is stored in an int. -/
def toInt32 (n : ℕ) : ℤ := (BitVec.ofNat 32 n).toInt

/-- The loop over the entries: the token of the first that matches, and how much it matches. -/
def lexTry (fuel : ℕ) (r : List UInt8) : List LexerEntry → Option (Except LexFail (ℕ × ℕ))
  | [] => some (.error .nomatch)
  | ent :: es => do
    let (rv,slots) ← rexMatch ent.nodes r ent.anchor [⟨false,0,0⟩] fuel
    match rv with
    | .error => return .error .error
    | .nomatch => lexTry fuel r es
    | .matched =>
      let m ← slots.locs[0]?
      if m.valid ∧ m.start = 0 then return .ok (ent.token,m.len) else none

def lexNextToken (beyond : ℕ → UInt8) (fuel : ℕ) (lex : Lexer) : Option (Lexer × LexRes) :=
  if lex.nextChar = lex.input.length then some (lex,.lexEnd)
  else do
    match ← lexTry fuel (lex.raw beyond) lex.entries with
    | .error e => return (lex,.failed e)
    | .ok (k,n) => return ({ lex with nextChar := lex.nextChar + n },.token k lex.nextChar (toInt32 n))

/-! ## What a token has to be -/

/-- What is still to be read. -/
def Lexer.rest (lex : Lexer) : List UInt8 := lex.input.drop lex.nextChar

/-- The memory behind it that the matcher sees. -/
def Lexer.over (beyond : ℕ → UInt8) (lex : Lexer) : List UInt8 :=
  (List.range lex.nextChar).map fun k => lex.byteAt beyond (lex.input.length + k)

/-- The pattern of an entry matches at the next character. -/
def Lexer.Matches (lex : Lexer) (ent : LexerEntry) (n : ℕ) : Prop := ∃ t, Whole ent.nodes lex.rest 0 n t

/-- A lexeme at the next character: it is inside the input, the first entry with its pattern there
has the token, and no earlier entry matches anything there. -/
structure Lexeme (lex : Lexer) (k : ℕ) (string : ℕ) (len : ℤ) : Prop where
  start : string = lex.nextChar
  inside : 0 ≤ len ∧ string + len ≤ lex.input.length
  entry : ∃ pre ent post, lex.entries = pre ++ ent :: post ∧ ent.token = k ∧ lex.Matches ent len.toNat ∧ ∀ e ∈ pre, ∀ n, ¬lex.Matches e n

/-! ## What goes wrong -/

/-- The call for an attempt at the next character. -/
abbrev attempt : RexCall := startCall 0 { locs := [⟨false,0,0⟩] }

/-- The entry does not match at the next character. -/
def Lexer.Fails (lex : Lexer) (ent : LexerEntry) : Prop := ∃ y, Rex.Fails ent.nodes lex.rest attempt y

/-- An attempt reaches no defect: no node takes the NUL or what is behind it, and no `$` is looked at
there; no alternative of the pattern was forgotten; when the attempt fails, no element was taken in vain;
and less than 2³¹ bytes are matched. -/
structure Sane (beyond : ℕ → UInt8) (lex : Lexer) (ent : LexerEntry) : Prop where
  within : ∀ d, Rex.Reach ent.nodes lex.rest attempt d → ¬Overruns ent.nodes lex.rest (lex.over beyond) d
  linked : Linked ent.nodes
  thorough : lex.Fails ent → Thorough ent.nodes lex.rest attempt
  short : ∀ n, lex.Matches ent n → n < 2 ^ 31

/-- The attempts of a step: those of the entries behind others that fail. -/
def StepSane (beyond : ℕ → UInt8) (lex : Lexer) : Prop :=
  ∀ pre ent post, lex.entries = pre ++ ent :: post → (∀ e ∈ pre, lex.Fails e) → Sane beyond lex ent

/-! ## One token -/

variable {beyond : ℕ → UInt8} {lex lex' : Lexer} {fuel k n s : ℕ}

theorem raw_eq (hle : lex.nextChar ≤ lex.input.length) : lex.raw beyond = lex.rest ++ lex.over beyond := by
  have hsplit : lex.input.length = (lex.input.length - lex.nextChar) + lex.nextChar := by omega
  rw [Lexer.raw,hsplit,List.range_add,List.map_append]
  congr 1
  · apply List.ext_getElem
    · rw [List.length_map,List.length_range,Lexer.rest,List.length_drop]
    · intro i h1 h2
      rw [List.length_map,List.length_range] at h1
      rw [List.getElem_map,List.getElem_range,Lexer.byteAt,if_neg (by omega),List.getD_eq_getElem?_getD,
        List.getElem?_eq_getElem (by omega),Option.getD_some]
      simp only [Lexer.rest, List.getElem_drop]
  · rw [List.map_map,Lexer.over]
    refine List.map_congr_left fun i _ => ?_
    rw [Function.comp_apply,← Nat.add_assoc,Nat.add_sub_cancel' hle]

theorem toInt32_eq (h : n < 2 ^ 31) : toInt32 n = n := by
  have hn : (BitVec.ofNat 32 n).toNat = n := Nat.mod_eq_of_lt (by omega)
  rw [toInt32,BitVec.toInt_eq_toNat_cond,hn,if_pos (by omega)]

section Entry

variable {ent : LexerEntry} (hle : lex.nextChar ≤ lex.input.length) (hs : Sane beyond lex ent)
include hle hs

theorem attempt_eq (f : ℕ) : attempt.run ent.nodes (lex.raw beyond) f = attempt.run ent.nodes lex.rest f := by
  obtain ⟨junk,h⟩ := ent.compiled
  rw [raw_eq hle]
  exact blind_all f attempt ⟨⟨[],startCall_placed (rexInit_compiled h) 0 _⟩,Nat.zero_le _,hs.within⟩

theorem entry_matched {f : ℕ} {y : RexSlots} {m : RexMatchLoc}
    (hr : rexMatch ent.nodes (lex.raw beyond) ent.anchor [⟨false,0,0⟩] f = some (.matched,y))
    (hm : y.locs[0]? = some m) (hstart : m.start = 0) : lex.Matches ent m.len := by
  obtain ⟨junk,h⟩ := ent.compiled
  obtain ⟨r,hrun,hrv,rfl⟩ := rexMatch_first h hs.linked hr hm hstart
  have hrun' : attempt.run ent.nodes lex.rest f = some r := (attempt_eq hle hs f).symm.trans hrun
  obtain ⟨q,t,ht,hslot⟩ := attempt_matched h hs.linked (Nat.zero_le _) (by simp) rfl hrun' hrv
  rw [hm] at hslot
  cases hslot
  exact ⟨t,ht⟩

theorem entry_failed {f : ℕ} {y : RexSlots} (hr : rexMatch ent.nodes (lex.raw beyond) ent.anchor [⟨false,0,0⟩] f = some (.nomatch,y)) :
    lex.Fails ent := by
  obtain ⟨junk,h⟩ := ent.compiled
  obtain ⟨z,f',hf⟩ := rexMatch_failed h hr
  exact ⟨z,f',(attempt_eq hle hs f').symm.trans hf⟩

omit hle in
theorem Sane.fails (hf : lex.Fails ent) (n : ℕ) : ¬lex.Matches ent n := by
  obtain ⟨y,hy⟩ := hf
  rintro ⟨t,ht⟩
  exact start_complete hy (hs.thorough ⟨y,hy⟩) n t ht

end Entry

theorem lexTry_spec (hle : lex.nextChar ≤ lex.input.length) (hs : StepSane beyond lex) {pre es : List LexerEntry}
    (hes : lex.entries = pre ++ es) (hpre : ∀ e ∈ pre, lex.Fails e) (hr : lexTry fuel (lex.raw beyond) es = some (.ok (k,n))) :
    ∃ pre' ent post, lex.entries = pre' ++ ent :: post ∧ (∀ e ∈ pre', lex.Fails e) ∧ ent.token = k ∧ lex.Matches ent n := by
  induction es generalizing pre with
  | nil => cases hr
  | cons ent es ih =>
    have hsane := hs pre ent es hes hpre
    simp only [lexTry, Option.bind_eq_bind, Option.bind_eq_some_iff] at hr
    obtain ⟨⟨rv,y⟩,hrex,hr⟩ := hr
    rcases rv with _ | _ | _
    · simp only [Option.bind_eq_some_iff] at hr
      obtain ⟨m,hm,hr⟩ := hr
      split at hr
      · rename_i hv
        cases hr
        exact ⟨pre,ent,es,hes,hpre,rfl,entry_matched hle hsane hrex hm hv.2⟩
      · cases hr
    · have hes' : lex.entries = (pre ++ [ent]) ++ es := by rw [hes,List.append_assoc]; rfl
      refine ih hes' (fun e he => ?_) hr
      rcases List.mem_append.1 he with he | he
      · exact hpre e he
      · rw [List.mem_singleton.1 he]
        exact entry_failed hle hsane hrex
    · cases hr

theorem lexNextToken_spec (hle : lex.nextChar ≤ lex.input.length) (hs : StepSane beyond lex) {len : ℤ}
    (hr : lexNextToken beyond fuel lex = some (lex',.token k s len)) :
    Lexeme lex k s len ∧ lex' = { lex with nextChar := lex.nextChar + len.toNat } := by
  rw [lexNextToken] at hr
  split at hr
  · cases hr
  rw [Option.bind_eq_bind,Option.bind_eq_some_iff] at hr
  obtain ⟨o,htry,hr⟩ := hr
  rcases o with e | ⟨k',n⟩
  · cases hr
  · cases hr
    obtain ⟨pre,ent,post,hes,hpre,hk,hm⟩ := lexTry_spec hle hs (show lex.entries = [] ++ lex.entries from rfl) (fun e he => nomatch he) htry
    have hn := (hs pre ent post hes hpre).short n hm
    have hin : n ≤ lex.rest.length := by
      obtain ⟨t,ht⟩ := hm
      exact ht.inside (Nat.zero_le _)
    rw [Lexer.rest,List.length_drop] at hin
    rw [toInt32_eq hn]
    refine ⟨⟨rfl,⟨Int.natCast_nonneg n,by omega⟩,pre,ent,post,hes,hk,hm,fun e he => ?_⟩,rfl⟩
    obtain ⟨pre₁,pre₂,hsplit⟩ := List.append_of_mem he
    have hsane := hs pre₁ e (pre₂ ++ ent :: post) (by rw [hes,hsplit,List.append_assoc]; rfl) fun d hd =>
      hpre d (by rw [hsplit]; exact List.mem_append_left _ hd)
    exact hsane.fails (hpre e he)

/-! ## Runs -/

/-- The tokens behind a reset, each from a step whose attempts are sane. -/
inductive SaneRun (beyond : ℕ → UInt8) (lex : Lexer) : List (ℕ × ℕ × ℤ) → Lexer → Prop
  | start : SaneRun beyond lex [] lex
  | step {out : List (ℕ × ℕ × ℤ)} {l l' : Lexer} {fuel k s : ℕ} {len : ℤ} (h : SaneRun beyond lex out l) (hs : StepSane beyond l)
      (hr : lexNextToken beyond fuel l = some (l',.token k s len)) : SaneRun beyond lex (out ++ [(k,s,len)]) l'

/-- The text of a token. -/
def lexemeOf (string : List UInt8) (x : ℕ × ℕ × ℤ) : List UInt8 := (string.drop x.2.1).take x.2.2.toNat

theorem lexNextToken_end (hle : lex.nextChar ≤ lex.input.length) (fuel : ℕ) :
    lexNextToken beyond fuel lex = some (lex,.lexEnd) ↔ lex.rest = [] := by
  rw [Lexer.rest,List.drop_eq_nil_iff,lexNextToken]
  split
  · exact iff_of_true rfl (by omega)
  · refine iff_of_false (fun h => ?_) (by omega)
    rw [Option.bind_eq_bind,Option.bind_eq_some_iff] at h
    obtain ⟨o,-,h⟩ := h
    rcases o with e | ⟨k,n⟩
    · exact nomatch (Prod.mk.inj (Option.some.inj h)).2
    · exact nomatch (Prod.mk.inj (Option.some.inj h)).2

/-- A lexer of one pattern, `a`. -/
def letterLexer : Lexer := ⟨[⟨0,[97],_,_,0,(rfl : rexInit 0 [94,97] = some (.ok _))⟩],[97],0⟩

theorem letterLexer_sane : StepSane (fun _ => 0) letterLexer := by
  rintro pre ent post hes -
  obtain ⟨rfl,hrest⟩ : pre = [] ∧ letterLexer.entries = ent :: post := by
    cases pre with
    | nil => exact ⟨rfl,hes⟩
    | cons e pre => exact absurd (List.cons.inj hes).2 (by simp)
  obtain ⟨rfl,-⟩ := List.cons.inj hrest
  refine ⟨?_,by decide,?_,?_⟩
  · rintro d - ⟨i,n,-,-,⟨-,hb⟩ | ⟨-,-,hm⟩⟩
    · exact hb (congrArg (behind · n d.cur) (List.append_nil _))
    · exact hm rfl
  · rintro ⟨y,hy⟩
    exact absurd (hy.agree (f := 12) rfl) (fun h => nomatch congrArg RexRet.rv h)
  · rintro n ⟨t,ht⟩
    have hin : n ≤ 1 := ht.inside (Nat.zero_le _)
    omega

/-- The lexer of `a` and `[^x]+`. -/
def twoLexer : Option (Lexer × ℤ) :=
  (lexAddEntry 0 (true,true) lexNew [97] 0).bind fun r => lexAddEntry 0 (true,true) r.1 [91,94,120,93,43] 1

end Catlib.Lex
