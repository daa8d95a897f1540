import Catlib.Logic.CLiteral
import Mathlib.Algebra.Group.Nat.Defs

/-! # The literals that pegcc writes

A byte that cannot stand for itself is written as a hexadecimal escape of two digits. The escape
takes every digit that follows, so what the next bytes are decides what it denotes.
-/
namespace Catlib.Peg

open CLit

def isprint (c : UInt8) : Bool := 0x20 ≤ c && c ≤ 0x7e

def isspace (c : UInt8) : Bool := c = 0x20 || (9 ≤ c && c ≤ 13)

def mustEscape (c : UInt8) : Bool := c = quote || c = bslash

/-- The bytes that stand for themselves. -/
def isRaw (c : UInt8) : Bool := isprint c && !isspace c && !mustEscape c

/-- A digit of `%x`. -/
def xdigit (n : ℕ) : UInt8 := if n < 10 then .ofNat (48 + n) else .ofNat (87 + n)

/-- A turn of the loop of `emit_initializer`. -/
def emitByte (c : UInt8) : Text :=
  if isRaw c then [c] else [bslash,'x'.toUInt8,xdigit (c.toNat / 16),xdigit (c.toNat % 16)]

/-- What `emit_initializer` writes for the bytes of a literal or a class: the length and the string
literal. The counter of the loop is an int. -/
def emitInitializer (str : List UInt8) : Option (ℕ × Text) :=
  if str.length < 2 ^ 31 then some (str.length % 2 ^ 32,quote :: (str.flatMap emitByte ++ [quote])) else none

/-! ## The source text -/

variable {trigraphs : Bool} {a b c r : UInt8} {str : List UInt8}

theorem raw_facts : ∀ c, isRaw c = true → IsPlain c := forall_byte (by decide +kernel)

theorem hex_facts : ∀ c, isHex c = true → isRaw c = true ∧ c ≠ question := forall_byte (by decide +kernel)

theorem third_raw : ∀ c, isRaw c = false → third c = none := forall_byte (by decide +kernel)

theorem xdigit_facts : ∀ c : UInt8, isHex (xdigit (c.toNat / 16)) = true ∧ isHex (xdigit (c.toNat % 16)) = true ∧
    numeral 16 [xdigit (c.toNat / 16),xdigit (c.toNat % 16)] = c.toNat := forall_byte (by decide +kernel)

/-- What is between the quotes, with the closing one, as the escape sequences are read. -/
def source (trigraphs : Bool) (str : List UInt8) : Text :=
  if trigraphs then replaceTrigraphs (str.flatMap emitByte ++ [quote]) else str.flatMap emitByte ++ [quote]

/-- The trigraph that the bytes begin with, where trigraphs are replaced. -/
def startsTrigraph (trigraphs : Bool) (str : List UInt8) : Option UInt8 := if trigraphs then trigraphAt str else none

theorem emitByte_raw (h : isRaw c = true) : emitByte c = [c] := by
  rw [emitByte,if_pos h]

theorem emitByte_escaped (h : isRaw c = false) :
    emitByte c = [bslash,'x'.toUInt8,xdigit (c.toNat / 16),xdigit (c.toNat % 16)] := by
  rw [emitByte,h]
  rfl

theorem trigraphAt_one (a : UInt8) (h : b ≠ question) (t : Text) : trigraphAt (a :: b :: t) = none := by
  rcases t with _ | ⟨e,t⟩
  · rfl
  · rw [trigraphAt,if_neg fun h' => h h'.2]

theorem raw_question : isRaw question = true := by decide

theorem emitByte_cons (c : UInt8) : ∃ t, emitByte c = (if isRaw c then c else bslash) :: t := by
  rw [emitByte]
  split
  · exact ⟨[],rfl⟩
  · exact ⟨_,rfl⟩

theorem trigraphAt_emit (str : List UInt8) : trigraphAt (str.flatMap emitByte ++ [quote]) = trigraphAt str := by
  have hslash : bslash ≠ question := by decide
  rcases str with _ | ⟨a,str⟩
  · rfl
  by_cases ha : a = question
  · subst ha
    rw [List.flatMap_cons,emitByte_raw raw_question]
    rcases str with _ | ⟨b,str⟩
    · rfl
    by_cases hb : b = question
    · subst hb
      rw [List.flatMap_cons,emitByte_raw raw_question]
      rcases str with _ | ⟨c,str⟩
      · rfl
      · obtain ⟨t,ht⟩ := emitByte_cons c
        rw [List.flatMap_cons,ht]
        show third (if isRaw c then c else bslash) = third c
        cases hc : isRaw c with
        | true => rfl
        | false =>
          rw [third_raw c hc]
          rfl
    · obtain ⟨t,ht⟩ := emitByte_cons b
      have hb' : (if isRaw b then b else bslash) ≠ question := by
        split
        · exact hb
        · exact hslash
      rw [trigraphAt_one _ hb,List.flatMap_cons,ht]
      exact trigraphAt_one _ hb' _
  · obtain ⟨t,ht⟩ := emitByte_cons a
    have ha' : (if isRaw a then a else bslash) ≠ question := by
      split
      · exact ha
      · exact hslash
    rw [trigraphAt_ne ha,List.flatMap_cons,ht]
    exact trigraphAt_ne ha' _

theorem source_nil (trigraphs : Bool) : source trigraphs [] = [quote] := by
  cases trigraphs
  · rfl
  · exact (replaceTrigraphs_ne (show quote ≠ question by decide) []).trans (by rw [replaceTrigraphs_nil])

theorem source_raw (hr : isRaw c = true) (ht : startsTrigraph trigraphs (c :: str) = none) :
    source trigraphs (c :: str) = c :: source trigraphs str := by
  cases trigraphs with
  | false => rw [source,source,if_neg Bool.false_ne_true,if_neg Bool.false_ne_true,List.flatMap_cons,emitByte_raw hr]; rfl
  | true =>
    have he := trigraphAt_emit (c :: str)
    rw [show trigraphAt (c :: str) = none from ht,List.flatMap_cons,emitByte_raw hr] at he
    rw [source,source,if_pos rfl,if_pos rfl,List.flatMap_cons,emitByte_raw hr]
    exact replaceTrigraphs_none he

theorem source_escaped (hr : isRaw c = false) (str : List UInt8) : source trigraphs (c :: str) =
    bslash :: 'x'.toUInt8 :: xdigit (c.toNat / 16) :: xdigit (c.toNat % 16) :: source trigraphs str := by
  cases trigraphs with
  | false => rw [source,source,if_neg Bool.false_ne_true,if_neg Bool.false_ne_true,List.flatMap_cons,emitByte_escaped hr]; rfl
  | true =>
    have h1 := (hex_facts _ (xdigit_facts c).1).2
    have h2 := (hex_facts _ (xdigit_facts c).2.1).2
    rw [source,source,if_pos rfl,if_pos rfl,List.flatMap_cons,emitByte_escaped hr]
    simp only [List.cons_append, List.nil_append]
    rw [replaceTrigraphs_ne (by decide),replaceTrigraphs_ne (by decide),replaceTrigraphs_ne h1,replaceTrigraphs_ne h2]

theorem startsTrigraph_some (h : startsTrigraph trigraphs str = some r) :
    trigraphs = true ∧ ∃ c s, str = question :: question :: c :: s ∧ third c = some r := by
  cases trigraphs with
  | false => cases h
  | true =>
    refine ⟨rfl,?_⟩
    rcases str with _ | ⟨a,_ | ⟨b,_ | ⟨c,s⟩⟩⟩
    · cases h
    · cases h
    · cases h
    · have h' : (if a = question ∧ b = question then third c else none) = some r := h
      split at h'
      · rename_i hq
        exact ⟨c,s,by rw [hq.1,hq.2],h'⟩
      · cases h'

theorem source_trigraph {s : List UInt8} (h : third c = some r) :
    source true (question :: question :: c :: s) = r :: source true s := by
  have hc : isRaw c = true := by
    cases hc : isRaw c with
    | true => rfl
    | false => rw [third_raw c hc] at h; cases h
  have he := trigraphAt_emit (question :: question :: c :: s)
  rw [source,source,if_pos rfl,if_pos rfl]
  rw [show trigraphAt (question :: question :: c :: s) = third c from rfl,h] at he
  simp only [List.flatMap_cons, emitByte_raw raw_question, emitByte_raw hc, List.cons_append, List.nil_append] at he ⊢
  exact replaceTrigraphs_some he

theorem source_digits (trigraphs : Bool) {q : UInt8 → Bool} (hq : ∀ c, q c = true → isHex c = true) (str : List UInt8) :
    (source trigraphs str).takeWhile q = str.takeWhile q ∧
    ∀ k ≤ (str.takeWhile q).length, (source trigraphs str).drop k = source trigraphs (str.drop k) := by
  have hno : ∀ c, isHex c = false → q c = false := by
    intro c h
    cases hc : q c with
    | false => rfl
    | true => rw [hq c hc] at h; cases h
  induction str with
  | nil =>
    rw [source_nil]
    refine ⟨?_,fun k hk => ?_⟩
    · rw [List.takeWhile_cons,hno quote (by decide)]
      rfl
    · obtain rfl : k = 0 := Nat.le_zero.1 hk
      exact (source_nil trigraphs).symm
  | cons c str ih =>
    cases hc : q c with
    | true =>
      obtain ⟨hr,hne⟩ := hex_facts c (hq c hc)
      have hs : startsTrigraph trigraphs (c :: str) = none := by
        cases trigraphs
        · rfl
        · exact trigraphAt_ne hne str
      rw [source_raw hr hs,List.takeWhile_cons_of_pos hc,List.takeWhile_cons_of_pos hc,ih.1]
      refine ⟨rfl,fun k hk => ?_⟩
      cases k with
      | zero =>
        rw [List.drop_zero,List.drop_zero,source_raw hr hs]
      | succ k =>
        rw [List.drop_succ_cons,List.drop_succ_cons]
        exact ih.2 k (Nat.le_of_succ_le_succ hk)
    | false =>
      rw [List.takeWhile_cons_of_neg (by simp [hc])]
      refine ⟨?_,fun k hk => ?_⟩
      · cases hs : startsTrigraph trigraphs (c :: str) with
        | none =>
          cases hr : isRaw c with
          | true => rw [source_raw hr hs,List.takeWhile_cons_of_neg (by simp [hc])]
          | false => rw [source_escaped hr,List.takeWhile_cons_of_neg (by simp [hno bslash (by decide)])]
        | some r =>
          obtain ⟨rfl,e,s,hstr,he⟩ := startsTrigraph_some hs
          rw [hstr,source_trigraph he,List.takeWhile_cons_of_neg (by simp [hno r (third_facts e r he).2.2.2.1])]
      · obtain rfl : k = 0 := Nat.le_zero.1 hk
        rw [List.drop_zero,List.drop_zero]

/-! ## What it denotes -/

theorem body_good (hs : startsTrigraph trigraphs (c :: str) = none)
    (hd : isRaw c = true ∨ str.takeWhile isHex = []) :
    body (source trigraphs (c :: str)) = (body (source trigraphs str)).map (c :: ·) := by
  cases hr : isRaw c with
  | true => rw [source_raw hr hs,body_plain (raw_facts c hr)]
  | false =>
    obtain ⟨h1,h2,hval⟩ := xdigit_facts c
    have hrun : (source trigraphs str).takeWhile isHex = [] := by
      rw [(source_digits trigraphs (fun _ h => h) str).1]
      exact hd.resolve_left (by rw [hr]; decide)
    have htake : (xdigit (c.toNat / 16) :: xdigit (c.toNat % 16) :: source trigraphs str).takeWhile isHex =
        [xdigit (c.toNat / 16),xdigit (c.toNat % 16)] := by
      rw [List.takeWhile_cons_of_pos h1,List.takeWhile_cons_of_pos h2,hrun]
    rw [source_escaped hr,body_escape,escape_hex,htake,hval,if_pos ⟨List.cons_ne_nil _ _,c.toNat_lt⟩,UInt8.ofNat_toNat]
    rfl

/-- What a text denotes that is not what was written: something for some of the bytes, and
then the rest of them. -/
def Reads (t : Text) (trigraphs : Bool) (P : List UInt8 → List UInt8 → Prop) : Prop :=
  body t = none ∨ ∃ us rest, us ≠ [] ∧ body t = (body (source trigraphs rest)).map (us ++ ·) ∧ P us rest

theorem Reads.imp {t : Text} {P Q : List UInt8 → List UInt8 → Prop} (h : Reads t trigraphs P) (hPQ : ∀ us rest, P us rest → Q us rest) :
    Reads t trigraphs Q :=
  h.imp_right fun ⟨us,rest,hne,hb,hp⟩ => ⟨us,rest,hne,hb,hPQ us rest hp⟩

theorem reads_escape {t : Text} {e : Option (UInt8 × ℕ)} (he : escape t = e) {P : List UInt8 → List UInt8 → Prop}
    (hdrop : ∀ v k, e = some (v,k) → ∃ rest, t.drop k = source trigraphs rest ∧ P [v] rest) : Reads (bslash :: t) trigraphs P := by
  rw [Reads,body_escape,he]
  cases e with
  | none => exact Or.inl rfl
  | some x =>
    obtain ⟨rest,hrest,hp⟩ := hdrop x.1 x.2 rfl
    refine Or.inr ⟨[x.1],rest,List.cons_ne_nil _ _,?_,hp⟩
    rw [Option.bind_some,hrest]
    rfl

theorem body_merged (hr : isRaw c = false) (hd : str.takeWhile isHex ≠ []) :
    Reads (source trigraphs (c :: str)) trigraphs fun us rest => rest.length + us.length ≤ str.length := by
  obtain ⟨h1,h2,-⟩ := xdigit_facts c
  obtain ⟨hrun,hdrop⟩ := source_digits trigraphs (fun _ h => h) str
  have hpos := List.length_pos_iff.2 hd
  have hle := (List.takeWhile_prefix isHex (l := str)).length_le
  have htake : (xdigit (c.toNat / 16) :: xdigit (c.toNat % 16) :: source trigraphs str).takeWhile isHex =
      xdigit (c.toNat / 16) :: xdigit (c.toNat % 16) :: str.takeWhile isHex := by
    rw [List.takeWhile_cons_of_pos h1,List.takeWhile_cons_of_pos h2,hrun]
  rw [source_escaped hr]
  refine reads_escape (escape_hex _) fun v k hv => ⟨str.drop (str.takeWhile isHex).length,?_,?_⟩
  · rw [htake] at hv
    split at hv
    · cases hv
      exact hdrop _ le_rfl
    · cases hv
  · rw [List.length_drop,List.length_singleton]
    omega

theorem body_spliced (str : List UInt8) : Reads (bslash :: source true str) true
    fun us rest => rest.length + us.length ≤ str.length + 3 ∧ (rest.length + us.length < str.length + 3 ∨ us.head? = some bslash) := by
  have hback : ∀ t, escape (bslash :: t) = some (bslash,1) := fun t => escape_simple (by decide) (by decide) t
  rcases str with _ | ⟨c,str⟩
  · left
    rw [source_nil,body_escape,escape_simple (by decide) (by decide)]
    show (body []).map _ = none
    rw [body]
    rfl
  cases hs : startsTrigraph true (c :: str) with
  | some r =>
    obtain ⟨-,e,s,hstr,he⟩ := startsTrigraph_some hs
    obtain ⟨-,-,-,hhex,hx,hno⟩ := third_facts e r he
    have hoct : isOctal r = false := by
      cases ho : isOctal r with
      | false => rfl
      | true => rw [isHex_of_isOctal r ho] at hhex; cases hhex
    rw [hstr,source_trigraph he]
    refine reads_escape (escape_simple hoct hx _) fun v k hv => ⟨s,?_,?_⟩
    · by_cases hb : r = bslash
      · subst hb
        cases hv
        rfl
      · rw [hno hb] at hv
        cases hv
    · simp only [List.length_cons, List.length_nil]
      omega
  | none =>
    cases hr : isRaw c with
    | false =>
      obtain ⟨h1,h2,-⟩ := xdigit_facts c
      have hplain : ∀ d, isHex d = true → IsPlain d := fun d h => raw_facts d (hex_facts d h).1
      right
      refine ⟨[bslash,'x'.toUInt8,xdigit (c.toNat / 16),xdigit (c.toNat % 16)],str,List.cons_ne_nil _ _,?_,?_⟩
      · rw [source_escaped hr,body_escape,hback,Option.bind_some,List.drop_succ_cons,List.drop_zero,body_plain (by decide),
          body_plain (hplain _ h1),body_plain (hplain _ h2)]
        simp only [Option.map_map]
        rfl
      · simp only [List.length_cons, List.length_nil]
        exact ⟨by omega,Or.inr rfl⟩
    | true =>
      have hcons := source_raw hr hs
      rw [hcons]
      cases ho : isOctal c with
      | true =>
        obtain ⟨hrun,hdrop⟩ := source_digits true isHex_of_isOctal (c :: str)
        have hpos : 1 ≤ (((c :: str).takeWhile isOctal).take 3).length := by
          rw [List.takeWhile_cons_of_pos ho,List.length_take,List.length_cons]
          omega
        refine reads_escape (escape_octal ho _) fun v k hv => ⟨(c :: str).drop (((c :: str).takeWhile isOctal).take 3).length,?_,?_⟩
        · rw [← hcons,hrun] at hv
          split at hv
          · cases hv
            rw [← hcons]
            exact hdrop _ (by rw [List.length_take]; exact min_le_right _ _)
          · cases hv
        · rw [List.length_drop,List.length_singleton,List.length_cons]
          omega
      | false =>
        by_cases hx : c = 'x'.toUInt8
        · subst hx
          obtain ⟨hrun,hdrop⟩ := source_digits true (fun _ h => h) str
          refine reads_escape (escape_hex _) fun v k hv => ⟨str.drop (str.takeWhile isHex).length,?_,?_⟩
          · rw [hrun] at hv
            split at hv
            · cases hv
              exact hdrop _ le_rfl
            · cases hv
          · rw [List.length_drop,List.length_singleton,List.length_cons]
            omega
        · refine reads_escape (escape_simple ho hx _) fun v k hv => ⟨str,?_,?_⟩
          · obtain ⟨u,-,hu⟩ := Option.map_eq_some_iff.1 hv
            cases hu
            rfl
          · rw [List.length_singleton,List.length_cons]
            omega

theorem body_trigraph {c : UInt8} {str : List UInt8} (hs : startsTrigraph trigraphs (c :: str) = some r) :
    Reads (source trigraphs (c :: str)) trigraphs fun us rest =>
      rest.length + us.length ≤ str.length + 1 ∧ (rest.length + us.length < str.length + 1 ∨ us.head? ≠ some c) := by
  obtain ⟨rfl,e,s,hstr,he⟩ := startsTrigraph_some hs
  obtain ⟨rfl,rfl⟩ := List.cons.inj hstr
  obtain ⟨hq,hquote,hline,-,-,-⟩ := third_facts e r he
  rw [source_trigraph he]
  by_cases hb : r = bslash
  · subst hb
    refine (body_spliced s).imp fun us rest h => ?_
    simp only [List.length_cons]
    refine ⟨h.1,h.2.imp_right fun h' => ?_⟩
    rw [h']
    exact fun heq => absurd (Option.some.inj heq) (by decide)
  · refine Or.inr ⟨[r],s,List.cons_ne_nil _ _,body_plain ⟨hquote,hline,hb⟩ _,?_,Or.inr fun heq => hq (Option.some.inj heq)⟩
    simp only [List.length_cons, List.length_nil]
    omega

/-- The first byte is denoted as such, or something else is in its place. -/
def Clear (trigraphs : Bool) (c : UInt8) (str : List UInt8) : Prop :=
  startsTrigraph trigraphs (c :: str) = none ∧ (isRaw c = true ∨ str.takeWhile isHex = [])

theorem body_bad (h : ¬Clear trigraphs c str) :
    Reads (source trigraphs (c :: str)) trigraphs fun us rest =>
      rest.length + us.length ≤ str.length + 1 ∧ (rest.length + us.length < str.length + 1 ∨ us.head? ≠ some c) := by
  cases hs : startsTrigraph trigraphs (c :: str) with
  | some r => exact body_trigraph hs
  | none =>
    cases hr : isRaw c with
    | true => exact absurd ⟨hs,Or.inl hr⟩ h
    | false =>
      refine (body_merged hr fun hd => h ⟨hs,Or.inr hd⟩).imp fun us rest hle => ?_
      omega

theorem body_length {v : List UInt8} (hv : body (source trigraphs str) = some v) : v.length ≤ str.length := by
  induction hn : str.length using Nat.strong_induction_on generalizing str v with
  | _ n ih =>
    subst hn
    rcases str with _ | ⟨c,str⟩
    · rw [source_nil,body,if_pos rfl,if_pos rfl] at hv
      cases hv
      exact le_rfl
    · by_cases hc : Clear trigraphs c str
      · rw [body_good hc.1 hc.2,Option.map_eq_some_iff] at hv
        obtain ⟨u,hu,rfl⟩ := hv
        exact Nat.succ_le_succ (ih _ (Nat.lt_succ_self _) hu rfl)
      · rcases body_bad hc with hnone | ⟨us,rest,hne,hb,hle,-⟩
        · rw [hnone] at hv
          cases hv
        · have hpos := List.length_pos_iff.2 hne
          rw [hb,Option.map_eq_some_iff] at hv
          obtain ⟨u,hu,rfl⟩ := hv
          have hrest := ih _ (by rw [List.length_cons]; omega) hu rfl
          rw [List.length_append,List.length_cons]
          omega

theorem body_source_iff (str : List UInt8) :
    body (source trigraphs str) = some str ↔ ∀ s c t, str = s ++ c :: t → Clear trigraphs c t := by
  induction str with
  | nil =>
    refine iff_of_true ?_ fun s c t h => by simp at h
    rw [source_nil,body,if_pos rfl,if_pos rfl]
  | cons c str ih =>
    by_cases hc : Clear trigraphs c str
    · rw [body_good hc.1 hc.2,Option.map_eq_some_iff]
      constructor
      · rintro ⟨u,hu,hcons⟩ s d t h
        obtain rfl := (List.cons.inj hcons).2
        rcases List.cons_eq_append_iff.1 h with ⟨-,ht⟩ | ⟨s',-,h'⟩
        · obtain ⟨rfl,rfl⟩ := List.cons.inj ht
          exact hc
        · exact ih.1 hu s' d t h'
      · intro h
        exact ⟨str,ih.2 fun s d t hs => h (c :: s) d t (by rw [hs]; rfl),rfl⟩
    · refine iff_of_false (fun hv => ?_) fun h => hc (h [] c str rfl)
      rcases body_bad hc with hnone | ⟨us,rest,hne,hb,-,hlt⟩
      · rw [hnone] at hv
        cases hv
      · rw [hb,Option.map_eq_some_iff] at hv
        obtain ⟨u,hu,hcons⟩ := hv
        have hle := body_length hu
        have hlen := congrArg List.length hcons
        rw [List.length_append,List.length_cons] at hlen
        rcases hlt with hlt | hhead
        · omega
        · obtain ⟨x,us,rfl⟩ := List.exists_cons_of_ne_nil hne
          exact hhead (congrArg some (List.cons.inj hcons).1)

/-! ## The string literal -/

/-- The literal denotes the bytes of the node, and their number is written beside it. -/
def EmitsBytes (trigraphs : Bool) (str : List UInt8) : Prop :=
  ∃ n text, emitInitializer str = some (n,text) ∧ denotes trigraphs text = some str ∧ n = str.length

theorem denotes_emit (trigraphs : Bool) (str : List UInt8) :
    denotes trigraphs (quote :: (str.flatMap emitByte ++ [quote])) = body (source trigraphs str) := by
  cases trigraphs with
  | false => rfl
  | true =>
    rw [denotes,if_pos rfl,replaceTrigraphs_ne (by decide)]
    rfl

/-- No byte that is escaped is followed by one that is a digit. -/
def Unmerged (str : List UInt8) : Prop := ∀ c d, [c,d] <:+: str → isRaw c = false → isHex d = false

/-- There is no trigraph among the bytes. -/
def NoTrigraph (str : List UInt8) : Prop := ∀ c, [question,question,c] <:+: str → third c = none

theorem noTrigraph_iff : NoTrigraph str ↔ ∀ s c t, str = s ++ c :: t → startsTrigraph true (c :: t) = none := by
  constructor
  · intro h s c t hst
    cases ht : startsTrigraph true (c :: t) with
    | none => rfl
    | some r =>
      obtain ⟨-,d,u,hcons,hd⟩ := startsTrigraph_some ht
      have hnone := h d ⟨s,u,by rw [hst,hcons,List.append_assoc]; rfl⟩
      rw [hnone] at hd
      cases hd
  · rintro h c ⟨s,t,rfl⟩
    exact h s question (question :: c :: t) (List.append_assoc ..)

theorem unmerged_iff : Unmerged str ↔ ∀ s c t, str = s ++ c :: t → isRaw c = true ∨ t.takeWhile isHex = [] := by
  constructor
  · intro h s c t hst
    rcases t with _ | ⟨d,t⟩
    · exact Or.inr rfl
    cases hr : isRaw c with
    | true => exact Or.inl rfl
    | false =>
      have hd := h c d ⟨s,t,by rw [hst,List.append_assoc]; rfl⟩ hr
      exact Or.inr (List.takeWhile_cons_of_neg (by simp [hd]))
  · rintro h c d ⟨s,t,rfl⟩ hr
    rcases h s c (d :: t) (List.append_assoc ..) with hraw | hd
    · rw [hr] at hraw
      cases hraw
    · cases hx : isHex d with
      | false => rfl
      | true =>
        rw [List.takeWhile_cons_of_pos hx] at hd
        cases hd

theorem clear_iff : (∀ s c t, str = s ++ c :: t → Clear trigraphs c t) ↔
    Unmerged str ∧ (trigraphs = true → NoTrigraph str) := by
  rw [unmerged_iff,noTrigraph_iff]
  constructor
  · intro h
    refine ⟨fun s c t hst => (h s c t hst).2,fun ht s c t hst => ?_⟩
    subst ht
    exact (h s c t hst).1
  · rintro ⟨hm,ht⟩ s c t hst
    refine ⟨?_,hm s c t hst⟩
    cases trigraphs with
    | false => rfl
    | true => exact ht rfl s c t hst

/-- **The literal denotes the bytes if and only if no escape is followed by a digit, and there is
no trigraph where the compiler replaces them.** The loop counts them with an int. -/
theorem emit_denotes_iff (trigraphs : Bool) (str : List UInt8) :
    EmitsBytes trigraphs str ↔ str.length < 2 ^ 31 ∧ Unmerged str ∧ (trigraphs = true → NoTrigraph str) := by
  rw [← clear_iff,← body_source_iff,← denotes_emit,EmitsBytes,emitInitializer]
  by_cases hlen : str.length < 2 ^ 31
  · rw [if_pos hlen]
    constructor
    · rintro ⟨n,text,he,hd,-⟩
      cases he
      exact ⟨hlen,hd⟩
    · rintro ⟨-,hd⟩
      exact ⟨_,_,rfl,hd,Nat.mod_eq_of_lt (by omega)⟩
  · rw [if_neg hlen]
    constructor
    · rintro ⟨n,text,he,-⟩
      cases he
    · rintro ⟨h,-⟩
      exact absurd h hlen

/-- A newline and an `a` are written as the escape of one byte. -/
theorem emit_merges : emitInitializer [10,'a'.toUInt8] =
      some (2,[quote,bslash,'x'.toUInt8,'0'.toUInt8,'a'.toUInt8,'a'.toUInt8,quote]) ∧
    denotes false [quote,bslash,'x'.toUInt8,'0'.toUInt8,'a'.toUInt8,'a'.toUInt8,quote] = some [0xaa] ∧
    ¬EmitsBytes false [10,'a'.toUInt8] := by
  refine ⟨rfl,?_,fun h => ?_⟩
  · rw [denotes,if_neg Bool.false_ne_true]
    show body (bslash :: 'x'.toUInt8 :: ['0'.toUInt8,'a'.toUInt8,'a'.toUInt8,quote]) = _
    rw [body_escape,escape_hex,if_pos (by decide)]
    show (body [quote]).map _ = _
    rw [body,if_pos rfl,if_pos rfl]
    rfl
  · obtain ⟨n,text,he,hd,-⟩ := h
    cases he
    rw [denotes_emit] at hd
    have hc := (body_source_iff _).1 hd [] 10 ['a'.toUInt8] rfl
    exact absurd hc.2 (by decide)

end Catlib.Peg
