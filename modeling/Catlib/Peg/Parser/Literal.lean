import Catlib.Logic.Items
import Catlib.Peg.Parser.Grammar

/-! # Literals

What a literal denotes by the grammar comment of peg.c, and what `parse_literal` makes of it. The
parser takes every character that decodes to the quote as the end, also an escaped one, and reads
a carriage return with the newline behind it as one character.
-/
namespace Catlib.Peg.Parser

open Traced

/-! ## The grammar -/

/-- The byte behind a backslash that stands for another one, or for itself. -/
def escapeOf (c : UInt8) : Option UInt8 :=
  if c = 110 then some 10
  else if c = 114 then some 13
  else if c = 116 then some 9
  else if c ∈ [39,34,91,93,92] then some c
  else none

/-- `Char` at a text: the byte that it denotes and the number of bytes that it is written with. -/
def charOf (s : List UInt8) : Option (UInt8 × ℕ) :=
  let c := s.headD 0
  if c = 0 then none
  else if c ≠ 92 then some (c,1)
  else
    let d := s.getD 1 0
    match escapeOf d with
    | some b => some (b,2)
    | none =>
      if isDigit0to2 d && isDigit0to7 (s.getD 2 0) && isDigit0to7 (s.getD 3 0) then
        some (UInt8.ofNat (64 * digit d + 8 * digit (s.getD 2 0) + digit (s.getD 3 0)),4)
      else if isDigit0to7 d && isDigit0to7 (s.getD 2 0) then some (UInt8.ofNat (8 * digit d + digit (s.getD 2 0)),3)
      else if isDigit0to7 d then some (UInt8.ofNat (digit d),2)
      else none

/-- A character with the text that it is written with. -/
abbrev Item : Type := List UInt8 × UInt8

def charItem (s : List UInt8) : Option (Item × ℕ) := (charOf s).map fun r => ((s.take r.2,r.1),r.2)

/-- `(!q Char)*` at a text: the characters, and the text behind them. -/
def body (q : UInt8) (s : List UInt8) : List Item × List UInt8 := items charItem q s

/-! ## Characters -/

theorem charOf_le {s : List UInt8} {b : UInt8} {n : ℕ} (h : charOf s = some (b,n)) : 1 ≤ n ∧ n ≤ s.length := by
  have hget : ∀ {k : ℕ}, s.getD k 0 ≠ 0 → k < s.length := fun {k} hk => by
    by_contra hle
    exact hk (by rw [List.getD_eq_getElem?_getD,List.getElem?_eq_none (not_lt.1 hle),Option.getD_none])
  have hne : s.headD 0 ≠ 0 → 0 < s.length := fun hk => List.length_pos_iff.2 fun hs => hk (by rw [hs]; rfl)
  have hoct : ∀ {k : ℕ}, isDigit0to7 (s.getD k 0) = true → k < s.length := fun hk => hget fun h0 => by
    rw [h0] at hk
    cases hk
  simp only [charOf] at h
  split at h
  · cases h
  rename_i h0
  split at h
  · cases h
    exact ⟨le_rfl,hne h0⟩
  split at h
  · rename_i hesc
    cases h
    refine ⟨by omega,hget fun hd => ?_⟩
    rw [hd] at hesc
    cases hesc
  split at h
  · rename_i hd
    cases h
    simp only [Bool.and_eq_true] at hd
    exact ⟨by omega,hoct hd.2⟩
  split at h
  · rename_i hd
    cases h
    simp only [Bool.and_eq_true] at hd
    exact ⟨by omega,hoct hd.2⟩
  split at h
  · rename_i hd
    cases h
    exact ⟨by omega,hoct hd⟩
  · cases h

theorem charItem_eq {s : List UInt8} {b : UInt8} {n : ℕ} (h : charOf s = some (b,n)) : charItem s = some ((s.take n,b),n) := by
  rw [charItem,h]
  rfl

theorem charItem_none {s : List UInt8} : charItem s = none ↔ charOf s = none := Option.map_eq_none_iff

theorem charItem_advances : Advances charItem := by
  intro s a n h
  obtain ⟨⟨b,m⟩,hc,hr⟩ := Option.map_eq_some_iff.1 h
  cases hr
  exact charOf_le hc

theorem body_stop {q : UInt8} {s : List UInt8} (h : s.head? = some q ∨ charOf s = none) : body q s = ([],s) :=
  items_stop charItem_advances (h.imp_right charItem_none.2)

theorem body_char {q : UInt8} {s : List UInt8} {b : UInt8} {n : ℕ} (hq : s.head? ≠ some q) (h : charOf s = some (b,n)) :
    body q s = ((s.take n,b) :: (body q (s.drop n)).1,(body q (s.drop n)).2) :=
  items_step charItem_advances hq (charItem_eq h)

theorem body_induction {q : UInt8} {P : List UInt8 → Prop} (stop : ∀ s, s.head? = some q ∨ charOf s = none → P s)
    (char : ∀ s b n, s.head? ≠ some q → charOf s = some (b,n) → (∀ t, t.length < s.length → P t) → P s) (s : List UInt8) : P s := by
  refine items_induction charItem (fun s h => stop s (h.imp_right charItem_none.1)) (fun s a n hq h ih => ?_) s
  obtain ⟨⟨b,m⟩,hc,hr⟩ := Option.map_eq_some_iff.1 h
  cases hr
  exact char s b _ hq hc ih

theorem charOf_raw {s : List UInt8} (h0 : s.headD 0 ≠ 0) (h : s.headD 0 ≠ 92) : charOf s = some (s.headD 0,1) := by
  simp only [charOf]
  rw [if_neg h0,if_pos h]

theorem charOf_cases {s : List UInt8} {b : UInt8} {n : ℕ} (h : charOf s = some (b,n)) :
    (∃ t, s = 92 :: t ∧ 2 ≤ n) ∨ ∃ t, s = b :: t ∧ n = 1 ∧ b ≠ 92 ∧ b ≠ 0 := by
  have hne : s.headD 0 ≠ 0 → ∃ t, s = s.headD 0 :: t := fun h0 => by
    cases s with
    | nil => exact absurd rfl h0
    | cons c t => exact ⟨t,rfl⟩
  simp only [charOf] at h
  split at h
  · cases h
  rename_i h0
  obtain ⟨t,ht⟩ := hne h0
  split at h
  · rename_i h92
    cases h
    exact Or.inr ⟨t,ht,rfl,h92,h0⟩
  rename_i h92
  rw [not_not.1 h92] at ht
  refine Or.inl ⟨t,ht,?_⟩
  split at h
  · cases h
    exact le_rfl
  split at h
  · cases h
    omega
  split at h
  · cases h
    omega
  split at h
  · cases h
    exact le_rfl
  · cases h

theorem body_rest (q : UInt8) (s : List UInt8) :
    ((body q s).2.head? = some q ∨ charOf (body q s).2 = none) ∧ (body q s).2.length ≤ s.length := by
  obtain ⟨h1,h2⟩ := items_rest charItem_advances q s
  exact ⟨h1.imp_right charItem_none.1,h2.length_le⟩

theorem body_head {q : UInt8} {s : List UInt8} {it : Item} (h : (body q s).1.head? = some it) : ∃ n, it.1 = s.take n := by
  by_cases hs : s.head? = some q ∨ charOf s = none
  · rw [body_stop hs] at h
    cases h
  · rw [not_or] at hs
    obtain ⟨⟨b,n⟩,hc⟩ := Option.ne_none_iff_exists'.1 hs.2
    rw [body_char hs.1 hc] at h
    cases h
    exact ⟨n,rfl⟩

/-! ## What the parser reads -/

/-- Whether a text begins with a carriage return and a newline. -/
def crLf (s : List UInt8) : Bool := s.headD 0 = 13 && s.getD 1 0 = 10

/-- The value of a character as an int. -/
def valueOf (s : List UInt8) (b : UInt8) : ℤ := if s.headD 0 = 92 then b.toNat else charVal b

theorem toByte_charVal (b : UInt8) : toByte (charVal b) = b := by
  suffices h : ∀ n : Fin 256, toByte (charVal (UInt8.ofNat n)) = UInt8.ofNat n by
    simpa using h ⟨b.toNat,b.toNat_lt⟩
  decide +kernel

theorem toByte_toNat (b : UInt8) : toByte b.toNat = b := by
  have hb : ((b.toNat : ℤ) % 256).toNat = b.toNat := by
    have := b.toNat_lt
    omega
  rw [toByte,hb,UInt8.ofNat_toNat]

theorem toByte_valueOf (s : List UInt8) (b : UInt8) : toByte (valueOf s b) = b := by
  rw [valueOf]
  split
  · exact toByte_toNat b
  · exact toByte_charVal b

theorem charVal_low {q : UInt8} (hq : q.toNat < 128) : charVal q = q.toNat := if_pos hq

theorem valueOf_eq {s : List UInt8} {b q : UInt8} (hq : q.toNat < 128) : valueOf s b = charVal q ↔ b = q := by
  constructor
  · intro h
    rw [← toByte_valueOf s b,h,toByte_charVal]
  · rintro rfl
    rw [valueOf,charVal_low hq,ite_self]

theorem special_eq (d : UInt8) : special d = (escapeOf d).map fun b => (b.toNat : ℤ) := by
  suffices h : ∀ n : Fin 256, special (UInt8.ofNat n) = (escapeOf (UInt8.ofNat n)).map fun b => (b.toNat : ℤ) by
    simpa using h ⟨d.toNat,d.toNat_lt⟩
  decide +kernel

theorem octal_digits : ∀ d e f : Fin 8, (d.val <<< 6 ||| e.val <<< 3 ||| f.val) = 64 * d.val + 8 * e.val + f.val ∧
    (d.val <<< 3 ||| e.val) = 8 * d.val + e.val := by decide

theorem toNat_ofNat {n : ℕ} (h : n < 256) : (UInt8.ofNat n).toNat = n := UInt8.toNat_ofNat_of_lt' h

theorem digit_lt {c : UInt8} (h : isDigit0to7 c = true) : digit c < 8 := by
  simp only [isDigit0to7, Bool.and_eq_true, decide_eq_true_eq, UInt8.le_iff_toNat_le] at h
  rw [digit]
  have h55 : (55 : UInt8).toNat = 55 := rfl
  omega

theorem digit_lt' {c : UInt8} (h : isDigit0to2 c = true) : isDigit0to7 c = true ∧ digit c < 3 := by
  simp only [isDigit0to7, isDigit0to2, Bool.and_eq_true, decide_eq_true_eq, UInt8.le_iff_toNat_le] at h ⊢
  rw [digit]
  have h50 : (50 : UInt8).toNat = 50 := rfl
  have h55 : (55 : UInt8).toNat = 55 := rfl
  omega

/-- The number of bytes that the parser takes for a character. -/
def width (s : List UInt8) (n : ℕ) : ℕ := if crLf s then 2 else n

theorem decode_none {s : List UInt8} (h : charOf s = none) (pc : PegCursor) : decode s pc = .no ∨ ∃ e, decode s pc = .fail e := by
  simp only [charOf] at h
  simp only [decode]
  split at h
  · rename_i h0
    exact Or.inl (if_pos h0)
  rename_i h0
  rw [if_neg h0]
  split at h
  · cases h
  rename_i h92
  rw [if_neg h92]
  by_cases hd : s.getD 1 0 = 0
  · exact Or.inr ⟨_,if_pos hd⟩
  rw [if_neg hd,special_eq]
  split at h
  · cases h
  rename_i hesc
  rw [hesc]
  split at h
  · cases h
  split at h
  · cases h
  split at h
  · cases h
  rename_i hoct
  exact Or.inr ⟨_,if_pos (by simpa using hoct)⟩

theorem crLf_raw {s : List UInt8} (h : crLf s = true) : s.headD 0 = 13 ∧ s.getD 1 0 = 10 := by
  simpa only [crLf, Bool.and_eq_true, decide_eq_true_eq] using h

theorem decode_some {s : List UInt8} {b : UInt8} {n : ℕ} (h : charOf s = some (b,n)) (pc : PegCursor) :
    ∃ line, decode s pc = .yes (valueOf s b,⟨pc.pos + width s n,line⟩) := by
  simp only [charOf] at h
  simp only [decode]
  split at h
  · cases h
  rename_i h0
  rw [if_neg h0]
  split at h
  · rename_i h92
    cases h
    rw [if_pos h92]
    have hv : valueOf s (s.headD 0) = charVal (s.headD 0) := if_neg h92
    by_cases heol : isEol (s.headD 0) = true
    · rw [if_pos heol]
      by_cases hcr : s.headD 0 = 13 ∧ s.getD 1 0 = 10
      · have hw : width s 1 = 2 := if_pos (by rw [crLf,hcr.1,hcr.2]; rfl)
        rw [if_pos hcr,hv,hw]
        exact ⟨_,rfl⟩
      · have hw : width s 1 = 1 := if_neg fun h => hcr (crLf_raw h)
        rw [if_neg hcr,hv,hw]
        exact ⟨_,rfl⟩
    · have hw : width s 1 = 1 := if_neg fun h => heol (by rw [(crLf_raw h).1]; rfl)
      rw [if_neg heol,hv,hw]
      exact ⟨_,rfl⟩
  rename_i h92
  rw [not_not] at h92
  have hw : ∀ k, width s k = k := fun k => if_neg fun h => absurd (crLf_raw h).1 (by rw [h92]; decide)
  have hv : ∀ c, valueOf s c = c.toNat := fun c => if_pos h92
  rw [if_neg (not_not.2 h92)]
  by_cases hd : s.getD 1 0 = 0
  · rw [hd] at h
    cases h
  rw [if_neg hd,special_eq]
  split at h
  · rename_i hesc
    cases h
    rw [hesc,hv,hw]
    exact ⟨_,rfl⟩
  rename_i hesc
  rw [hesc]
  dsimp only [Option.map_none]
  split at h
  · rename_i h3
    cases h
    have h3' := h3
    simp only [Bool.and_eq_true] at h3
    obtain ⟨hlow,hsmall⟩ := digit_lt' h3.1.1
    rw [if_neg (by rw [hlow]; decide),if_pos h3',hv,hw]
    have hoct := (octal_digits ⟨_,digit_lt hlow⟩ ⟨_,digit_lt h3.1.2⟩ ⟨_,digit_lt h3.2⟩).1
    have h8 := digit_lt h3.1.2
    have h8' := digit_lt h3.2
    dsimp only at hoct
    rw [hoct,toNat_ofNat (by omega)]
    exact ⟨_,rfl⟩
  rename_i h3
  split at h
  · rename_i h2
    cases h
    simp only [Bool.and_eq_true] at h2
    rw [if_neg (by rw [h2.1]; decide),if_neg h3,if_pos h2.2,hv,hw]
    have hoct := (octal_digits ⟨_,digit_lt h2.1⟩ ⟨_,digit_lt h2.2⟩ ⟨0,by decide⟩).2
    have h8 := digit_lt h2.1
    have h8' := digit_lt h2.2
    dsimp only at hoct
    rw [hoct,toNat_ofNat (by omega)]
    exact ⟨_,rfl⟩
  rename_i h2
  split at h
  · rename_i h1
    cases h
    have h2' : ¬isDigit0to7 (s.getD 2 0) = true := fun h => h2 (by rw [h1,h]; rfl)
    rw [if_neg (by rw [h1]; decide),if_neg h3,if_neg h2',hv,hw]
    have h8 := digit_lt h1
    rw [toNat_ofNat (by omega)]
    exact ⟨_,rfl⟩
  · cases h

/-! ## The text up to the end -/

/-- What `parse_literal` reads behind the quote: the bytes, and the text at which it stops. -/
def scanFrom (q : UInt8) : ℕ → List UInt8 → List UInt8 × List UInt8
  | 0, s => ([],s)
  | f + 1, s =>
    match charOf s with
    | none => ([],s)
    | some (b,n) => if b = q then ([],s) else (b :: (scanFrom q f (s.drop (width s n))).1,(scanFrom q f (s.drop (width s n))).2)

/-- Whether an item is an escape that denotes the quote. -/
def Item.Quoted (q : UInt8) (it : Item) : Prop := it.1.head? = some 92 ∧ it.2 = q

/-- The carriage return and the newline that stand for themselves. -/
def crItem : Item := ([13],13)
def lfItem : Item := ([10],10)

/-- The bytes of the items, without a newline behind a carriage return. -/
def merged : List Item → List UInt8
  | [] => []
  | [a] => [a.2]
  | a :: b :: l => if a = crItem ∧ b = lfItem then 13 :: merged l else a.2 :: merged (b :: l)

theorem merged_le (l : List Item) : (merged l).length ≤ l.length := by
  fun_induction merged l with
  | case1 => exact le_rfl
  | case2 a => exact le_rfl
  | case3 a b l h ih =>
    simp only [List.length_cons]
    omega
  | case4 a b l h ih =>
    simp only [List.length_cons] at ih ⊢
    omega

theorem merged_eq (l : List Item) : merged l = l.map (·.2) ↔ ¬[crItem,lfItem] <:+: l := by
  fun_induction merged l with
  | case1 => simp
  | case2 a =>
    refine iff_of_true rfl fun h => ?_
    have := h.length_le
    simp at this
  | case3 a b l h ih =>
    refine iff_of_false (fun heq => ?_) (not_not.2 ?_)
    · have hlen := congrArg List.length heq
      have := merged_le l
      simp only [List.length_cons, List.length_map] at hlen
      omega
    · rw [h.1,h.2]
      exact (List.prefix_append [crItem,lfItem] l).isInfix
  | case4 a b l h ih =>
    rw [List.map_cons,List.cons_inj_right,ih,not_iff_not,@List.infix_cons_iff _ _ _ (b :: l),or_iff_right]
    rintro ⟨t,ht⟩
    obtain ⟨h1,h2⟩ := List.cons.inj ht
    exact h ⟨h1.symm,(List.cons.inj h2).1.symm⟩

theorem merged_cons {a : Item} {l : List Item} (h : ¬(a = crItem ∧ l.head? = some lfItem)) : merged (a :: l) = a.2 :: merged l := by
  cases l with
  | nil => rfl
  | cons b l => exact if_neg fun hab => h ⟨hab.1,congrArg some hab.2⟩

/-- A quote mark, which is none of the characters that are treated on their own. -/
def IsQuote (q : UInt8) : Prop := q = 34 ∨ q = 39

theorem IsQuote.raw {q : UInt8} (h : IsQuote q) : q ≠ 0 ∧ q ≠ 92 ∧ q ≠ 13 ∧ q ≠ 10 ∧ q.toNat < 128 := by
  rcases h with rfl | rfl <;> decide

theorem charOf_quote {q : UInt8} (hq : IsQuote q) {s : List UInt8} (h : s.head? = some q) : charOf s = some (q,1) := by
  obtain ⟨t,rfl⟩ := List.head?_eq_some_iff.1 h
  exact charOf_raw hq.raw.1 hq.raw.2.1

theorem crLf_cases {s : List UInt8} (h : crLf s = true) : ∃ t, s = 13 :: 10 :: t := by
  obtain ⟨h1,h2⟩ := crLf_raw h
  rcases s with _ | ⟨a,_ | ⟨b,t⟩⟩
  · cases h1
  · cases h2
  · exact ⟨t,by rw [show a = 13 from h1,show b = 10 from h2]⟩

theorem body_crLf {q : UInt8} (hq : IsQuote q) (t : List UInt8) :
    body q (13 :: 10 :: t) = (crItem :: lfItem :: (body q t).1,(body q t).2) := by
  have h13 : (13 :: 10 :: t).head? ≠ some q := fun h => hq.raw.2.2.1 (Option.some.inj h).symm
  have h10 : (10 :: t).head? ≠ some q := fun h => hq.raw.2.2.2.1 (Option.some.inj h).symm
  rw [body_char h13 (b := 13) (n := 1) rfl,show (13 :: 10 :: t).drop 1 = 10 :: t from rfl,body_char h10 (b := 10) (n := 1) rfl]
  rfl

theorem quoted_iff {q : UInt8} {s : List UInt8} {b : UInt8} {n : ℕ} (hq : s.head? ≠ some q) (h : charOf s = some (b,n)) :
    Item.Quoted q (s.take n,b) ↔ b = q := by
  refine ⟨fun hk => hk.2,fun hb => ⟨?_,hb⟩⟩
  obtain ⟨t,rfl,hn⟩ | ⟨t,rfl,-,-,-⟩ := charOf_cases h
  · rw [List.head?_take,if_neg (by omega)]
    rfl
  · rw [hb] at hq
    exact absurd rfl hq

theorem scanFrom_clean {q : UInt8} (hq : IsQuote q) {s : List UInt8} (hs : ∀ it ∈ (body q s).1, ¬Item.Quoted q it) {f : ℕ}
    (hf : s.length ≤ f) : scanFrom q f s = (merged (body q s).1,(body q s).2) := by
  induction s using body_induction (q := q) generalizing f with
  | stop s h =>
    rw [body_stop h]
    cases f with
    | zero => rfl
    | succ f =>
      rw [scanFrom]
      rcases h with h | h
      · rw [charOf_quote hq h]
        exact if_pos rfl
      · rw [h]
        rfl
  | char s b n hhd h ih =>
    have hn := charOf_le h
    obtain ⟨f,rfl⟩ := Nat.exists_eq_succ_of_ne_zero (show f ≠ 0 by omega)
    rw [body_char hhd h] at hs ⊢
    have hb : b ≠ q := fun hb => hs _ List.mem_cons_self ((quoted_iff hhd h).2 hb)
    rw [scanFrom,h]
    dsimp only
    rw [if_neg hb]
    by_cases hcr : crLf s = true
    · obtain ⟨t,rfl⟩ := crLf_cases hcr
      cases h
      rw [width,if_pos hcr]
      have hbody := body_crLf hq t
      rw [body_char hhd (b := 13) (n := 1) rfl] at hbody
      obtain ⟨h1,h2⟩ := Prod.mk.inj hbody
      have hs' : ∀ it ∈ crItem :: lfItem :: (body q t).1, ¬Item.Quoted q it := by
        rw [← h1]
        exact hs
      rw [show List.drop 2 (13 :: 10 :: t) = t from rfl,ih t (by simp only [List.length_cons]; omega) (fun it hit => hs' it
        (List.mem_cons_of_mem _ (List.mem_cons_of_mem _ hit))) (by simp only [List.length_cons] at hf; omega),h2]
      exact congrArg (fun l => (merged l,(body q t).2)) h1.symm
    · rw [width,if_neg hcr,ih (s.drop n) (by rw [List.length_drop]; omega) (fun it hit => hs it (List.mem_cons_of_mem _ hit))
        (by rw [List.length_drop]; omega),merged_cons]
      rintro ⟨h1,h2⟩
      obtain ⟨k,hk⟩ := body_head h2
      obtain ⟨-,rfl⟩ := Prod.mk.inj h1
      obtain ⟨t,rfl,-⟩ | ⟨t,rfl,rfl,-,-⟩ := charOf_cases h
      · have := congrArg List.head? (Prod.mk.inj h1).1
        rw [List.head?_take,if_neg (by omega)] at this
        cases this
      · refine hcr ?_
        cases t with
        | nil => cases k <;> cases hk
        | cons c t =>
          cases k with
          | zero => cases hk
          | succ k =>
            obtain ⟨rfl,-⟩ := List.cons.inj (show [10] = c :: t.take k from hk)
            rfl

theorem scanFrom_quoted {q : UInt8} (hq : IsQuote q) {s : List UInt8} (hs : ∃ it ∈ (body q s).1, Item.Quoted q it) {f : ℕ}
    (hf : s.length ≤ f) : (∃ n, charOf (scanFrom q f s).2 = some (q,n)) ∧ (body q s).2.length + 2 ≤ (scanFrom q f s).2.length := by
  induction s using body_induction (q := q) generalizing f with
  | stop s h =>
    rw [body_stop h] at hs
    obtain ⟨it,hit,-⟩ := hs
    cases hit
  | char s b n hhd h ih =>
    have hn := charOf_le h
    obtain ⟨f,rfl⟩ := Nat.exists_eq_succ_of_ne_zero (show f ≠ 0 by omega)
    rw [body_char hhd h] at hs ⊢
    rw [scanFrom,h]
    dsimp only
    by_cases hb : b = q
    · rw [if_pos hb]
      refine ⟨⟨n,by rw [h,hb]⟩,?_⟩
      have hle := (body_rest q (s.drop n)).2
      rw [List.length_drop] at hle
      obtain ⟨t,rfl,h2⟩ | ⟨t,rfl,-,-,-⟩ := charOf_cases h
      · dsimp only
        omega
      · exact absurd (congrArg some hb) hhd
    rw [if_neg hb]
    obtain ⟨it,hit,hqd⟩ := hs
    rcases List.mem_cons.1 hit with rfl | htl
    · exact absurd ((quoted_iff hhd h).1 hqd) hb
    by_cases hcr : crLf s = true
    · obtain ⟨t,rfl⟩ := crLf_cases hcr
      cases h
      rw [width,if_pos hcr]
      have hbody := body_crLf hq t
      rw [body_char hhd (b := 13) (n := 1) rfl] at hbody
      obtain ⟨h1,h2⟩ := Prod.mk.inj hbody
      rw [h2]
      have hit' : it ∈ lfItem :: (body q t).1 := by
        rw [← (List.cons.inj h1).2]
        exact htl
      rcases List.mem_cons.1 hit' with rfl | hit'
      · exact absurd hqd.1 (by decide)
      · exact ih t (by simp only [List.length_cons]; omega) ⟨it,hit',hqd⟩ (by simp only [List.length_cons] at hf; omega)
    · rw [width,if_neg hcr]
      exact ih (s.drop n) (by rw [List.length_drop]; omega) ⟨it,htl,hqd⟩ (by rw [List.length_drop]; omega)

theorem scanFrom_le (q : UInt8) (f : ℕ) (s : List UInt8) : (scanFrom q f s).2.length ≤ s.length := by
  induction f generalizing s with
  | zero => exact le_rfl
  | succ f ih =>
    rw [scanFrom]
    split
    · exact le_rfl
    · split
      · exact le_rfl
      · refine (ih _).trans ?_
        rw [List.length_drop]
        omega

/-! ## The two loops -/

/-- The text at a cursor. -/
structure At (input : List UInt8) (pc : PegCursor) (s : List UInt8) : Prop where
  le : pc.pos ≤ input.length
  text : input.drop pc.pos = s

section Loops

variable {input s : List UInt8} {pc pc' : PegCursor}

theorem At.length (h : At input pc s) : pc.pos + s.length = input.length := by
  have hle := h.le
  rw [← h.text,List.length_drop]
  omega

theorem At.step (h : At input pc s) {k : ℕ} (hk : k ≤ s.length) (hp : pc'.pos = pc.pos + k) : At input pc' (s.drop k) := by
  have hlen := h.length
  exact ⟨by omega,by rw [hp,← h.text,List.drop_drop]⟩

theorem rest_at (h : At input pc s) : (rest input pc ()).result = .ok (s,()) := by
  rw [rest,if_pos h.le,h.text]
  rfl

theorem parseChar_at (h : At input pc s) : (parseChar input pc ()).result = .ok (decode s pc,()) :=
  bind_ok (rest_at h)

theorem width_le {b : UInt8} {n : ℕ} (h : charOf s = some (b,n)) : 1 ≤ width s n ∧ width s n ≤ s.length := by
  have hn := charOf_le h
  rw [width]
  split
  · rename_i hcr
    obtain ⟨t,rfl⟩ := crLf_cases hcr
    simp
  · exact hn

theorem literalLen_run {q : UInt8} (hq : IsQuote q) {g : ℕ} (h : At input pc s) (hg : s.length ≤ g) {f : ℕ} (hf : s.length < f) (len : ℕ) :
    ((∃ n, charOf (scanFrom q g s).2 = some (q,n)) →
      (literalLen input q f pc len ()).result = .ok (.yes (len + (scanFrom q g s).1.length + 1),())) ∧
    ((∀ n, charOf (scanFrom q g s).2 ≠ some (q,n)) → ∃ e, (literalLen input q f pc len ()).result = .ok (.fail e,())) := by
  induction g generalizing s pc f len with
  | zero =>
    obtain rfl := List.length_eq_zero_iff.1 (Nat.le_zero.1 hg)
    obtain ⟨f,rfl⟩ := Nat.exists_eq_succ_of_ne_zero (show f ≠ 0 by omega)
    refine ⟨fun ⟨n,hn⟩ => (nomatch hn),fun _ => ⟨(.badLiteral,pc),?_⟩⟩
    rw [literalLen,bind_ok (parseChar_at h)]
    rfl
  | succ g ih =>
    obtain ⟨f,rfl⟩ := Nat.exists_eq_succ_of_ne_zero (show f ≠ 0 by omega)
    rw [literalLen,bind_ok (parseChar_at h),scanFrom]
    rcases hc : charOf s with _ | ⟨b,n⟩
    · refine ⟨fun ⟨n,hn⟩ => ?_,fun _ => ?_⟩
      · rw [hc] at hn
        cases hn
      · rcases decode_none hc pc with hd | ⟨e,hd⟩
        · exact ⟨(.badLiteral,pc),by rw [hd]; rfl⟩
        · exact ⟨(e.1,pc),by rw [hd]; rfl⟩
    · obtain ⟨line,hd⟩ := decode_some hc pc
      have hw := width_le hc
      rw [hd]
      dsimp only
      by_cases hb : b = q
      · rw [if_pos hb,if_pos ((valueOf_eq hq.raw.2.2.2.2).2 hb)]
        refine ⟨fun _ => rfl,fun hn => absurd hc ?_⟩
        rw [hb]
        exact hn n
      · rw [if_neg hb,if_neg fun hv => hb ((valueOf_eq hq.raw.2.2.2.2).1 hv)]
        have hlen := h.length
        have hat : At input ⟨pc.pos + width s n,line⟩ (s.drop (width s n)) := h.step hw.2 rfl
        have := ih hat (by rw [List.length_drop]; omega)
          (f := f) (by rw [List.length_drop]; omega) (len + 1)
        rw [show len + 1 + (scanFrom q g (s.drop (width s n))).1.length + 1 =
          len + ((scanFrom q g (s.drop (width s n))).1.length + 1) + 1 by omega] at this
        exact this

theorem literalBytes_run {q : UInt8} {g : ℕ} (h : At input pc s) (hg : s.length ≤ g) :
    ∃ pc', At input pc' (scanFrom q g s).2 ∧
      (literalBytes input (scanFrom q g s).1.length pc ()).result = .ok (((scanFrom q g s).1,pc'),()) := by
  induction g generalizing s pc with
  | zero => exact ⟨pc,h,rfl⟩
  | succ g ih =>
    rw [scanFrom]
    rcases hc : charOf s with _ | ⟨b,n⟩
    · exact ⟨pc,h,rfl⟩
    · dsimp only
      by_cases hb : b = q
      · rw [if_pos hb]
        exact ⟨pc,h,rfl⟩
      · rw [if_neg hb]
        obtain ⟨line,hd⟩ := decode_some hc pc
        have hw := width_le hc
        have hstep : At input ⟨pc.pos + width s n,line⟩ (s.drop (width s n)) := h.step hw.2 rfl
        obtain ⟨pc',hat,hrun⟩ := ih hstep (by rw [List.length_drop]; omega)
        refine ⟨pc',hat,?_⟩
        rw [List.length_cons,literalBytes,bind_ok (parseChar_at h),hd]
        dsimp only
        rw [bind_ok hrun,toByte_valueOf]
        rfl

end Loops

/-! ## parse_literal -/

/-- There is a node, and memory for its string. -/
structure Supplied (E : Env) (type : PegType) (line : ℕ) (st st' : PegParser) (nn : ℕ) : Prop where
  new : (pegNodeNew E type line st).result = .ok (some nn,st')
  string : E.fails st'.tried = false

/-- With memory a call returns 1 with its node, which has a string in `P`, and with the cursor at the text `t`. -/
def Makes (E : Env) (type : PegType) (line : ℕ) (P : List UInt8 → Prop) (t : List UInt8) (m : PegM Found) : Prop :=
  ∀ st st' nn, Supplied E type line st st' nn → ∃ st'' pc id bytes, (m st).result = .ok (.yes (nn,pc),st'') ∧ At E.input pc t ∧
    (st''.peg.nodes[nn]?).map (·.str) = some ⟨.block id bytes,some bytes.length⟩ ∧ P bytes

/-- A call never returns 0 or 1. -/
def Rejects (m : PegM Found) : Prop := ∀ st st' r, (m st).result = .ok (r,st') → r = .fail ()

theorem pegNodeNew_here {E : Env} {type : PegType} {line nn : ℕ} {st st' : PegParser}
    (h : (pegNodeNew E type line st).result = .ok (some nn,st')) : nn < st'.peg.nodes.length := by
  have key : Run (fun _ => True) (fun _ => True) (pegNodeNew E type line) st fun r t => ∀ nn, r = some nn → nn < t.peg.nodes.length := by
    refine Run.bind Run.any fun b t _ => ?_
    split
    · exact Run.pure fun nn h => nomatch h
    refine Run.got ?_
    dsimp only
    split
    · exact Run.fail trivial
    refine Run.bind (P := fun _ u => u.peg = t.peg ∧ t.peg.numNodes < t.peg.nodes.length) ?_ fun pn u hu => ?_
    · refine Run.got ?_
      split
      · rename_i pn hpn
        exact Run.pure ⟨rfl,(List.getElem?_eq_some_iff.1 hpn).1⟩
      · exact Run.fail trivial
    split
    · exact Run.fail trivial
    refine Run.modified (Run.modified (Run.pure fun nn h => ?_))
    cases h
    show _ < (List.set u.peg.nodes _ _).length
    rw [List.length_set,hu.1]
    exact hu.2
  exact (key fun _ _ => trivial).1 _ _ h nn rfl

theorem malloc_ok {E : Env} {st : PegParser} (h : E.fails st.tried = false) :
    (malloc E st).result = .ok (some st.tried,{ st with tried := st.tried + 1, live := st.tried :: st.live }) := by
  rw [malloc]
  show Ran.result ((if E.fails st.tried = true then _ else _ : PegM (Option ℕ)) _) = _
  rw [h]
  rfl

section Literal

variable {E : Env} {pc : PegCursor} {q : UInt8} {s : List UInt8}

theorem At.tail {input t : List UInt8} {c : UInt8} (h : At input pc (c :: t)) : At input (pc.skip 1) t :=
  h.step (k := 1) (by simp) rfl

theorem readLiteral_run (hat : At E.input pc (q :: s)) (hq : IsQuote q) (hf : E.input.length < E.fuel) :
    ((∃ n, charOf (scanFrom q s.length s).2 = some (q,n)) → Makes E .literal pc.line (fun bs => bs = (scanFrom q s.length s).1)
      (scanFrom q s.length s).2.tail (readLiteral E pc)) ∧
    ((∀ n, charOf (scanFrom q s.length s).2 ≠ some (q,n)) → Rejects (readLiteral E pc)) := by
  have hlen := hat.length
  rw [List.length_cons] at hlen
  have hhd : (q :: s).headD 0 = q := rfl
  have hquote : ¬(q ≠ 34 ∧ q ≠ 39) := by
    rcases hq with rfl | rfl <;> simp
  obtain ⟨hyes,hno⟩ := literalLen_run hq hat.tail le_rfl (f := E.fuel) (by omega) 0
  obtain ⟨pc',hat',hbytes⟩ := literalBytes_run (q := q) hat.tail le_rfl
  constructor
  · rintro ⟨n,hn⟩ st st' nn ⟨hnew,hstring⟩
    have hmalloc := malloc_ok hstring
    obtain ⟨pn,hpn⟩ : ∃ pn, st'.peg.nodes[nn]? = some pn := ⟨_,List.getElem?_eq_getElem (pegNodeNew_here hnew)⟩
    have hupd := fun f => updNode_ok (s := { st' with tried := st'.tried + 1, live := st'.tried :: st'.live }) hpn f
    refine ⟨{ st' with tried := st'.tried + 1, live := st'.tried :: st'.live }.withNode nn
      { pn with str := ⟨.block st'.tried (scanFrom q s.length s).1,some (scanFrom q s.length s).1.length⟩ },
      pc'.skip 1,st'.tried,(scanFrom q s.length s).1,?_,?_,?_,rfl⟩
    · rw [readLiteral,bind_ok (lift_ok (rest_at hat))]
      rw [hhd,if_neg hquote,bind_ok (lift_ok (hyes ⟨n,hn⟩))]
      dsimp only
      rw [bind_ok hnew]
      dsimp only
      rw [bind_ok hmalloc]
      dsimp only
      rw [Nat.zero_add,Nat.add_sub_cancel,bind_ok (lift_ok hbytes),bind_ok (congrArg Ran.result (hupd _))]
      rfl
    · rw [← List.drop_one]
      exact hat'.step ((charOf_le hn).1.trans (charOf_le hn).2) rfl
    · show (List.set st'.peg.nodes nn _)[nn]?.map _ = _
      rw [List.getElem?_set_self (pegNodeNew_here hnew)]
      rfl
  · intro hn st st' r hr
    obtain ⟨e,he⟩ := hno hn
    rw [readLiteral,bind_ok (lift_ok (rest_at hat))] at hr
    rw [hhd,if_neg hquote,bind_ok (lift_ok he)] at hr
    cases hr
    rfl

/-- What the claim of the grammar comment asks of a literal whose quote is in front of `s`: the bytes that it
denotes and the text behind the closing quote, or no literal where there is no closing quote. -/
def LiteralRight (input : List UInt8) (pc : PegCursor) (q : UInt8) (s : List UInt8) : Prop :=
  ∀ E : Env, E.input = input → input.length < E.fuel →
    ((body q s).2.head? = some q →
      Makes E .literal pc.line (fun bs => bs = (body q s).1.map (·.2)) (body q s).2.tail (readLiteral E pc)) ∧
    ((body q s).2.head? ≠ some q → Rejects (readLiteral E pc))

/-- No character of the literal is an escape that denotes the quote, and where it is closed no newline stands
behind a carriage return. -/
def LiteralFine (q : UInt8) (s : List UInt8) : Prop :=
  (∀ it ∈ (body q s).1, ¬Item.Quoted q it) ∧ ((body q s).2.head? = some q → ¬[crItem,lfItem] <:+: (body q s).1)

theorem supplied_start (input : List UInt8) (type : PegType) (line : ℕ) :
    ∃ st', Supplied ⟨input,false,fun _ => false,fun _ => -1,input.length + 1⟩ type line pegStart st' 0 := ⟨_,rfl,rfl⟩

theorem Makes.agree {m : PegM Found} {type : PegType} {line nn : ℕ} {P P' : List UInt8 → Prop} {t t' : List UInt8} {st st' : PegParser}
    (h : Makes E type line P t m) (h' : Makes E type line P' t' m) (hs : Supplied E type line st st' nn) : t = t' ∧ ∃ bs, P bs ∧ P' bs := by
  obtain ⟨u,pc,id,bs,hr,hat,hstr,hP⟩ := h st st' nn hs
  obtain ⟨u',pc',id',bs',hr',hat',hstr',hP'⟩ := h' st st' nn hs
  rw [hr] at hr'
  cases hr'
  rw [hstr] at hstr'
  cases hstr'
  exact ⟨hat.text.symm.trans hat'.text,bs,hP,hP'⟩

theorem literal_right_iff {input : List UInt8} (hat : At input pc (q :: s)) (hq : IsQuote q) :
    LiteralRight input pc q s ↔ LiteralFine q s := by
  have hrest := (body_rest q s).1
  constructor
  · intro h
    obtain ⟨hclosed,hopen⟩ := h ⟨input,false,fun _ => false,fun _ => -1,input.length + 1⟩ rfl (Nat.lt_succ_self _)
    obtain ⟨st',hst'⟩ := supplied_start input .literal pc.line
    have hrun := readLiteral_run (E := ⟨input,false,fun _ => false,fun _ => -1,input.length + 1⟩) hat hq (Nat.lt_succ_self _)
    have hclean : ∀ it ∈ (body q s).1, ¬Item.Quoted q it := by
      by_contra hno
      push Not at hno
      obtain ⟨hacc,hlen⟩ := scanFrom_quoted hq hno le_rfl
      have hmake := hrun.1 hacc
      by_cases hend : (body q s).2.head? = some q
      · have htail := congrArg List.length ((hclosed hend).agree hmake hst').1
        rw [List.length_tail,List.length_tail] at htail
        omega
      · obtain ⟨u,pc',id,bs,hr,-⟩ := hmake _ _ _ hst'
        cases hopen hend _ _ _ hr
    refine ⟨hclean,fun hend hcr => ?_⟩
    have hscan := scanFrom_clean hq hclean le_rfl
    rw [hscan] at hrun
    obtain ⟨-,bs,hbs,hbs'⟩ := (hclosed hend).agree (hrun.1 ⟨1,charOf_quote hq hend⟩) hst'
    exact (merged_eq _).1 (hbs'.symm.trans hbs) hcr
  · rintro ⟨hclean,hcr⟩ E rfl hfuel
    have hrun := readLiteral_run hat hq hfuel
    rw [scanFrom_clean hq hclean le_rfl] at hrun
    refine ⟨fun hend => ?_,fun hend => hrun.2 fun n hn => ?_⟩
    · rw [← (merged_eq _).2 (hcr hend)]
      exact hrun.1 ⟨1,charOf_quote hq hend⟩
    · rcases hrest with h | h
      · exact hend h
      · rw [h] at hn
        cases hn

end Literal

end Catlib.Peg.Parser
