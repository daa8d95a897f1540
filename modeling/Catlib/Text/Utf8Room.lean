import Catlib.Logic.Pieces
import Catlib.Text.Utf16

/-! # UTF-8 into a short buffer

Behind a character for which there is no room the conversions to UTF-8 go on, and write each later
one that still fits.
-/
namespace Catlib.Text

variable {vs cps : List ℕ} {v w tlen dlen : ℕ} {m m' : List UInt8}

/-- A conversion into `dlen` bytes writes a front of what it writes into enough of them, up to the end of
a character, and returns the number of all the bytes in both cases, or -1 where it is refused. -/
def Truncates (refused : Prop) (conv : ℕ → Option (List UInt8 × ℤ)) (dlen : ℕ) : Prop :=
  ∃ (chars : List (List UInt8)) (r : ℤ), (∀ m ∈ chars, ∃ v, Enc v m) ∧
    (∀ n ≥ chars.flatten.length, conv n = some (chars.flatten,r)) ∧
    (∃ j, conv dlen = some ((chars.take j).flatten,r)) ∧ (refused → r = -1) ∧ (¬refused → r = chars.flatten.length)

def utf8Char (v : ℕ) : List UInt8 := utf8Encode v (utf8EncLen v).toNat

/-- The values that a conversion comes to: those before the first with the high bit, and up to the one with
which the bytes are too many. -/
def seen (tlen : ℕ) : List ℕ → List ℕ
  | [] => []
  | v :: vs =>
    if utf8EncLen v < 0 then []
    else if intMax - tlen < (utf8EncLen v).toNat then [v] else v :: seen (tlen + (utf8EncLen v).toNat) vs

/-- `utf16_to_utf8` refuses code points only for their number or that of their bytes. -/
def Refused16 (cps : List ℕ) : Prop := intMax ≤ (cps.flatMap utf16).length ∨ intMax < encTotal (cps.map taken)

/-! ## Characters -/

theorem encLen_nonneg_iff : 0 ≤ utf8EncLen v ↔ ¬HighBit v := by
  constructor
  · intro h hb
    rw [encLen_neg hb] at h
    exact absurd h (by decide)
  · intro h
    obtain ⟨m,-,hl,-⟩ := low_enc h
    rw [hl]
    exact Int.natCast_nonneg _

theorem utf8Char_enc (h : ¬HighBit v) : Enc (v % 2 ^ 32) (utf8Char v) ∧ utf8EncLen v = (utf8Char v).length ∧
    utf8Encode v (utf8Char v).length = utf8Char v := by
  obtain ⟨m,henc,hl,hm⟩ := low_enc h
  have hchar : utf8Char v = m := by rw [utf8Char,hl,Int.toNat_natCast,hm]
  rw [hchar]
  exact ⟨henc,hl,hm⟩

theorem Enc.eq_of_prefix (h : Enc v m) (h' : Enc w m') (hpre : m <+: m') : m = m' := by
  obtain ⟨a,s,rfl,hlen,-⟩ := h.nbytes
  obtain ⟨b,t,rfl,hlen',-⟩ := h'.nbytes
  obtain ⟨hab,-⟩ := List.cons_prefix_cons.mp hpre
  subst hab
  rw [hlen] at hlen'
  exact hpre.eq_of_length (Int.natCast_inj.mp hlen')

theorem seen_low (tlen : ℕ) (vs : List ℕ) : ∀ v ∈ seen tlen vs, ¬HighBit v := by
  induction vs generalizing tlen with
  | nil => exact nofun
  | cons v vs ih =>
    rw [seen]
    split
    · exact nofun
    · rename_i hv
      have hlow := encLen_nonneg_iff.mp (Int.not_lt.mp hv)
      split
      · simpa using hlow
      · exact List.forall_mem_cons.mpr ⟨hlow,ih _⟩

theorem seen_enc (tlen : ℕ) (vs : List ℕ) : ∀ m ∈ (seen tlen vs).map utf8Char, ∃ v, Enc v m := by
  intro m hm
  obtain ⟨v,hv,rfl⟩ := List.mem_map.mp hm
  exact ⟨_,(utf8Char_enc (seen_low _ _ v hv)).1⟩

theorem Distinct.of_enc {chars : List (List UInt8)} (h : ∀ m ∈ chars, ∃ v, Enc v m) : Distinct chars := by
  refine ⟨fun m hm hnil => ?_,fun m hm m' hm' hpre => ?_⟩
  · obtain ⟨v,henc⟩ := h m hm
    have hpos := henc.length_pos
    rw [hnil] at hpos
    exact absurd hpos (by decide)
  · obtain ⟨v,henc⟩ := h m hm
    obtain ⟨w,henc'⟩ := h m' hm'
    exact henc.eq_of_prefix henc' hpre

/-! ## Values -/

theorem utf32ToUtf8From_packed (dlen tlen : ℕ) (vs : List ℕ) :
    (utf32ToUtf8From (some dlen) tlen vs).1 = packed dlen ((seen tlen vs).map utf8Char) := by
  induction vs generalizing dlen tlen with
  | nil => rfl
  | cons v vs ih =>
    by_cases hv : HighBit v
    · simp only [utf32ToUtf8From, seen, encLen_neg hv]
      rfl
    obtain ⟨-,hl,henc⟩ := utf8Char_enc hv
    have hput : utf8Put (some dlen) v (utf8Char v).length =
        if (utf8Char v).length ≤ dlen then (utf8Char v,some (dlen - (utf8Char v).length)) else ([],some dlen) := by
      rw [utf8Put,henc]
    rw [utf32ToUtf8From,seen]
    simp only [hl, Int.toNat_natCast, if_neg (show ¬((utf8Char v).length : ℤ) < 0 by omega), hput]
    by_cases hmax : intMax - tlen < (utf8Char v).length
    · simp only [if_pos hmax, List.map_cons, List.map_nil, packed, List.append_nil]
      split <;> rfl
    · simp only [if_neg hmax, List.map_cons, packed]
      by_cases hroom : (utf8Char v).length ≤ dlen
      · simp only [if_pos hroom, ih]
      · simp only [if_neg hroom, ih, List.nil_append]

theorem utf32ToUtf8_packed (hlen : vs.length < intMax) : ∃ r : ℤ,
    (∀ n, utf32ToUtf8 (some n) vs = (packed n ((seen 0 vs).map utf8Char),r)) ∧ (Refused vs → r = -1) ∧
    (¬Refused vs → r = ((seen 0 vs).map utf8Char).flatten.length) := by
  have hfst : ∀ n, (utf32ToUtf8 (some n) vs).1 = packed n ((seen 0 vs).map utf8Char) := by
    intro n
    rw [utf32ToUtf8,if_neg (not_le.mpr hlen)]
    exact utf32ToUtf8From_packed n 0 vs
  refine ⟨(utf32ToUtf8 (some 0) vs).2,fun n => Prod.ext (hfst n) (utf32ToUtf8_snd _ _ vs),fun h => utf32ToUtf8_fails h _,fun h => ?_⟩
  obtain ⟨str,hstr,-⟩ := utf32ToUtf8_low h
  have hbig := hstr (max str.length ((seen 0 vs).map utf8Char).flatten.length) (le_max_left _ _)
  have hall := (hfst _).symm.trans (congrArg Prod.fst hbig)
  rw [packed_all (le_max_right _ _)] at hall
  rw [utf32ToUtf8_snd _ (some (max str.length ((seen 0 vs).map utf8Char).flatten.length)) vs,hbig,hall]

theorem truncates_iff {refused : Prop} {conv : ℕ → Option (List UInt8 × ℤ)} {chars : List (List UInt8)} {r : ℤ}
    (henc : ∀ m ∈ chars, ∃ v, Enc v m) (hconv : ∀ n, conv n = some (packed n chars,r)) (hr : refused → r = -1)
    (hr' : ¬refused → r = chars.flatten.length) : Truncates refused conv dlen ↔ Settles dlen chars := by
  rw [← packed_front_iff (Distinct.of_enc henc)]
  constructor
  · rintro ⟨chars',r',henc',hall,⟨j,hj⟩,-,-⟩
    have hsame := hall (max chars'.flatten.length chars.flatten.length) (le_max_left _ _)
    rw [hconv,packed_all (le_max_right _ _),Option.some_inj,Prod.mk.injEq] at hsame
    rw [hconv,Option.some_inj,Prod.mk.injEq] at hj
    have hboth : ∀ m ∈ chars ++ chars', ∃ v, Enc v m := List.forall_mem_append.mpr ⟨henc,henc'⟩
    obtain rfl := (Distinct.of_enc hboth).flatten_injective hsame.1
    exact ⟨j,hj.1⟩
  · rintro ⟨j,hj⟩
    refine ⟨chars,r,henc,fun n hn => ?_,⟨j,?_⟩,hr,hr'⟩
    · rw [hconv,packed_all hn]
    · rw [hconv,hj]

/-! ## Code points -/

theorem utf16ToUtf8From_eq (hcps : ∀ c ∈ cps, CodePoint c) (hsmall : ∀ v ∈ seen tlen (cps.map taken), v < 2 ^ 16) (d : Option ℕ) :
    utf16ToUtf8From (cps.flatMap utf16) d tlen = some (utf32ToUtf8From d tlen (cps.map taken)) := by
  induction cps generalizing d tlen with
  | nil => rfl
  | cons c cps ih =>
    obtain ⟨hc,hcps⟩ := List.forall_mem_cons.mp hcps
    obtain ⟨hone,hthree,-⟩ := utf8EncLen_le (taken_lt hc)
    rw [List.map_cons,seen,if_neg (by omega)] at hsmall
    rw [List.flatMap_cons,utf16ToUtf8From_cons hc,List.map_cons,utf16Char,utf32ToUtf8From]
    dsimp only
    have hlt : taken c < 2 ^ 16 := by
      split at hsmall
      · exact hsmall _ (List.mem_singleton_self _)
      · exact hsmall _ List.mem_cons_self
    have hpos : ¬utf8EncLen (taken c) < 0 := by omega
    rw [if_neg hpos,if_neg (not_not.mpr ⟨hone,hthree.mpr hlt⟩),if_neg hpos]
    by_cases hmax : intMax - tlen < (utf8EncLen (taken c)).toNat
    · rw [if_pos hmax,if_pos hmax]
    · rw [if_neg hmax] at hsmall
      rw [if_neg hmax,if_neg hmax,ih hcps (fun v hv => hsmall v (List.mem_cons_of_mem _ hv))]
      rfl

theorem utf16ToUtf8From_aborts (hcps : ∀ c ∈ cps, CodePoint c) (hbig : ∃ v ∈ seen tlen (cps.map taken), 2 ^ 16 ≤ v) (d : Option ℕ) :
    utf16ToUtf8From (cps.flatMap utf16) d tlen = none := by
  induction cps generalizing d tlen with
  | nil =>
    obtain ⟨v,hv,-⟩ := hbig
    cases hv
  | cons c cps ih =>
    obtain ⟨hc,hcps⟩ := List.forall_mem_cons.mp hcps
    obtain ⟨hone,hthree,-⟩ := utf8EncLen_le (taken_lt hc)
    rw [List.flatMap_cons,utf16ToUtf8From_cons hc,utf16Char]
    dsimp only
    rw [if_neg (by omega)]
    by_cases hlt : taken c < 2 ^ 16
    · rw [if_neg (not_not.mpr ⟨hone,hthree.mpr hlt⟩)]
      obtain ⟨v,hv,hge⟩ := hbig
      rw [List.map_cons,seen,if_neg (by omega)] at hv
      split at hv
      · rw [List.mem_singleton.mp hv] at hge
        exact absurd hlt (not_lt.mpr hge)
      · rename_i hmax
        rcases List.mem_cons.mp hv with rfl | hv
        · exact absurd hlt (not_lt.mpr hge)
        · rw [if_neg hmax,ih hcps ⟨v,hv,hge⟩]
          rfl
    · rw [if_pos fun h => hlt (hthree.mp h.2)]

theorem refused_taken (hcps : ∀ c ∈ cps, CodePoint c) (hlen : (cps.flatMap utf16).length < intMax) :
    Refused (cps.map taken) ↔ Refused16 cps := by
  have hlt : cps.length < intMax := (length_flatMap_utf16 cps).1.trans_lt hlen
  rw [Refused,Refused16,List.length_map,or_iff_right (not_le.mpr hlt),or_iff_right (not_le.mpr hlen),or_iff_right]
  rintro ⟨v,hv,hb⟩
  obtain ⟨c,hc,rfl⟩ := List.mem_map.mp hv
  have hone := (utf8EncLen_le (taken_lt (hcps c hc))).1
  exact encLen_nonneg_iff.mp (by omega) hb

theorem utf32ToUtf8_truncates (vs : List ℕ) (dlen : ℕ) : Truncates (Refused vs) (fun n => some (utf32ToUtf8 (some n) vs)) dlen ↔
    intMax ≤ vs.length ∨ Settles dlen ((seen 0 vs).map utf8Char) := by
  by_cases hlen : intMax ≤ vs.length
  · refine iff_of_true ⟨[],-1,nofun,fun n _ => ?_,⟨0,?_⟩,fun _ => rfl,fun h => absurd (Or.inl hlen) h⟩ (Or.inl hlen)
    all_goals dsimp only; rw [utf32ToUtf8,if_pos hlen]; rfl
  · rw [or_iff_right hlen]
    obtain ⟨r,hall,hr,hr'⟩ := utf32ToUtf8_packed (not_le.mp hlen)
    exact truncates_iff (seen_enc 0 vs) (fun n => congrArg some (hall n)) hr hr'

theorem utf16ToUtf8_truncates (hcps : ∀ c ∈ cps, CodePoint c) (dlen : ℕ) :
    Truncates (Refused16 cps) (fun n => utf16ToUtf8 (some n) (cps.flatMap utf16)) dlen ↔
      intMax ≤ (cps.flatMap utf16).length ∨
        (∀ v ∈ seen 0 (cps.map taken), v < 2 ^ 16) ∧ Settles dlen ((seen 0 (cps.map taken)).map utf8Char) := by
  by_cases hlen : intMax ≤ (cps.flatMap utf16).length
  · refine iff_of_true ⟨[],-1,nofun,fun n _ => ?_,⟨0,?_⟩,fun _ => rfl,fun h => absurd (Or.inl hlen) h⟩ (Or.inl hlen)
    all_goals dsimp only; rw [utf16ToUtf8,if_pos hlen]; rfl
  rw [or_iff_right hlen]
  have hvs : (cps.map taken).length < intMax := by
    rw [List.length_map]
    exact (length_flatMap_utf16 cps).1.trans_lt (not_le.mp hlen)
  by_cases hsmall : ∀ v ∈ seen 0 (cps.map taken), v < 2 ^ 16
  · rw [and_iff_right hsmall]
    obtain ⟨r,hall,hr,hr'⟩ := utf32ToUtf8_packed hvs
    rw [refused_taken hcps (not_le.mp hlen)] at hr hr'
    refine truncates_iff (seen_enc 0 _) (fun n => ?_) hr hr'
    rw [utf16ToUtf8,if_neg hlen,utf16ToUtf8From_eq hcps hsmall,← hall n,utf32ToUtf8,if_neg (not_le.mpr hvs)]
  · refine iff_of_false ?_ fun h => hsmall h.1
    rintro ⟨chars,r,-,hall,-⟩
    push Not at hsmall
    have hn := hall _ le_rfl
    dsimp only at hn
    rw [utf16ToUtf8,if_neg hlen,utf16ToUtf8From_aborts hcps hsmall] at hn
    cases hn

/-- Both conversions truncate exactly where no character fits into the room left by the first that does not; and no
code point that `utf16_to_utf8` comes to is taken for a value of four bytes. -/
theorem toUtf8_truncates_iff (vs cps : List ℕ) (hcps : ∀ c ∈ cps, CodePoint c) (dlen : ℕ) :
    (Truncates (Refused vs) (fun n => some (utf32ToUtf8 (some n) vs)) dlen ↔
      intMax ≤ vs.length ∨ Settles dlen ((seen 0 vs).map utf8Char)) ∧
    (Truncates (Refused16 cps) (fun n => utf16ToUtf8 (some n) (cps.flatMap utf16)) dlen ↔
      intMax ≤ (cps.flatMap utf16).length ∨
        (∀ v ∈ seen 0 (cps.map taken), v < 2 ^ 16) ∧ Settles dlen ((seen 0 (cps.map taken)).map utf8Char)) :=
  ⟨utf32ToUtf8_truncates vs dlen,utf16ToUtf8_truncates hcps dlen⟩

theorem toUtf8_truncates_two :
    (Truncates (Refused [0x41,0x80]) (fun n => some (utf32ToUtf8 (some n) [0x41,0x80])) 2 ↔
      intMax ≤ [0x41,0x80].length ∨ Settles 2 ((seen 0 [0x41,0x80]).map utf8Char)) ∧
    (Truncates (Refused16 [0x20AC,0x41]) (fun n => utf16ToUtf8 (some n) ([0x20AC,0x41].flatMap utf16)) 2 ↔
      intMax ≤ ([0x20AC,0x41].flatMap utf16).length ∨ (∀ v ∈ seen 0 ([0x20AC,0x41].map taken), v < 2 ^ 16) ∧
        Settles 2 ((seen 0 ([0x20AC,0x41].map taken)).map utf8Char)) := by
  have hcps : ∀ c ∈ [0x20AC,0x41], CodePoint c := by
    simp only [List.mem_cons, List.not_mem_nil, or_false]
    rintro c (rfl | rfl) <;> exact ⟨by decide,by decide⟩
  exact ⟨(toUtf8_truncates_iff _ _ hcps 2).1,(toUtf8_truncates_iff [0x41,0x80] _ hcps 2).2⟩

/-- Into one byte, a character of two bytes is left out and the letter behind it is written. -/
theorem utf32ToUtf8_skips : utf32ToUtf8 (some 1) [0x80,0x41] = ([0x41],3) ∧ utf32ToUtf8 (some 3) [0x80,0x41] = ([0xC2,0x80,0x41],3) ∧
    ¬Truncates (Refused [0x80,0x41]) (fun n => some (utf32ToUtf8 (some n) [0x80,0x41])) 1 := by
  refine ⟨by decide,by decide,fun h => ?_⟩
  have hsettles := ((utf32ToUtf8_truncates [0x80,0x41] 1).mp h).resolve_left (by decide)
  exact absurd (hsettles [0x41] (by decide)) (by decide)

end Catlib.Text

/-! # The strings that utf8_validate accepts

The loop steps from character to character; where none begins, it reports the place.
-/
namespace Catlib.Text

variable {str m t : List UInt8} {v : ℕ} {vs : List ℕ}

/-- No complete character begins a string. -/
def NoChar (str : List UInt8) : Prop := ∀ v m, Enc v m → ¬m <+: str

theorem utf8Conts_isSome {s : List UInt8} {k : ℕ} (h : k ≤ s.length) : (utf8Conts s k).isSome := by
  induction s generalizing k with
  | nil =>
    obtain rfl : k = 0 := Nat.le_zero.mp h
    rfl
  | cons c s ih =>
    cases k with
    | zero => rfl
    | succ k =>
      rw [utf8Conts]
      split
      · rfl
      · exact ih (Nat.le_of_succ_le_succ h)

theorem utf8ValidateChar_isSome (h : str ≠ []) : (utf8ValidateChar str str.length).isSome := by
  obtain ⟨c,s,rfl⟩ := List.exists_cons_of_ne_nil h
  rw [utf8ValidateChar]
  simp only [List.getElem?_cons_zero, Option.bind_eq_bind, Option.bind_some, List.drop_succ_cons, List.drop_zero]
  by_cases hbad : utf8Nbytes c < 0 ∨ (c :: s).length > 0 ∧ utf8Nbytes c > (c :: s).length
  · rw [if_pos hbad]
    rfl
  · rw [if_neg hbad]
    have hlen : (utf8Nbytes c).toNat - 1 ≤ s.length := by
      rw [List.length_cons] at hbad
      omega
    obtain ⟨ok,hok⟩ := Option.isSome_iff_exists.mp (utf8Conts_isSome hlen)
    rw [hok,Option.bind_some]
    split
    · rfl
    · split <;> rfl

theorem utf8ValidateFrom_noChar (ht : t ≠ []) (hno : NoChar t) (k pos : ℕ) :
    utf8ValidateFrom false (k + 1) pos t = some (some pos) := by
  obtain ⟨n,hn⟩ := Option.isSome_iff_exists.mp (utf8ValidateChar_isSome ht)
  have hneg : n < 0 := by
    by_contra hge
    obtain ⟨v,m,s,rfl,-,henc⟩ := utf8ValidateChar_sound hn (by omega)
    exact hno v m henc (List.prefix_append m s)
  rw [utf8ValidateFrom,if_neg ht,if_neg (by simp),hn,Option.bind_eq_bind,Option.bind_some,if_pos hneg]
  rfl

theorem utf8ValidateFrom_encs (h : Encs vs m) (t : List UInt8) (k pos : ℕ) :
    utf8ValidateFrom false (k + vs.length) pos (m ++ t) = utf8ValidateFrom false k (pos + m.length) t := by
  induction h generalizing pos with
  | nil => rfl
  | @cons v vs m s h hs ih =>
    rw [List.length_cons,← Nat.add_assoc,utf8ValidateFrom,List.append_assoc,if_neg h.append_ne_nil,if_neg (by simp),h.validate,
      Option.bind_eq_bind,Option.bind_some,if_neg (by omega),Int.toNat_natCast,List.drop_left,ih,List.length_append,Nat.add_assoc]

theorem encs_upTo (str : List UInt8) : ∃ vs m t, str = m ++ t ∧ Encs vs m ∧ (t ≠ [] → NoChar t) := by
  induction hn : str.length using Nat.strong_induction_on generalizing str with
  | _ n ih =>
    by_cases hno : NoChar str
    · exact ⟨[],[],str,rfl,.nil,fun _ => hno⟩
    · unfold NoChar at hno
      push Not at hno
      obtain ⟨v,c,henc,s,rfl⟩ := hno
      have hpos := henc.length_pos
      rw [List.length_append] at hn
      obtain ⟨vs,m,t,rfl,hs,ht⟩ := ih s.length (by omega) s rfl
      exact ⟨v :: vs,c ++ m,t,(List.append_assoc c m t).symm,.cons henc hs,ht⟩

theorem utf8Validate_append (hs : Encs vs m) (t : List UInt8) :
    ∃ k, utf8Validate (m ++ t) false = utf8ValidateFrom false (k + 1) m.length t := by
  refine ⟨(m ++ t).length - vs.length,?_⟩
  have hle := hs.length_le
  rw [utf8Validate,← Nat.zero_add m.length,← utf8ValidateFrom_encs hs,List.length_append]
  congr 1
  omega

theorem utf8Validate_encs (hs : Encs vs m) : utf8Validate m false = some none := by
  obtain ⟨k,hk⟩ := utf8Validate_append hs []
  rw [List.append_nil] at hk
  rw [hk]
  rfl

theorem utf8Validate_noChar (hs : Encs vs m) (ht : t ≠ []) (hno : NoChar t) :
    utf8Validate (m ++ t) false = some (some m.length) := by
  obtain ⟨k,hk⟩ := utf8Validate_append hs t
  rw [hk,utf8ValidateFrom_noChar ht hno]

/-- A string is accepted exactly when it is a row of complete characters; else the first place where none begins is reported. No byte
behind the string is read. -/
theorem utf8Validate_spec (str : List UInt8) : (utf8Validate str false = some none ↔ ∃ vs, Encs vs str) ∧
    (∀ p, utf8Validate str false = some (some p) ↔
      p < str.length ∧ (∃ vs, Encs vs (str.take p)) ∧ NoChar (str.drop p)) ∧
    (utf8Validate str false).isSome := by
  obtain ⟨vs,m,t,rfl,hs,hno⟩ := encs_upTo str
  -- the answer is known for each of the two shapes of the string
  have hback : ∀ p, p < (m ++ t).length → (∃ ws, Encs ws ((m ++ t).take p)) → NoChar ((m ++ t).drop p) →
      utf8Validate (m ++ t) false = some (some p) := by
    rintro p hp ⟨ws,hws⟩ hnop
    have hne : (m ++ t).drop p ≠ [] := by
      intro he
      rw [List.drop_eq_nil_iff] at he
      omega
    have h := utf8Validate_noChar hws hne hnop
    rwa [List.take_append_drop,List.length_take_of_le hp.le] at h
  by_cases ht : t = []
  · subst ht
    rw [List.append_nil] at hback ⊢
    have h := utf8Validate_encs hs
    refine ⟨iff_of_true h ⟨vs,hs⟩,fun p => ⟨fun hp => ?_,fun ⟨hp,hws,hnop⟩ => hback p hp hws hnop⟩,by rw [h]; rfl⟩
    rw [h] at hp
    cases hp
  · have h := utf8Validate_noChar hs ht (hno ht)
    refine ⟨iff_of_false (by rw [h]; exact nofun) fun ⟨ws,hws⟩ => ?_,fun p => ⟨fun hp => ?_,fun ⟨hp,hws,hnop⟩ => hback p hp hws hnop⟩,
      by rw [h]; rfl⟩
    · rw [utf8Validate_encs hws] at h
      cases h
    · rw [h] at hp
      cases hp
      rw [List.take_left,List.drop_left,List.length_append]
      exact ⟨by have := List.length_pos_iff.mpr ht; omega,⟨vs,hs⟩,hno ht⟩

end Catlib.Text
