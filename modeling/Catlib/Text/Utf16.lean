import Catlib.Text.Utf32

/-! # UTF-16 to UTF-8 and back

A failed assertion has no result.
-/
namespace Catlib.Text

variable {m t bs : List UInt8} {vs cps : List ℕ} {v c : ℕ} {n : ℤ}

/-! ## The conversions -/

/-- What `utf8_to_utf16` makes of one value: the units and their count, or an error. -/
def utf16Units (dlen nconv v : ℕ) : Option (List UInt16 × ℕ) :=
  if nconv < dlen then
    if v > 0xFFFF then
      if v > 0x10FFFF then none
      else if nconv + 1 < dlen then
        let w := v - 0x10000
        some ([UInt16.ofNat (0xD800 ||| (w &&& 0xFFC00) >>> 10),UInt16.ofNat (0xDC00 ||| w &&& 0x3FF)],nconv + 2)
      else some ([],nconv + 2)
    else some ([UInt16.ofNat v],nconv + 1)
  else some ([],nconv + 1)

/-- `utf8_to_utf16`: what is written, and the result. -/
def utf8ToUtf16From (dlen : ℕ) : ℕ → ℕ → List UInt8 → Option (List UInt16 × ℤ)
  | 0, _, _ => none
  | k + 1, nconv, src => do
    if src = [] then return ([],toInt nconv)
    else
      let clen ← utf8ValidateChar src src.length
      if clen < 0 ∨ clen > 3 then return ([],-1)
      else
        match utf16Units dlen nconv (utf8Decode src clen.toNat) with
        | none => return ([],-1)
        | some (us,nconv) =>
          let (dst,r) ← utf8ToUtf16From dlen k nconv (src.drop clen.toNat)
          return (us ++ dst,r)

def utf8ToUtf16 (dlen : ℕ) (src : List UInt8) : Option (List UInt16 × ℤ) := utf8ToUtf16From dlen (src.length + 1) 0 src

/-- The second half of the loop of `utf16_to_utf8`, with one value; `f` goes on. -/
def utf16Char (dlen : Option ℕ) (tlen v : ℕ) (f : Option ℕ → ℕ → Option (List UInt8 × ℤ)) : Option (List UInt8 × ℤ) :=
  let enclen := utf8EncLen v
  if enclen < 0 then some ([],-1)
  else if ¬(1 ≤ enclen ∧ enclen ≤ 3) then none
  else
    let (bs,dlen) := utf8Put dlen v enclen.toNat
    if intMax - tlen < enclen.toNat then some (bs,-1)
    else (f dlen (tlen + enclen.toNat)).map fun r => (bs ++ r.1,r.2)

/-- The loop of `utf16_to_utf8`. -/
def utf16ToUtf8From : List UInt16 → Option ℕ → ℕ → Option (List UInt8 × ℤ)
  | [], _, tlen => some ([],toInt tlen)
  | u :: src, dlen, tlen =>
    if 0xDC00 ≤ u.toNat ∧ u.toNat ≤ 0xDFFF then some ([],-1)
    else if u.toNat &&& 0xFC00 = 0xD800 then
      match src with
      | [] => some ([],-1)
      | u' :: src =>
        if u'.toNat &&& 0xFC00 ≠ 0xDC00 then some ([],-1)
        else utf16Char dlen tlen ((u.toNat &&& 0x3FF) <<< 10 ||| u'.toNat &&& 0x3FF) (utf16ToUtf8From src)
    else utf16Char dlen tlen u.toNat (utf16ToUtf8From src)

def utf16ToUtf8 (dlen : Option ℕ) (src : List UInt16) : Option (List UInt8 × ℤ) :=
  if src.length ≥ intMax then some ([],-1) else utf16ToUtf8From src dlen 0

/-! ## Code points -/

/-- The units of a code point. -/
def utf16 (c : ℕ) : List UInt16 :=
  if c < 0x10000 then [UInt16.ofNat c] else [UInt16.ofNat (0xD800 + (c - 0x10000) / 2 ^ 10),UInt16.ofNat (0xDC00 + (c - 0x10000) % 2 ^ 10)]

structure CodePoint (c : ℕ) : Prop where
  lt : c < 0x110000
  scalar : ¬(0xD800 ≤ c ∧ c ≤ 0xDFFF)

/-- The value that the conversion to UTF-8 takes for a code point. -/
def taken (c : ℕ) : ℕ := if c < 0x10000 then c else c - 0x10000

theorem toNat_unit {x : ℕ} (hx : x < 2 ^ 16) : (UInt16.ofNat x).toNat = x := by
  rw [UInt16.toNat_ofNat']
  exact Nat.mod_eq_of_lt hx

theorem unit_high {x : ℕ} (hx : x < 2 ^ 16) : x &&& 0xFC00 = x / 2 ^ 10 * 2 ^ 10 :=
  and_high (w := 16) (k := 10) hx (by decide)

theorem utf16ToUtf8From_cons (hc : CodePoint c) (us : List UInt16) (dlen : Option ℕ) (tlen : ℕ) :
    utf16ToUtf8From (utf16 c ++ us) dlen tlen = utf16Char dlen tlen (taken c) (utf16ToUtf8From us) := by
  have hlt := hc.lt
  have hsc := hc.scalar
  unfold utf16 taken
  by_cases h : c < 0x10000
  · have hu : (UInt16.ofNat c).toNat = c := toNat_unit (by lia)
    rw [if_pos h,if_pos h]
    change utf16ToUtf8From (UInt16.ofNat c :: us) dlen tlen = _
    rw [utf16ToUtf8From.eq_def]
    dsimp only
    rw [hu,if_neg (by lia),if_neg (by rw [unit_high (by lia)]; lia)]
  · have hu : (UInt16.ofNat (0xD800 + (c - 0x10000) / 2 ^ 10)).toNat = 0xD800 + (c - 0x10000) / 2 ^ 10 := toNat_unit (by lia)
    have hu' : (UInt16.ofNat (0xDC00 + (c - 0x10000) % 2 ^ 10)).toNat = 0xDC00 + (c - 0x10000) % 2 ^ 10 := toNat_unit (by lia)
    have hpair : ((0xD800 + (c - 0x10000) / 2 ^ 10) &&& 0x3FF) <<< 10 ||| (0xDC00 + (c - 0x10000) % 2 ^ 10) &&& 0x3FF =
        c - 0x10000 := by
      rw [and_low (m := 0x3FF) (n := 10) rfl,and_low (m := 0x3FF) (n := 10) rfl,Nat.shiftLeft_eq,or_low (n := 10) (by lia) (by lia)]
      lia
    rw [if_neg h,if_neg h]
    change utf16ToUtf8From (UInt16.ofNat (0xD800 + (c - 0x10000) / 2 ^ 10) :: UInt16.ofNat (0xDC00 + (c - 0x10000) % 2 ^ 10) :: us)
      dlen tlen = _
    rw [utf16ToUtf8From.eq_def]
    dsimp only
    rw [hu,hu',if_neg (by lia),if_pos (by rw [unit_high (by lia)]; lia),
      if_neg (by rw [unit_high (by lia)]; lia),hpair]

/-! ## To UTF-8 -/

/-- The number of bytes of a list of values. -/
def utf8Size (vs : List ℕ) : ℕ := (vs.map fun v => (utf8EncLen v).toNat).sum

theorem Encs.size (h : Encs vs bs) : bs.length = utf8Size vs := by
  induction h with
  | nil => rfl
  | cons h _ ih =>
    rw [List.length_append,ih,utf8Size,utf8Size,List.map_cons,List.sum_cons,h.encLen,Int.toNat_natCast]

/-- Where a result cannot be right: a value of more than three bytes, or too many bytes. -/
def Spoiled (tlen : ℕ) (vs : List ℕ) : Prop := (∃ v ∈ vs, 2 ^ 16 ≤ v) ∨ intMax < tlen + utf8Size vs

/-- The bytes of the values and their number, or an error or a failed assertion where that cannot be. -/
def ToUtf8 (tlen : ℕ) (vs : List ℕ) (r : Option (List UInt8 × ℤ)) : Prop :=
  (∃ bs, Encs vs bs ∧ ¬Spoiled tlen vs ∧ r = some (bs,toInt (tlen + bs.length))) ∨
  (Spoiled tlen vs ∧ (r = none ∨ ∃ bs, r = some (bs,-1)))

theorem utf8EncLen_le (hv : v < 2 ^ 31) : 1 ≤ utf8EncLen v ∧ (utf8EncLen v ≤ 3 ↔ v < 2 ^ 16) ∧ utf8EncLen v ≤ 6 := by
  rw [utf8EncLen_eq hv]
  split_ifs <;> omega

theorem utf16Char_spec {dlen tlen : ℕ} {f : Option ℕ → ℕ → Option (List UInt8 × ℤ)} (hv : v < 2 ^ 31) (hd : 6 ≤ dlen)
    (ht : tlen ≤ intMax) (hf : ∀ dlen' tlen', dlen ≤ dlen' + 6 → tlen' ≤ intMax → ToUtf8 tlen' vs (f (some dlen') tlen')) :
    ToUtf8 tlen (v :: vs) (utf16Char (some dlen) tlen v f) := by
  obtain ⟨hone,hthree,hsix⟩ := utf8EncLen_le hv
  have henc := utf8Encode_enc hv
  have hlen : ((utf8EncLen v).toNat : ℤ) = utf8EncLen v := Int.toNat_of_nonneg (by lia)
  have hsize : utf8Size (v :: vs) = (utf8EncLen v).toNat + utf8Size vs := by
    rw [utf8Size,utf8Size,List.map_cons,List.sum_cons]
  unfold utf16Char
  dsimp only
  rw [if_neg (by lia)]
  by_cases h3 : utf8EncLen v ≤ 3
  · rw [if_neg (not_not.2 ⟨hone,h3⟩),utf8Put,if_pos (show dlen ≥ (utf8EncLen v).toNat by lia)]
    dsimp only
    by_cases hfull : intMax - tlen < (utf8EncLen v).toNat
    · rw [if_pos hfull]
      exact Or.inr ⟨Or.inr (by lia),Or.inr ⟨_,rfl⟩⟩
    rw [if_neg hfull]
    have hv16 := hthree.1 h3
    have hsp : Spoiled (tlen + (utf8EncLen v).toNat) vs ↔ Spoiled tlen (v :: vs) := by
      unfold Spoiled
      rw [hsize,Nat.add_assoc]
      refine or_congr_left ⟨?_,?_⟩ <;> rintro ⟨w,hw,hlt⟩
      · exact ⟨w,List.mem_cons_of_mem _ hw,hlt⟩
      rcases List.mem_cons.1 hw with rfl | hw
      · exact absurd hlt (not_le.2 hv16)
      · exact ⟨w,hw,hlt⟩
    rcases hf (dlen - (utf8EncLen v).toNat) (tlen + (utf8EncLen v).toNat) (by lia) (by lia) with
      ⟨bs,hbs,hns,hr⟩ | ⟨hs,hr | ⟨bs,hr⟩⟩
    · refine Or.inl ⟨_,.cons henc hbs,mt hsp.2 hns,?_⟩
      have hl := henc.encLen
      rw [hr,Option.map_some,List.length_append,← Nat.add_assoc,show (utf8Encode v (utf8EncLen v).toNat).length = (utf8EncLen v).toNat
        by lia]
    · exact Or.inr ⟨hsp.1 hs,Or.inl (by rw [hr]; rfl)⟩
    · exact Or.inr ⟨hsp.1 hs,Or.inr ⟨_,by rw [hr]; rfl⟩⟩
  · rw [if_pos (fun h => h3 h.2)]
    exact Or.inr ⟨Or.inl ⟨v,List.mem_cons_self,not_lt.1 (mt hthree.2 h3)⟩,Or.inl rfl⟩

theorem taken_lt (hc : CodePoint c) : taken c < 2 ^ 31 := by
  have := hc.lt
  unfold taken
  split <;> omega

theorem utf16ToUtf8From_spec (h : ∀ c ∈ cps, CodePoint c) {dlen tlen : ℕ} (hd : 6 * cps.length ≤ dlen) (ht : tlen ≤ intMax) :
    ToUtf8 tlen (cps.map taken) (utf16ToUtf8From (cps.flatMap utf16) (some dlen) tlen) := by
  induction cps generalizing dlen tlen with
  | nil =>
    refine Or.inl ⟨[],.nil,?_,rfl⟩
    rintro (⟨v,hv,-⟩ | hmax)
    · exact absurd hv (by simp)
    · exact absurd hmax (not_lt.2 ht)
  | cons c cps ih =>
    rw [List.forall_mem_cons] at h
    rw [List.length_cons] at hd
    rw [List.flatMap_cons,utf16ToUtf8From_cons h.1,List.map_cons]
    exact utf16Char_spec (taken_lt h.1) (by omega) ht fun dlen' tlen' hd' ht' => ih h.2 (by omega) ht'

/-! ## Back to UTF-16 -/

theorem Enc.length_le_three (h : Enc v m) (hv : v < 2 ^ 16) : m.length ≤ 3 := by
  have h3 := (utf8EncLen_le h.lt).2.1.2 hv
  rw [h.encLen] at h3
  omega

theorem utf8ToUtf16From_encs (h : Encs vs bs) (hvs : ∀ v ∈ vs, v < 2 ^ 16) {dlen k nconv : ℕ} (hd : nconv + vs.length ≤ dlen)
    (hk : vs.length < k) : utf8ToUtf16From dlen k nconv bs = some (vs.map UInt16.ofNat,toInt (nconv + vs.length)) := by
  induction h generalizing k nconv with
  | nil =>
    obtain ⟨k,rfl⟩ : ∃ k', k = k' + 1 := ⟨k - 1,by omega⟩
    rfl
  | @cons v vs m t h hs ih =>
    obtain ⟨k,rfl⟩ : ∃ k', k = k' + 1 := ⟨k - 1,by omega⟩
    rw [List.length_cons] at hd hk
    rw [List.forall_mem_cons] at hvs
    have h3 := h.length_le_three hvs.1
    have hunits : utf16Units dlen nconv v = some ([UInt16.ofNat v],nconv + 1) := by
      rw [utf16Units,if_pos (by omega),if_neg (by omega)]
    rw [utf8ToUtf16From,if_neg h.append_ne_nil,h.validate,Option.bind_eq_bind,Option.bind_some,if_neg (by omega),
      Int.toNat_natCast,List.drop_left,h.decode,hunits]
    dsimp only
    rw [ih hvs.2 (by omega) (by omega)]
    simp only [Option.bind_eq_bind, Option.bind_some, List.length_cons]
    rw [show nconv + 1 + vs.length = nconv + (vs.length + 1) by omega]
    rfl

/-! ## The round trip -/

/-- The units come back from UTF-8, and both results are exact. -/
def RoundTrips (dlen dlen' : ℕ) (cps : List ℕ) : Prop :=
  ∃ bs, utf16ToUtf8 (some dlen) (cps.flatMap utf16) = some (bs,(bs.length : ℤ)) ∧
    utf8ToUtf16 dlen' bs = some (cps.flatMap utf16,((cps.flatMap utf16).length : ℤ))

theorem length_flatMap_utf16 (cps : List ℕ) :
    cps.length ≤ (cps.flatMap utf16).length ∧ ((cps.flatMap utf16).length = cps.length ↔ ∀ c ∈ cps, c < 0x10000) := by
  induction cps with
  | nil => simp
  | cons c cps ih =>
    rw [List.flatMap_cons,List.length_append,List.forall_mem_cons,List.length_cons,utf16,← ih.2]
    split
    · rw [List.length_singleton]
      omega
    · change _ ≤ 2 + _ ∧ (2 + _ = _ ↔ _)
      omega

theorem map_taken (h : ∀ c ∈ cps, c < 0x10000) : cps.map taken = cps ∧ cps.flatMap utf16 = cps.map UInt16.ofNat := by
  induction cps with
  | nil => exact ⟨rfl,rfl⟩
  | cons c cps ih =>
    rw [List.forall_mem_cons] at h
    obtain ⟨h1,h2⟩ := ih h.2
    rw [List.map_cons,List.flatMap_cons,List.map_cons,h1,h2,taken,if_pos h.1,utf16,if_pos h.1]
    exact ⟨rfl,rfl⟩

/-- Sequences of code points come back from UTF-8 as long as all are below 0x10000 and an int can
hold the lengths. -/
theorem utf16_utf8_utf16 (cps : List ℕ) (hcps : ∀ c ∈ cps, CodePoint c) (dlen dlen' : ℕ) (hd : 6 * cps.length ≤ dlen)
    (hd' : 2 * cps.length ≤ dlen') :
    RoundTrips dlen dlen' cps ↔ (∀ c ∈ cps, c < 0x10000) ∧ cps.length < intMax ∧ utf8Size cps ≤ intMax := by
  obtain ⟨hle,hlen⟩ := length_flatMap_utf16 cps
  have hspec := utf16ToUtf8From_spec hcps hd (Nat.zero_le intMax)
  constructor
  · rintro ⟨bs,h1,h2⟩
    unfold utf16ToUtf8 at h1
    by_cases hmax : (cps.flatMap utf16).length ≥ intMax
    · rw [if_pos hmax] at h1
      cases h1
    rw [if_neg hmax] at h1
    rcases hspec with ⟨bs',hbs,hns,hr⟩ | ⟨-,hr | ⟨bs',hr⟩⟩
    · rw [h1,Option.some.injEq,Prod.mk.injEq] at hr
      obtain ⟨rfl,-⟩ := hr
      rw [Spoiled,not_or,Nat.zero_add] at hns
      have hsmall : ∀ v ∈ cps.map taken, v < 2 ^ 16 := fun v hv => not_le.1 fun hge => hns.1 ⟨v,hv,hge⟩
      have hlenbs := hbs.length_le
      rw [List.length_map] at hlenbs
      have hroom : 0 + (cps.map taken).length ≤ dlen' := by
        rw [List.length_map]
        omega
      have hfuel : (cps.map taken).length < bs.length + 1 := by
        rw [List.length_map]
        omega
      rw [utf8ToUtf16,utf8ToUtf16From_encs hbs hsmall hroom hfuel,Option.some.injEq,Prod.mk.injEq] at h2
      have hcount := congrArg List.length h2.1
      rw [List.length_map,List.length_map] at hcount
      have hbmp := hlen.1 hcount.symm
      rw [(map_taken hbmp).1] at hns
      exact ⟨hbmp,by omega,not_lt.1 hns.2⟩
    · rw [h1] at hr
      cases hr
    · rw [h1,Option.some.injEq,Prod.mk.injEq] at hr
      omega
  · rintro ⟨hbmp,hlt,hsize⟩
    obtain ⟨htaken,hunits⟩ := map_taken hbmp
    have hlen' := hlen.2 hbmp
    rw [htaken] at hspec
    have hns : ¬Spoiled 0 cps := by
      rintro (⟨v,hv,hge⟩ | hgt)
      · exact absurd (hbmp v hv) (not_lt.2 hge)
      · omega
    rcases hspec with ⟨bs,hbs,-,hr⟩ | ⟨hs,-⟩
    · have hlenbs := hbs.length_le
      have hsizebs := hbs.size
      have hint : bs.length < 2 ^ 31 := by
        unfold intMax at hsize
        omega
      refine ⟨bs,?_,?_⟩
      · rw [utf16ToUtf8,if_neg (by omega),hr,Nat.zero_add,toInt_eq hint]
      · rw [utf8ToUtf16,utf8ToUtf16From_encs hbs hbmp (by omega) (by omega),hlen',Nat.zero_add,toInt_eq (by omega),hunits]
    · exact absurd hs hns

theorem utf16_utf8_utf16_sample : RoundTrips 18 6 [0x41,0xFFFF,0x20AC] ↔ (∀ c ∈ [0x41,0xFFFF,0x20AC], c < 0x10000) ∧
    [0x41,0xFFFF,0x20AC].length < intMax ∧ utf8Size [0x41,0xFFFF,0x20AC] ≤ intMax :=
  utf16_utf8_utf16 [0x41,0xFFFF,0x20AC]
    (by
      intro c hc
      simp only [List.mem_cons, List.not_mem_nil, or_false] at hc
      rcases hc with rfl | rfl | rfl <;> exact ⟨by decide,by decide⟩) 18 6 (by decide) (by decide)

/-- The pair of U+10000 becomes a null byte, and that one unit. -/
theorem utf16_slip : CodePoint 0x10000 ∧ ¬RoundTrips 6 2 [0x10000] := by
  refine ⟨⟨by decide,by decide⟩,?_⟩
  rintro ⟨bs,h1,h2⟩
  have hto : utf16ToUtf8 (some 6) ([0x10000].flatMap utf16) = some ([0],1) := by decide
  have hback : utf8ToUtf16 2 [0] = some ([0],1) := by decide
  rw [hto,Option.some.injEq,Prod.mk.injEq] at h1
  rw [← h1.1,hback] at h2
  exact absurd h2 (by decide)

end Catlib.Text
