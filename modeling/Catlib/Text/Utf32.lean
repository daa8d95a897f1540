import Catlib.Text.Utf8Chars

/-! # UTF-8 to UTF-32 and back -/
namespace Catlib.Text

variable {m t str : List UInt8} {v : ℕ} {vs : List ℕ}

/-- The bytes of a list of values. -/
inductive Encs : List ℕ → List UInt8 → Prop
  | nil : Encs [] []
  | cons {v : ℕ} {vs : List ℕ} {m t : List UInt8} (h : Enc v m) (hs : Encs vs t) : Encs (v :: vs) (m ++ t)

theorem toInt_eq {n : ℕ} (h : n < 2 ^ 31) : toInt n = n := by
  have h32 : ((2 ^ 32 : ℕ) : ℤ) = 4294967296 := rfl
  refine Int.bmod_eq_of_le_mul_two ?_ ?_ <;> rw [h32] <;> omega

theorem Encs.length_le (h : Encs vs str) : vs.length ≤ str.length := by
  induction h with
  | nil => exact le_rfl
  | cons h _ ih =>
    have := h.length_pos
    rw [List.length_cons,List.length_append]
    omega

theorem Encs.ascii (h : Encs vs str) (hlen : vs.length = str.length) : ∀ b ∈ str, b.toNat < 128 := by
  induction h with
  | nil => simp
  | @cons v vs m t h hs ih =>
    have hpos := h.length_pos
    have hle := hs.length_le
    rw [List.length_cons,List.length_append] at hlen
    have hone : m.length = 1 := by omega
    intro b hb
    rcases List.mem_append.1 hb with hb | hb
    · cases h with
      | one ha =>
        rw [List.mem_singleton] at hb
        rwa [hb]
      | _ => cases hone
    · exact ih (by omega) b hb

theorem encs_ascii (n : ℕ) {b : UInt8} (hb : b.toNat < 128) : Encs (List.replicate n b.toNat) (List.replicate n b) := by
  induction n with
  | zero => exact .nil
  | succ n ih => exact .cons (m := [b]) (.one hb rfl) ih

/-! ## Validation -/

theorem utf8ValidateFrom_sound {k pos : ℕ} (h : utf8ValidateFrom false k pos str = some none) : ∃ vs, Encs vs str := by
  induction k generalizing pos str with
  | zero => cases h
  | succ k ih =>
    rw [utf8ValidateFrom] at h
    by_cases hnil : str = []
    · subst hnil
      exact ⟨[],.nil⟩
    rw [if_neg hnil,if_neg (by simp)] at h
    cases hchar : utf8ValidateChar str str.length with
    | none => simp [hchar] at h
    | some n =>
      rw [hchar,Option.bind_eq_bind,Option.bind_some] at h
      by_cases hn : n < 0
      · rw [if_pos hn] at h
        cases h
      rw [if_neg hn] at h
      obtain ⟨v,m,t,rfl,rfl,henc⟩ := utf8ValidateChar_sound hchar (by omega)
      rw [Int.toNat_natCast,List.drop_left] at h
      obtain ⟨vs,hvs⟩ := ih h
      exact ⟨v :: vs,.cons henc hvs⟩

theorem utf8ValidateFrom_complete (h : Encs vs str) {k pos : ℕ} (hk : vs.length < k) :
    utf8ValidateFrom false k pos str = some none := by
  induction h generalizing k pos with
  | nil =>
    obtain ⟨k,rfl⟩ : ∃ k', k = k' + 1 := ⟨k - 1,by omega⟩
    rfl
  | @cons v vs m t h hs ih =>
    obtain ⟨k,rfl⟩ : ∃ k', k = k' + 1 := ⟨k - 1,by omega⟩
    rw [utf8ValidateFrom,if_neg h.append_ne_nil,if_neg (by simp),h.validate,Option.bind_eq_bind,Option.bind_some,if_neg (by omega),
      Int.toNat_natCast,List.drop_left]
    exact ih (by rw [List.length_cons] at hk; omega)

/-! ## Conversion -/

theorem utf8ToUtf32From_encs (h : Encs vs str) {dlen k nconv : ℕ} (hd : nconv + vs.length ≤ dlen) (hk : vs.length < k) :
    utf8ToUtf32From dlen k nconv str = some (vs,toInt (nconv + vs.length)) := by
  induction h generalizing k nconv with
  | nil =>
    obtain ⟨k,rfl⟩ : ∃ k', k = k' + 1 := ⟨k - 1,by omega⟩
    rfl
  | @cons v vs m t h hs ih =>
    obtain ⟨k,rfl⟩ : ∃ k', k = k' + 1 := ⟨k - 1,by omega⟩
    rw [List.length_cons] at hd hk
    rw [utf8ToUtf32From,if_neg h.append_ne_nil,h.validate,Option.bind_eq_bind,Option.bind_some,if_neg (by omega),
      Int.toNat_natCast,List.drop_left,ih (by omega) (by omega),h.decode]
    simp only [Option.bind_eq_bind, Option.bind_some, if_pos (show nconv < dlen by omega), List.length_cons]
    rw [show nconv + 1 + vs.length = nconv + (vs.length + 1) by omega]
    rfl

theorem utf32ToUtf8From_encs (h : Encs vs str) {dlen tlen : ℕ} (hd : str.length ≤ dlen) (ht : tlen + str.length ≤ intMax) :
    utf32ToUtf8From (some dlen) tlen vs = (str,toInt (tlen + str.length)) := by
  induction h generalizing dlen tlen with
  | nil => rfl
  | @cons v vs m t h hs ih =>
    rw [List.length_append] at hd ht
    have hput : utf8Put (some dlen) v m.length = (m,some (dlen - m.length)) := by
      rw [utf8Put,if_pos (by omega),h.encode]
    simp only [utf32ToUtf8From, h.encLen, Int.toNat_natCast, hput, if_neg (show ¬(m.length : ℤ) < 0 by omega),
      if_neg (show ¬intMax - tlen < m.length by omega), ih (show t.length ≤ dlen - m.length by omega)
        (show tlen + m.length + t.length ≤ intMax by omega), List.length_append, Nat.add_assoc]

/-- A valid string with fewer than 2^31 - 1 characters comes back from UTF-32, with its lengths. -/
theorem utf8_utf32_utf8 (str : List UInt8) (hvalid : utf8Validate str false = some none) (hlen : str.length < 2 ^ 31)
    (hmax : str.length = 2 ^ 31 - 1 → ∃ b ∈ str, 128 ≤ b.toNat) :
    ∃ vs : List ℕ, (∀ dlen ≥ vs.length, utf8ToUtf32 dlen str = some (vs,(vs.length : ℤ))) ∧
      ∀ dlen ≥ str.length, utf32ToUtf8 (some dlen) vs = (str,(str.length : ℤ)) := by
  obtain ⟨vs,h⟩ := utf8ValidateFrom_sound hvalid
  have hle := h.length_le
  have hvs : vs.length < intMax := by
    by_contra hge
    unfold intMax at hge
    obtain ⟨b,hb,h128⟩ := hmax (by omega)
    exact absurd (h.ascii (by omega) b hb) (not_lt.2 h128)
  refine ⟨vs,fun dlen hd => ?_,fun dlen hd => ?_⟩
  · rw [utf8ToUtf32,utf8ToUtf32From_encs h (by omega) (by omega),Nat.zero_add,toInt_eq (by omega)]
  · rw [utf32ToUtf8,if_neg (not_le.2 hvs),utf32ToUtf8From_encs h hd (by unfold intMax; omega),Nat.zero_add,toInt_eq hlen]

theorem utf8_utf32_utf8_sample : ∃ vs : List ℕ, (∀ dlen ≥ vs.length, utf8ToUtf32 dlen [0x41,0xC3,0xA9,0xFC,0x84,0x80,0x80,0x80,0x80] =
      some (vs,(vs.length : ℤ))) ∧ ∀ dlen ≥ 9, utf32ToUtf8 (some dlen) vs = ([0x41,0xC3,0xA9,0xFC,0x84,0x80,0x80,0x80,0x80],9) :=
  utf8_utf32_utf8 [0x41,0xC3,0xA9,0xFC,0x84,0x80,0x80,0x80,0x80] (by decide) (by decide) (by decide)

/-- As many one-byte characters as an int can count do not come back. -/
theorem utf8_utf32_limit : (List.replicate (2 ^ 31 - 1) (65 : UInt8)).length < 2 ^ 31 ∧
    utf8Validate (List.replicate (2 ^ 31 - 1) 65) false = some none ∧
    utf8ToUtf32 (2 ^ 31) (List.replicate (2 ^ 31 - 1) 65) = some (List.replicate (2 ^ 31 - 1) 65,2 ^ 31 - 1) ∧
    utf32ToUtf8 (some (2 ^ 31)) (List.replicate (2 ^ 31 - 1) 65) = ([],-1) := by
  have h := encs_ascii (2 ^ 31 - 1) (b := 65) (by decide)
  have hlen : (List.replicate (2 ^ 31 - 1) (65 : UInt8)).length = 2 ^ 31 - 1 := List.length_replicate
  have hlen' : (List.replicate (2 ^ 31 - 1) 65).length = 2 ^ 31 - 1 := List.length_replicate
  change Encs (List.replicate (2 ^ 31 - 1) 65) _ at h
  generalize List.replicate (2 ^ 31 - 1) (65 : UInt8) = str at *
  generalize List.replicate (2 ^ 31 - 1) 65 = vs at *
  refine ⟨by omega,utf8ValidateFrom_complete h (by omega),?_,?_⟩
  · rw [utf8ToUtf32,utf8ToUtf32From_encs h (by omega) (by omega),Nat.zero_add,toInt_eq (by omega),hlen']
    rfl
  · rw [utf32ToUtf8,if_pos (by rw [hlen']; exact le_rfl)]

end Catlib.Text

/-! # UTF-32 values of 64 bits

The masks of `utf8_enc_len` and `utf8_encode` read the low 32 bits of an unsigned long. What is
above them is lost without an error.
-/
namespace Catlib.Text

variable {str : List UInt8} {v dlen tlen : ℕ} {vs : List ℕ}

/-- A bit that no encoding has. -/
def HighBit (v : ℕ) : Prop := v &&& 0x80000000 ≠ 0

/-- The bytes of all values. -/
def encTotal (vs : List ℕ) : ℕ := (vs.map fun v => (utf8EncLen v).toNat).sum

/-- `utf32_to_utf8` returns -1: a value has the high bit, or an int does not count the values or the bytes. -/
def Refused (vs : List ℕ) : Prop := intMax ≤ vs.length ∨ (∃ v ∈ vs, HighBit v) ∨ intMax < encTotal vs

/-- What is written, where there is room for it, is converted back to the values. -/
def ComesBack (vs : List ℕ) : Prop := ∀ dlen str r, utf32ToUtf8 (some dlen) vs = (str,r) →
  r = -1 ∨ (r ≤ dlen → ∀ n ≥ vs.length, utf8ToUtf32 n str = some (vs,(vs.length : ℤ)))

/-! ## The low bits of a value -/

theorem and_low32 {m : ℕ} (hm : m < 2 ^ 32) (v : ℕ) : v % 2 ^ 32 &&& m = v &&& m := by
  rw [← Nat.mod_eq_of_lt (show v &&& m < 2 ^ 32 from Nat.and_le_right.trans_lt hm),Nat.and_mod_two_pow,Nat.mod_eq_of_lt hm]

theorem encLen_low (v : ℕ) : utf8EncLen (v % 2 ^ 32) = utf8EncLen v := by
  simp only [utf8EncLen, and_low32 (show 0x80000000 < 2 ^ 32 by decide), and_low32 (show 0xFFFFFF80 < 2 ^ 32 by decide),
    and_low32 (show 0xFFFFF800 < 2 ^ 32 by decide), and_low32 (show 0xFFFF0000 < 2 ^ 32 by decide),
    and_low32 (show 0xFFE00000 < 2 ^ 32 by decide), and_low32 (show 0xFC000000 < 2 ^ 32 by decide)]

theorem encode_low (v n : ℕ) : utf8Encode (v % 2 ^ 32) n = utf8Encode v n := by
  have hbyte : UInt8.ofNat (v % 2 ^ 32) = UInt8.ofNat v := by
    rw [← UInt8.toNat_inj,UInt8.toNat_ofNat',UInt8.toNat_ofNat',Nat.mod_mod_of_dvd v (by decide)]
  unfold utf8Encode
  split
  · rw [hbyte]
  all_goals simp only [and_low32 (show 0x7C0 < 2 ^ 32 by decide), and_low32 (show 0x3F < 2 ^ 32 by decide),
    and_low32 (show 0xF000 < 2 ^ 32 by decide), and_low32 (show 0xFC0 < 2 ^ 32 by decide),
    and_low32 (show 0x1C0000 < 2 ^ 32 by decide), and_low32 (show 0x3F000 < 2 ^ 32 by decide),
    and_low32 (show 0x3000000 < 2 ^ 32 by decide), and_low32 (show 0xFC0000 < 2 ^ 32 by decide),
    and_low32 (show 0x40000000 < 2 ^ 32 by decide), and_low32 (show 0x3F000000 < 2 ^ 32 by decide)]

theorem low_lt (h : ¬HighBit v) : v % 2 ^ 32 < 2 ^ 31 := by
  have hz := (and_high_eq_zero (m := 0x80000000) (w := 32) (k := 31) rfl (Nat.mod_lt v (Nat.two_pow_pos 32)) (by decide)).mp
  rw [and_low32 (by decide)] at hz
  exact hz (not_not.mp h)

theorem encLen_neg (h : HighBit v) : utf8EncLen v = -1 := if_pos h

theorem low_enc (h : ¬HighBit v) : ∃ m, Enc (v % 2 ^ 32) m ∧ utf8EncLen v = m.length ∧ utf8Encode v m.length = m := by
  have henc := utf8Encode_enc (low_lt h)
  exact ⟨_,henc,(encLen_low v).symm.trans henc.encLen,(encode_low v _).symm.trans henc.encode⟩

/-! ## Lists of values -/

theorem utf32ToUtf8From_low (dlen : Option ℕ) (tlen : ℕ) (vs : List ℕ) :
    utf32ToUtf8From dlen tlen (vs.map (· % 2 ^ 32)) = utf32ToUtf8From dlen tlen vs := by
  induction vs generalizing dlen tlen with
  | nil => rfl
  | cons v vs ih =>
    have hput : ∀ n, utf8Put dlen (v % 2 ^ 32) n = utf8Put dlen v n := by
      intro n
      cases dlen with
      | none => rfl
      | some d => rw [utf8Put,utf8Put,encode_low]
    simp only [List.map_cons, utf32ToUtf8From, encLen_low, hput, ih]

theorem encs_low (h : ∀ v ∈ vs, ¬HighBit v) : ∃ str, Encs (vs.map (· % 2 ^ 32)) str ∧ str.length = encTotal vs := by
  induction vs with
  | nil => exact ⟨[],.nil,rfl⟩
  | cons v vs ih =>
    obtain ⟨hv,hvs⟩ := List.forall_mem_cons.mp h
    obtain ⟨str,hs,hlen⟩ := ih hvs
    obtain ⟨m,henc,hl,-⟩ := low_enc hv
    refine ⟨m ++ str,.cons henc hs,?_⟩
    rw [List.length_append,hlen,encTotal,encTotal,List.map_cons,List.sum_cons,hl,Int.toNat_natCast]

theorem utf32ToUtf8From_fails (h : (∃ v ∈ vs, HighBit v) ∨ intMax < tlen + encTotal vs) (ht : tlen ≤ intMax) (dlen : Option ℕ) :
    (utf32ToUtf8From dlen tlen vs).2 = -1 := by
  induction vs generalizing dlen tlen with
  | nil =>
    rcases h with ⟨v,hv,-⟩ | h
    · cases hv
    · exact absurd ht (not_le.mpr h)
  | cons v vs ih =>
    by_cases hv : HighBit v
    · simp only [utf32ToUtf8From, encLen_neg hv]
      rfl
    obtain ⟨m,-,hl,-⟩ := low_enc hv
    simp only [utf32ToUtf8From, hl, Int.toNat_natCast, if_neg (show ¬(m.length : ℤ) < 0 by omega)]
    by_cases hroom : intMax - tlen < m.length
    · rw [if_pos hroom]
    · rw [if_neg hroom]
      refine ih ?_ (by omega) _
      rcases h with ⟨u,hu,hb⟩ | h
      · rcases List.mem_cons.mp hu with rfl | hu
        · exact absurd hb hv
        · exact Or.inl ⟨u,hu,hb⟩
      · rw [encTotal,List.map_cons,List.sum_cons,hl,Int.toNat_natCast] at h
        rw [encTotal]
        omega

theorem utf32ToUtf8From_snd (dlen dlen' : Option ℕ) (tlen : ℕ) (vs : List ℕ) :
    (utf32ToUtf8From dlen tlen vs).2 = (utf32ToUtf8From dlen' tlen vs).2 := by
  induction vs generalizing dlen dlen' tlen with
  | nil => rfl
  | cons v vs ih =>
    simp only [utf32ToUtf8From]
    split
    · rfl
    · split
      · rfl
      · exact ih _ _ _

theorem utf32ToUtf8_snd (dlen dlen' : Option ℕ) (vs : List ℕ) : (utf32ToUtf8 dlen vs).2 = (utf32ToUtf8 dlen' vs).2 := by
  unfold utf32ToUtf8
  split
  · rfl
  · exact utf32ToUtf8From_snd dlen dlen' 0 vs

theorem utf32ToUtf8_fails (h : Refused vs) (dlen : Option ℕ) : (utf32ToUtf8 dlen vs).2 = -1 := by
  by_cases hlen : vs.length ≥ intMax
  · rw [utf32ToUtf8,if_pos hlen]
  · rw [utf32ToUtf8,if_neg hlen]
    refine utf32ToUtf8From_fails ?_ (Nat.zero_le _) dlen
    rw [Nat.zero_add]
    exact h.resolve_left hlen

theorem utf32ToUtf8_low (h : ¬Refused vs) : ∃ str, (∀ dlen ≥ str.length, utf32ToUtf8 (some dlen) vs = (str,(str.length : ℤ))) ∧
    ∀ n ≥ vs.length, utf8ToUtf32 n str = some (vs.map (· % 2 ^ 32),(vs.length : ℤ)) := by
  rw [Refused,not_or,not_or] at h
  obtain ⟨hlen,hbits,htotal⟩ := h
  obtain ⟨str,hs,hstr⟩ := encs_low fun v hv hb => hbits ⟨v,hv,hb⟩
  have hcount : (vs.map (· % 2 ^ 32)).length = vs.length := List.length_map _
  have hle := hs.length_le
  have hmax : str.length < 2 ^ 31 := by
    unfold intMax at htotal
    omega
  refine ⟨str,fun dlen hd => ?_,fun n hn => ?_⟩
  · rw [utf32ToUtf8,if_neg hlen,← utf32ToUtf8From_low,utf32ToUtf8From_encs hs hd (by omega),Nat.zero_add,toInt_eq hmax]
  · rw [utf8ToUtf32,utf8ToUtf32From_encs hs (by omega) (by omega),Nat.zero_add,hcount,toInt_eq (by omega)]

/-- Values come back through UTF-8 exactly when the conversion refuses them or none has a bit above the low 31. -/
theorem utf32_utf8_iff (vs : List ℕ) : ComesBack vs ↔ Refused vs ∨ ∀ v ∈ vs, v < 2 ^ 31 := by
  by_cases hr : Refused vs
  · refine iff_of_true (fun dlen str r h => Or.inl ?_) (Or.inl hr)
    have hfail := utf32ToUtf8_fails hr (some dlen)
    rwa [h] at hfail
  rw [or_iff_right hr]
  obtain ⟨str,hto,hback⟩ := utf32ToUtf8_low hr
  have hbits : ∀ v ∈ vs, ¬HighBit v := fun v hv hb => hr (Or.inr (Or.inl ⟨v,hv,hb⟩))
  constructor
  · intro h
    have hsame := ((h str.length str _ (hto _ le_rfl)).resolve_left (by omega)) (Int.le_refl _) vs.length le_rfl
    rw [hback _ le_rfl,Option.some_inj,Prod.mk.injEq] at hsame
    intro v hv
    have hmod : v % 2 ^ 32 = v := by
      rw [← hsame.1,List.mem_map] at hv
      obtain ⟨u,-,rfl⟩ := hv
      exact Nat.mod_mod u _
    exact hmod ▸ low_lt (hbits v hv)
  · intro h dlen out r hout
    have hid : vs.map (· % 2 ^ 32) = vs := by
      rw [List.map_congr_left fun v hv => Nat.mod_eq_of_lt ((h v hv).trans (by decide))]
      exact List.map_id vs
    refine Or.inr fun hroom => ?_
    have hr' := utf32ToUtf8_snd (some dlen) (some str.length) vs
    rw [hout,hto _ le_rfl] at hr'
    obtain rfl : r = str.length := hr'
    obtain ⟨rfl,-⟩ := Prod.mk.inj (hout.symm.trans (hto dlen (by omega)))
    rwa [hid] at hback

/-- The value 2^32 is written as a null byte, which is converted back to 0. -/
theorem utf32_utf8_wide : utf32ToUtf8 (some 1) [2 ^ 32] = ([0],1) ∧ utf8ToUtf32 1 [0] = some ([0],1) ∧ ¬ComesBack [2 ^ 32] := by
  have hto : utf32ToUtf8 (some 1) [2 ^ 32] = ([0],1) := rfl
  have hback : utf8ToUtf32 1 [0] = some ([0],1) := rfl
  refine ⟨hto,hback,fun h => ?_⟩
  have hsame := ((h 1 _ _ hto).resolve_left (by decide)) (by decide) 1 (by decide)
  rw [hback] at hsame
  cases hsame

end Catlib.Text
