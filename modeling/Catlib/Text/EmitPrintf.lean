import Catlib.Text.EmitFormat

/-! # The integers of emit_format.c and of printf

Both write a field of zeros and digits behind a sign or a prefix. They differ in what fills it, in zero, and in the
arguments that are shorts.
-/
namespace Catlib.Text
open Printf

variable {longlong cap left zero zero' : Bool} {d : Directive} {arg : BitVec 64} {fp : FormatParams} {lead buf s : List UInt8}
  {fill : UInt8}
  {width a b n radix k : ℕ} {v : ℤ}

/-! ## Digits -/

theorem pulled_eq (hb : 1 < radix) (hn : n < radix ^ k) : pulled radix cap k n = (Nat.digits radix n).map (digitChar cap) := by
  induction k generalizing n with
  | zero =>
    obtain rfl : n = 0 := Nat.lt_one_iff.mp hn
    rw [Nat.digits_zero]
    rfl
  | succ k ih =>
    rw [pulled]
    split
    · rename_i hpos
      have hdigit : (if n % radix < 10 then n % radix + 48 else if cap = true then n % radix - 10 + 65 else n % radix - 10 + 97) =
          if n % radix < 10 then 48 + n % radix else if cap = true then 55 + n % radix else 87 + n % radix := by
        split
        · exact Nat.add_comm ..
        · split <;> omega
      rw [Nat.digits_def' hb hpos,List.map_cons,← ih (Nat.div_lt_of_lt_mul (Nat.pow_succ' ▸ hn)),digitChar,← hdigit]
    · obtain rfl : n = 0 := by omega
      rw [Nat.digits_zero]
      rfl

theorem two_pow_le (hb : 1 < radix) (hn : n < 2 ^ 64) : n < radix ^ 64 := hn.trans_le (Nat.pow_le_pow_left hb 64)

theorem buf_unsigned (hb : 1 < radix) (hn : n < 2 ^ 64) : (if n = 0 then [48] else (pulled radix cap 64 n).reverse) =
    List.replicate (1 - (shown cap radix n).length) 48 ++ shown cap radix n := by
  split
  · rename_i hzero
    rw [hzero,shown_zero]
    rfl
  · have hpos : (shown cap radix n).length ≠ 0 := fun h => ‹¬n = 0› (shown_eq_nil (List.eq_nil_of_length_eq_zero h))
    rw [pulled_eq hb (two_pow_le hb hn),show 1 - (shown cap radix n).length = 0 by omega]
    rfl

theorem buf_signed (hv : v.natAbs < 2 ^ 64) :
    ((UInt8.ofNat (48 + (v.tmod 10).natAbs)) :: pulled 10 false 64 (v.tdiv 10).natAbs).reverse =
      List.replicate (1 - (shown false 10 v.natAbs).length) 48 ++ shown false 10 v.natAbs := by
  have hmod : (v.tmod 10).natAbs = v.natAbs % 10 := Int.natAbs_tmod ..
  have hdiv : (v.tdiv 10).natAbs = v.natAbs / 10 := Int.natAbs_tdiv ..
  rw [hmod,hdiv,pulled_eq (by decide) ((Nat.div_le_self ..).trans_lt (two_pow_le (by decide) hv))]
  rcases Nat.eq_zero_or_pos v.natAbs with hzero | hpos
  · rw [hzero,shown_zero]
    simp
  · have hdigit : UInt8.ofNat (48 + v.natAbs % 10) = digitChar false (v.natAbs % 10) := by
      rw [digitChar,if_pos (Nat.mod_lt _ (by decide))]
    have hlen : (shown false 10 v.natAbs).length ≠ 0 := fun h => hpos.ne' (shown_eq_nil (List.eq_nil_of_length_eq_zero h))
    rw [hdigit,← List.map_cons,← Nat.digits_def' (by decide) hpos,show 1 - (shown false 10 v.natAbs).length = 0 by omega]
    rfl

/-! ## Fields -/

theorem fmtDigits_justify (fp : FormatParams) (lead buf : List UInt8) (fill : UInt8) : fmtDigits fp lead buf fill =
    if maxInt < (lead.length + max fp.precision.toNat buf.length : ℕ) then none
    else some (((max fp.minwidth.toNat (lead.length + max fp.precision.toNat buf.length) : ℕ) : ℤ),
      justify (!fp.rightjust) fp.zerofill fill fp.minwidth.toNat lead (List.replicate (fp.precision.toNat - buf.length) 48 ++ buf)) := by
  have hdigits : (if fp.precision ≥ 0 ∧ fp.precision > buf.length then fp.precision else (buf.length : ℤ)) =
      (max fp.precision.toNat buf.length : ℕ) := by
    split <;> lia
  have hbody : (List.replicate (fp.precision.toNat - buf.length) (48 : UInt8) ++ buf).length = max fp.precision.toNat buf.length := by
    rw [List.length_append,List.length_replicate]
    lia
  rw [fmtDigits]
  dsimp only
  rw [hdigits,Nat.cast_add,add_comm (lead.length : ℤ)]
  refine ite_congr rfl (fun _ => rfl) fun _ => ?_
  generalize hm : max fp.precision.toNat buf.length = m at hbody ⊢
  have hzeros : ((m : ℤ) - buf.length).toNat = fp.precision.toNat - buf.length := by lia
  rcases Nat.lt_or_ge (m + lead.length) fp.minwidth.toNat with hwide | hfull
  · have hgt : fp.minwidth ≥ 0 ∧ fp.minwidth > (m : ℤ) + lead.length := by lia
    have hmax : ((max fp.minwidth.toNat (lead.length + m) : ℕ) : ℤ) = fp.minwidth := by lia
    rw [hmax]
    cases hz : fp.zerofill with
    | true =>
      have hfill : (fp.minwidth - lead.length - buf.length).toNat = fp.minwidth.toNat - (lead.length + m) +
          (fp.precision.toNat - buf.length) := by
        lia
      have hnd : (if fp.minwidth ≥ 0 ∧ fp.minwidth > (m : ℤ) + lead.length ∧ true = true then fp.minwidth - lead.length else (m : ℤ)) =
          fp.minwidth - lead.length := if_pos ⟨hgt.1,hgt.2,rfl⟩
      have hno : ¬(fp.minwidth ≥ 0 ∧ fp.minwidth > fp.minwidth - lead.length + lead.length) := by lia
      rw [hnd,if_neg hno,if_neg hno,Int.sub_add_cancel,justify,if_pos rfl,hbody,hfill,List.replicate_add]
      simp only [ite_self, List.replicate_zero, List.nil_append, List.append_nil, List.append_assoc]
    | false =>
      have hpad : (fp.minwidth - ((m : ℤ) + lead.length)).toNat = fp.minwidth.toNat - (lead.length + m) := by lia
      have hnd : (if fp.minwidth ≥ 0 ∧ fp.minwidth > (m : ℤ) + lead.length ∧ false = true
          then fp.minwidth - lead.length else (m : ℤ)) = m :=
        if_neg fun h => Bool.false_ne_true h.2.2
      rw [hnd,if_pos hgt,if_pos hgt,justify,if_neg Bool.false_ne_true,hbody,hpad,hzeros]
      cases fp.rightjust <;> simp
  · have hle : ¬(fp.minwidth ≥ 0 ∧ fp.minwidth > (m : ℤ) + lead.length) := by lia
    have hmax : ((max fp.minwidth.toNat (lead.length + m) : ℕ) : ℤ) = (m : ℤ) + lead.length := by lia
    have hnd : (if fp.minwidth ≥ 0 ∧ fp.minwidth > (m : ℤ) + lead.length ∧ fp.zerofill = true
        then fp.minwidth - lead.length else (m : ℤ)) = m :=
      if_neg fun h => hle ⟨h.1,h.2.1⟩
    rw [hnd,if_neg hle,if_neg hle,hmax,hzeros,justify_full (by lia)]
    cases fp.rightjust <;> simp

theorem zeros_buf (p : ℕ) (s : List UInt8) : (List.replicate (1 - s.length) (48 : UInt8) ++ s).length = max 1 s.length ∧
    List.replicate (p - max 1 s.length) 48 ++ (List.replicate (1 - s.length) 48 ++ s) = List.replicate (max p 1 - s.length) 48 ++ s := by
  constructor
  · rw [List.length_append,List.length_replicate]
    lia
  · rw [← List.append_assoc,← List.replicate_add]
    congr 2
    lia

/-! ## What is written -/

/-- The bits that are read of an argument: a short is an int. -/
def readBits (sz : Size) : ℕ := if sz = .short then 32 else sz.bits

def readValue (d : Directive) (arg : BitVec 64) : ℤ :=
  if d.conv = .d then (arg.setWidth (readBits d.size)).toInt else (arg.setWidth (readBits d.size)).toNat

/-- The sign or the prefix, whatever the number. -/
def leadOf (d : Directive) (v : ℤ) : List UInt8 :=
  match d.conv with
  | .d => sign (.plus ∈ d.flags) (.space ∈ d.flags) v
  | .u => []
  | .o => if .alt ∈ d.flags then [48] else []
  | .x => if .alt ∈ d.flags then [48,120] else []
  | .X => if .alt ∈ d.flags then [48,88] else []

def digitsOf (d : Directive) (v : ℤ) : List UInt8 := shown (d.conv = .X) d.conv.base v.natAbs

def fillOf (conv : Conv) : UInt8 := if conv = .d then 32 else 48

def wrote (d : Directive) (v : ℤ) : List UInt8 :=
  justify (decide (.minus ∈ d.flags)) (decide (.zero ∈ d.flags)) (fillOf d.conv) d.fieldWidth (leadOf d v)
    (List.replicate (max (d.prec.getD 0) 1 - (digitsOf d v).length) 48 ++ digitsOf d v)

theorem fits_value {c : Count} (h : fits (some c) = true) : 0 ≤ c.value ∧ c.value ≤ maxInt := (fits_some c).mp h

theorem Taken.params (h : Taken longlong d) : (paramsOf d).precision.toNat = d.prec.getD 0 ∧ (paramsOf d).minwidth.toNat = d.fieldWidth ∧
    d.left = decide (.minus ∈ d.flags) := by
  obtain ⟨hwidth,hprec,-⟩ := h
  refine ⟨?_,?_,?_⟩
  · rw [paramsOf,precOf,Directive.prec]
    cases hp : d.precision with
    | none => rfl
    | some c =>
      rw [hp] at hprec
      have hc := (fits_value hprec).1
      rw [Option.elim_some,Option.bind_some,if_neg hc.not_gt,Option.getD_some]
      split
      · rename_i hnil
        cases c with
        | digits text h =>
          obtain rfl : text = [] := hnil
          rfl
        | star arg => cases hnil
      · rfl
  · rw [paramsOf,Directive.fieldWidth]
    cases hw : d.width with
    | none => rfl
    | some c =>
      rw [hw] at hwidth
      have hc := (fits_value hwidth).1
      show c.value.toNat = c.value.natAbs
      omega
  · rw [Directive.left]
    cases hw : d.width with
    | none => exact Bool.or_false _
    | some c =>
      rw [hw] at hwidth
      rw [Option.any_some,decide_eq_false (fits_value hwidth).1.not_gt,Bool.or_false]

/-- The length that has to be an int. -/
def lengthOf (d : Directive) (v : ℤ) : ℕ := (leadOf d v).length + max (d.prec.getD 0) (max 1 (digitsOf d v).length)

theorem length_wrote (d : Directive) (v : ℤ) : (wrote d v).length = max d.fieldWidth (lengthOf d v) := by
  rw [wrote,length_justify,List.length_append,List.length_replicate,lengthOf]
  lia

theorem fmtDigits_wrote (h : Taken longlong d) (hparams : fp = { paramsOf d with capver := decide (65 ≤ d.conv.char ∧ d.conv.char ≤ 90) })
    (hlead : lead = leadOf d v) (hbuf : buf = List.replicate (1 - (digitsOf d v).length) 48 ++ digitsOf d v)
    (hfill : fill = fillOf d.conv) :
    fmtDigits fp lead buf fill = if maxInt < lengthOf d v then none else some (((wrote d v).length : ℤ),wrote d v) := by
  subst hparams hlead hbuf hfill
  obtain ⟨hprec,hwidth,-⟩ := h.params
  obtain ⟨hlen,hbody⟩ := zeros_buf (d.prec.getD 0) (digitsOf d v)
  rw [fmtDigits_justify,length_wrote,wrote,lengthOf]
  dsimp only
  rw [hprec,hwidth,hlen,hbody]
  simp [paramsOf]

theorem natAbs_toInt_lt {w : ℕ} (x : BitVec w) (hw : w ≤ 64) : x.toInt.natAbs < 2 ^ 64 := by
  have hlt := BitVec.two_mul_toInt_lt (x := x)
  have hle := BitVec.le_two_mul_toInt (x := x)
  have hpow : (2 : ℤ) ^ w ≤ 2 ^ 64 := by exact_mod_cast Nat.pow_le_pow_right (by decide) hw
  omega

theorem readBits_le (sz : Size) : readBits sz ≤ 64 := by cases sz <;> decide

theorem getSArg_read (h : Taken longlong d) (hconv : d.conv = .d) (hfp : fp.argsize = argSizeOf d.size) (more : List (BitVec 64)) :
    getSArg fp (arg :: more) = some (readValue d arg,more) := by
  have hsize := h.size
  unfold getSArg
  rw [hfp,readValue,if_pos hconv]
  cases hsz : d.size with
  | short => rfl
  | plain => rfl
  | long => exact congrArg some (Prod.ext (congrArg BitVec.toInt (BitVec.setWidth_eq arg).symm) rfl)
  | longlong => exact congrArg some (Prod.ext (congrArg BitVec.toInt (BitVec.setWidth_eq arg).symm) rfl)
  | char => exact (hsz ▸ hsize).elim
  | intmax => exact (hsz ▸ hsize).elim
  | sizet => exact (hsz ▸ hsize).elim
  | ptrdiff => exact (hsz ▸ hsize).elim

theorem getUArg_read (h : Taken longlong d) (hconv : d.conv ≠ .d) (hfp : fp.argsize = argSizeOf d.size) (more : List (BitVec 64)) :
    getUArg fp (arg :: more) = some ((readValue d arg).natAbs,more) ∧ (readValue d arg).natAbs < 2 ^ 64 := by
  have hsize := h.size
  unfold getUArg
  rw [hfp,readValue,if_neg hconv,Int.natAbs_natCast]
  refine ⟨?_,(BitVec.isLt _).trans_le (Nat.pow_le_pow_right (by decide) (readBits_le _))⟩
  cases hsz : d.size with
  | short => rfl
  | plain => rfl
  | long => exact congrArg some (Prod.ext (congrArg BitVec.toNat (BitVec.setWidth_eq arg).symm) rfl)
  | longlong => exact congrArg some (Prod.ext (congrArg BitVec.toNat (BitVec.setWidth_eq arg).symm) rfl)
  | char => exact (hsz ▸ hsize).elim
  | intmax => exact (hsz ▸ hsize).elim
  | sizet => exact (hsz ▸ hsize).elim
  | ptrdiff => exact (hsz ▸ hsize).elim

/-- What the formatter of a directive gives. -/
def Gives (d : Directive) (v : ℤ) (more : List (BitVec 64)) (r : Option Formatted) : Prop :=
  r = if maxInt < lengthOf d v then none else some (more,((wrote d v).length : ℤ),wrote d v)

theorem fmtInt_gives (h : Taken longlong d) (hconv : d.conv = .d)
    (hparams : fp = { paramsOf d with capver := decide (65 ≤ d.conv.char ∧ d.conv.char ≤ 90) }) (more : List (BitVec 64)) :
    Gives d (readValue d arg) more (fmtInt fp (arg :: more)) := by
  have harg : getSArg fp (arg :: more) = _ := getSArg_read h hconv (by rw [hparams]; rfl) more
  have hv : (readValue d arg).natAbs < 2 ^ 64 := by
    rw [readValue,if_pos hconv]
    exact natAbs_toInt_lt _ (readBits_le _)
  have hlead : (if readValue d arg < 0 then [45] else if fp.alwayssign = true then [43] else if fp.posspace = true then [32] else []) =
      leadOf d (readValue d arg) := by
    rw [leadOf,hconv,hparams]
    rfl
  have hdigits : digitsOf d (readValue d arg) = shown false 10 (readValue d arg).natAbs := by
    rw [digitsOf,hconv]
    rfl
  rw [Gives,fmtInt,harg]
  dsimp only [Option.bind_eq_bind, Option.bind_some]
  rw [hlead,buf_signed hv,fmtDigits_wrote h hparams rfl (by rw [hdigits]) (by rw [hconv]; rfl)]
  split <;> rfl

/-- The prefix of an unsigned conversion. -/
def apfxOf : Conv → List UInt8
  | .o => [48]
  | .x => [48,120]
  | .X => [48,120]
  | _ => []

theorem leadOf_unsigned (hconv : d.conv ≠ .d)
    (hparams : fp = { paramsOf d with capver := decide (65 ≤ d.conv.char ∧ d.conv.char ≤ 90) }) (v : ℤ) :
    (if fp.alternate = true then (apfxOf d.conv).map fun c => if fp.capver = true then toUpper c else c else []) = leadOf d v := by
  subst hparams
  obtain ⟨flags,width,precision,size,conv,hwidth⟩ := d
  by_cases halt : Flag.alt ∈ flags
  · cases conv with
    | d => exact (hconv rfl).elim
    | X =>
      simp [leadOf, paramsOf, halt, apfxOf, Conv.char]
      decide
    | _ => simp [leadOf, paramsOf, halt, apfxOf, Conv.char]
  · cases conv with
    | d => exact (hconv rfl).elim
    | _ => simp [leadOf, paramsOf, halt]

theorem fmtUArg_gives (h : Taken longlong d) (hconv : d.conv ≠ .d)
    (hparams : fp = { paramsOf d with capver := decide (65 ≤ d.conv.char ∧ d.conv.char ≤ 90) }) (more : List (BitVec 64)) :
    Gives d (readValue d arg) more (fmtUArg d.conv.base (apfxOf d.conv) fp (arg :: more)) := by
  obtain ⟨harg,hv⟩ := getUArg_read h hconv (show fp.argsize = argSizeOf d.size by rw [hparams]; rfl) more
  have hchar : fp.fmtchar ≠ 112 := by
    rw [hparams]
    show d.conv.char ≠ 112
    cases d.conv <;> decide
  have hcap : fp.capver = decide (d.conv = .X) := by
    rw [hparams]
    show decide (65 ≤ d.conv.char ∧ d.conv.char ≤ 90) = decide (d.conv = .X)
    cases d.conv <;> decide
  have hbase : 1 < d.conv.base := by cases d.conv <;> decide
  have hlead := leadOf_unsigned hconv hparams (readValue d arg)
  have htake : (if fp.alternate = true then ((apfxOf d.conv).take
      (if fp.alternate = true ∧ (fp.fmtchar ≠ 112 ∨ (readValue d arg).natAbs ≠ 0) then (apfxOf d.conv).length else 0)).map
        fun c => if fp.capver = true then toUpper c else c else []) = leadOf d (readValue d arg) := by
    rw [← hlead]
    cases halt : fp.alternate with
    | false => rfl
    | true => rw [if_pos rfl,if_pos rfl,if_pos ⟨rfl,.inl hchar⟩,List.take_length]
  have hbuf : List.replicate (1 - (shown (decide (d.conv = .X)) d.conv.base (readValue d arg).natAbs).length) 48 ++
      shown (decide (d.conv = .X)) d.conv.base (readValue d arg).natAbs = List.replicate (1 - (digitsOf d (readValue d arg)).length) 48 ++
        digitsOf d (readValue d arg) := rfl
  rw [Gives,fmtUArg,harg]
  dsimp only [Option.bind_eq_bind, Option.bind_some]
  rw [fmtU,htake,buf_unsigned hbase hv,hcap,hbuf,fmtDigits_wrote h hparams rfl rfl (show 48 = fillOf d.conv by rw [fillOf,if_neg hconv])]
  split <;> rfl

theorem findFormatter_conv (conv : Conv) :
    findFormatter conv.char = some (if conv = .d then fmtInt else fmtUArg conv.base (apfxOf conv)) := by
  cases conv <;> rfl

theorem emitFormatHelp_taken (h : Taken longlong d) (arg : BitVec 64) (rest : List UInt8) (more : List (BitVec 64)) :
    emitFormatHelp longlong (d.text ++ rest) (d.args arg ++ more) =
      if maxInt < lengthOf d (readValue d arg) then none
      else some (some (rest,more,((wrote d (readValue d arg)).length : ℤ),wrote d (readValue d arg))) := by
  have hchar : (paramsOf d).fmtchar ≠ 37 := by
    show d.conv.char ≠ 37
    cases d.conv <;> decide
  have hfind : findFormatter (paramsOf d).fmtchar = _ := findFormatter_conv d.conv
  rw [emitFormatHelp,(getFormatFlags_directive d arg rest more).1 h,Option.bind_some,formatWith,if_neg hchar]
  dsimp only
  rw [hfind]
  dsimp only
  have hgives : Gives d (readValue d arg) more ((if d.conv = .d then fmtInt else fmtUArg d.conv.base (apfxOf d.conv))
      { paramsOf d with capver := decide (65 ≤ (paramsOf d).fmtchar ∧ (paramsOf d).fmtchar ≤ 90) } (arg :: more)) := by
    split
    · exact fmtInt_gives h ‹_› rfl more
    · exact fmtUArg_gives h ‹_› rfl more
  rw [hgives]
  split <;> rfl

/-! ## What printf writes -/

/-- The zeros in front of the digits. -/
def bodyZeros (d : Directive) (v : ℤ) : ℕ :=
  if d.conv = .o ∧ .alt ∈ d.flags then max (d.prec.getD 1 - (digitsOf d v).length) 1 else d.prec.getD 1 - (digitsOf d v).length

def wroteZeros (d : Directive) (v : ℤ) : ℕ :=
  (if d.conv = .o ∧ .alt ∈ d.flags then 1 else 0) + (max (d.prec.getD 0) 1 - (digitsOf d v).length)

theorem base_le (conv : Conv) : 1 < conv.base ∧ conv.base ≤ 16 := by cases conv <;> decide

theorem body_eq (d : Directive) (v : ℤ) : d.body v = List.replicate (bodyZeros d v) 48 ++ digitsOf d v := by
  obtain ⟨hb,hb16⟩ := base_le d.conv
  rw [Directive.body,bodyZeros]
  show (if d.conv = .o ∧ .alt ∈ d.flags ∧ (List.replicate (d.prec.getD 1 - (digitsOf d v).length) 48 ++ digitsOf d v).head? ≠ some 48
    then 48 :: (List.replicate (d.prec.getD 1 - (digitsOf d v).length) 48 ++ digitsOf d v)
    else List.replicate (d.prec.getD 1 - (digitsOf d v).length) 48 ++ digitsOf d v) = _
  generalize d.prec.getD 1 - (digitsOf d v).length = m
  by_cases halt : d.conv = .o ∧ .alt ∈ d.flags
  · rw [if_pos halt]
    cases m with
    | zero => rw [if_pos ⟨halt.1,halt.2,head_shown _ hb hb16 _⟩]; rfl
    | succ m =>
      rw [if_neg fun h => h.2.2 rfl,Nat.max_eq_left (Nat.succ_le_succ (Nat.zero_le m))]
  · rw [if_neg halt,if_neg fun h => halt ⟨h.1,h.2.1⟩]

theorem bodyZeros_le (d : Directive) (v : ℤ) : bodyZeros d v ≤ wroteZeros d v := by
  rw [bodyZeros,wroteZeros]
  cases d.prec <;> split <;> simp only [Option.getD_none, Option.getD_some] <;> lia

theorem wrote_eq (hhex : d.conv = .x ∨ d.conv = .X → .alt ∈ d.flags → v ≠ 0) : wrote d v =
    justify (decide (.minus ∈ d.flags)) (decide (.zero ∈ d.flags)) (fillOf d.conv) d.fieldWidth (d.lead v)
      (List.replicate (wroteZeros d v) 48 ++ digitsOf d v) := by
  rw [wrote,wroteZeros]
  generalize digitsOf d v = s
  obtain ⟨flags,w,precision,size,conv,hw⟩ := d
  by_cases halt : Flag.alt ∈ flags
  · cases conv with
    | o =>
      have hzero : ∀ m, 48 :: (List.replicate m 48 ++ s) = List.replicate (1 + m) 48 ++ s := fun m => by
        rw [Nat.add_comm]
        rfl
      have hlead : leadOf ⟨flags,w,precision,size,.o,hw⟩ v = [48] := if_pos halt
      rw [hlead,justify_zero_lead,hzero,if_pos ⟨rfl,halt⟩]
      rfl
    | x => simp [leadOf, Directive.lead, halt, hhex (.inl rfl) halt]
    | X => simp [leadOf, Directive.lead, halt, hhex (.inr rfl) halt]
    | d => simp [leadOf, Directive.lead]
    | u => simp [leadOf, Directive.lead]
  · cases conv <;> simp [leadOf, Directive.lead, halt]

/-! ## The same output -/

theorem reading_ite {p : Prop} [Decidable p] {l : List UInt8} (h : reading b l = 0) : reading b (if p then l else []) = 0 := by
  split
  · exact h
  · rfl

theorem reading_leadOf (d : Directive) (v : ℤ) (b : ℕ) : reading b (leadOf d v) = 0 ∧ reading b (d.lead v) = 0 := by
  have ho : reading b [48] = 0 := by simp [reading, weigh_zero]
  have hx : weigh b 0 120 = 0 := by
    rw [weigh,if_neg (by decide),if_neg (by decide)]
    rfl
  have hX : weigh b 0 88 = 0 := by
    rw [weigh,if_neg (by decide),if_neg (by decide)]
    rfl
  rw [leadOf,Directive.lead]
  cases d.conv with
  | d => exact ⟨reading_sign ..,reading_sign ..⟩
  | u => exact ⟨rfl,rfl⟩
  | o => exact ⟨reading_ite ho,rfl⟩
  | x => exact ⟨reading_ite (by simp [reading, weigh_zero, hx]),reading_ite (by simp [reading, weigh_zero, hx])⟩
  | X => exact ⟨reading_ite (by simp [reading, weigh_zero, hX]),reading_ite (by simp [reading, weigh_zero, hX])⟩

theorem reading_output (d : Directive) (arg : BitVec 64) : reading d.conv.base (d.output arg) = (d.value arg).natAbs := by
  obtain ⟨hb,hb16⟩ := base_le d.conv
  rw [Directive.output,body_eq]
  exact reading_justify (reading_leadOf d _ _).2 (reading_zeros hb hb16 _ _ _) _ _ _

theorem value_le_read (hconv : d.conv ≠ .d) (arg : BitVec 64) : (d.value arg).natAbs ≤ (readValue d arg).natAbs := by
  rw [Directive.value,readValue,if_neg hconv,if_neg hconv,Int.natAbs_natCast,Int.natAbs_natCast,
    BitVec.toNat_setWidth,BitVec.toNat_setWidth,readBits]
  split
  · rename_i hshort
    rw [hshort]
    show arg.toNat % 2 ^ 16 ≤ arg.toNat % 2 ^ 32
    omega
  · exact le_rfl

theorem read_of_wrote (h : wrote d (readValue d arg) = d.output arg) : readValue d arg = d.value arg := by
  obtain ⟨hb,hb16⟩ := base_le d.conv
  have hout := reading_output d arg
  by_cases hconv : d.conv = .d
  · have hread : reading d.conv.base (wrote d (readValue d arg)) = (readValue d arg).natAbs := by
      rw [wrote,fillOf,if_pos hconv]
      exact reading_justify (reading_leadOf d _ _).1 (reading_zeros hb hb16 _ _ _) _ _ _
    have hsign : readValue d arg < 0 ↔ d.value arg < 0 := by
      have hlead : leadOf d (readValue d arg) = sign (.plus ∈ d.flags) (.space ∈ d.flags) (readValue d arg) := by
        rw [leadOf,hconv]
      have hlead' : d.lead (d.value arg) = sign (.plus ∈ d.flags) (.space ∈ d.flags) (d.value arg) := by
        rw [Directive.lead,hconv]
      rw [wrote,fillOf,if_pos hconv,Directive.output,body_eq,hlead,hlead'] at h
      rw [← mem_minus _ _ (readValue d arg) _ _ _ _ hb hb16,← mem_minus _ _ (d.value arg) _ _ _ _ hb hb16]
      exact Eq.to_iff (congrArg (fun l => (45 : UInt8) ∈ l) h)
    rw [h,hout] at hread
    omega
  · have hread : (readValue d arg).natAbs ≤ reading d.conv.base (wrote d (readValue d arg)) := by
      rw [wrote,fillOf,if_neg hconv]
      exact le_reading_justify (by omega) (reading_leadOf d _ _).1 (reading_zeros hb hb16 _ _ _) _ _ _
    rw [h,hout] at hread
    have hle := value_le_read hconv arg
    have hpos : 0 ≤ readValue d arg ∧ 0 ≤ d.value arg := by
      rw [Directive.value,readValue,if_neg hconv,if_neg hconv]
      exact ⟨Int.natCast_nonneg _,Int.natCast_nonneg _⟩
    omega

/-- The directives and arguments that come out as with printf. -/
structure AsPrintf (longlong : Bool) (d : Directive) (arg : BitVec 64) : Prop where
  taken : Taken longlong d
  short : readValue d arg = d.value arg
  shows : ¬(d.value arg = 0 ∧ d.prec = some 0)
  hex : d.conv = .x ∨ d.conv = .X → .alt ∈ d.flags → d.value arg ≠ 0
  octal : d.conv = .o → .alt ∈ d.flags → d.value arg ≠ 0 ∧ d.prec.getD 0 ≤ (digitsOf d (d.value arg)).length ∨
    d.value arg = 0 ∧ d.zeroFill = true ∧ 2 ≤ d.fieldWidth
  fill : d.fieldWidth ≤ (d.lead (d.value arg)).length + (d.body (d.value arg)).length ∨
    (.zero ∈ d.flags → .minus ∉ d.flags ∧ d.prec = none) ∧ (d.conv ≠ .d → .minus ∉ d.flags)

/-- The printf of C writes the output of a directive if its length is an int; this is that the code writes it too, and reports its length. -/
def PrintsAs (longlong : Bool) (d : Directive) (arg : BitVec 64) (rest : List UInt8) (more : List (BitVec 64)) : Prop :=
  (d.output arg).length ≤ maxInt → emitFormatHelp longlong (d.text ++ rest) (d.args arg ++ more) =
    some (some (rest,more,((d.output arg).length : ℤ),d.output arg))

theorem filler_iff (h : d.left = decide (.minus ∈ d.flags)) :
    filler (decide (.minus ∈ d.flags)) (decide (.zero ∈ d.flags)) (fillOf d.conv) = filler d.left d.zeroFill 32 ↔
      (.zero ∈ d.flags → .minus ∉ d.flags ∧ d.prec = none) ∧ (d.conv ≠ .d → .minus ∉ d.flags) := by
  rw [Directive.zeroFill,h,fillOf,filler,filler]
  by_cases hconv : d.conv = .d <;> by_cases hminus : Flag.minus ∈ d.flags <;> by_cases hzero : Flag.zero ∈ d.flags <;> cases d.prec <;>
    simp [hconv, hminus, hzero]

theorem digitsOf_eq_zero (d : Directive) (v : ℤ) : (digitsOf d v).length = 0 ↔ v = 0 := by
  constructor
  · intro h
    exact Int.natAbs_eq_zero.mp (shown_eq_nil (List.eq_nil_of_length_eq_zero h))
  · rintro rfl
    rw [digitsOf,Int.natAbs_zero,shown_zero]
    rfl

theorem hex_of_wrote (hx : d.conv = .x ∨ d.conv = .X) (halt : .alt ∈ d.flags) (hv : v = 0) (left' zero' : Bool) (width : ℕ) :
    wrote d v ≠ justify left' zero' 32 width (d.lead v) (d.body v) := by
  intro h
  obtain ⟨c,hc48,hc32,hlead,hlead'⟩ : ∃ c : UInt8, c ≠ 48 ∧ c ≠ 32 ∧ leadOf d v = [48,c] ∧ d.lead v = [] := by
    obtain hx | hx := hx
    · exact ⟨120,by decide,by decide,by rw [leadOf,hx]; exact if_pos halt,by rw [Directive.lead,hx]; exact if_neg fun h => h.2 hv⟩
    · exact ⟨88,by decide,by decide,by rw [leadOf,hx]; exact if_pos halt,by rw [Directive.lead,hx]; exact if_neg fun h => h.2 hv⟩
  have hnil : digitsOf d v = [] := List.eq_nil_of_length_eq_zero ((digitsOf_eq_zero d v).mpr hv)
  have hfiller : filler left' zero' 32 ≠ c := by
    rw [filler]
    split
    · exact hc48.symm
    · exact (ite_self (32 : UInt8)).trans_ne hc32.symm
  have hzeros : ∀ m, (List.replicate m (48 : UInt8)).count c = 0 := fun m =>
    List.count_eq_zero.mpr fun h => hc48 (List.eq_of_mem_replicate h)
  have hone : [48,c].count c = 1 := by
    rw [List.count_cons_of_ne hc48.symm,List.count_cons_self,List.count_nil]
  have hcount := congrArg (List.count c) h
  rw [wrote,count_justify,count_justify,hlead,hlead',body_eq,hnil,if_neg hfiller,List.append_nil,List.append_nil,hzeros,hzeros,hone,
    List.count_nil] at hcount
  omega

theorem wrote_iff (h : Taken longlong d) (hhex : d.conv = .x ∨ d.conv = .X → .alt ∈ d.flags → v ≠ 0) :
    wrote d v = justify d.left d.zeroFill 32 d.fieldWidth (d.lead v) (d.body v) ↔
      ¬(v = 0 ∧ d.prec = some 0) ∧
      (d.conv = .o → .alt ∈ d.flags → v ≠ 0 ∧ d.prec.getD 0 ≤ (digitsOf d v).length ∨ v = 0 ∧ d.zeroFill = true ∧ 2 ≤ d.fieldWidth) ∧
      (d.fieldWidth ≤ (d.lead v).length + (d.body v).length ∨
        (.zero ∈ d.flags → .minus ∉ d.flags ∧ d.prec = none) ∧ (d.conv ≠ .d → .minus ∉ d.flags)) := by
  obtain ⟨-,-,hleft⟩ := h.params
  have hzero : d.zeroFill = true → decide (.zero ∈ d.flags) = true := by
    rw [Directive.zeroFill]
    simp only [Bool.and_eq_true, and_imp]
    exact fun h _ _ => h
  have hprec : d.zeroFill = true → d.prec = none := by
    rw [Directive.zeroFill]
    simp
  have hfill := filler_iff hleft
  have hfills : d.zeroFill = true → (.zero ∈ d.flags → .minus ∉ d.flags ∧ d.prec = none) ∧ (d.conv ≠ .d → .minus ∉ d.flags) := by
    rw [Directive.zeroFill,hleft]
    simp only [Bool.and_eq_true, Bool.not_eq_true', decide_eq_false_iff_not, Option.isNone_iff_eq_none]
    exact fun h => ⟨fun _ => ⟨h.1.2,h.2⟩,fun _ => h.1.2⟩
  have hn := digitsOf_eq_zero d v
  have hlead : d.conv = .o → (d.lead v).length = 0 := fun hconv => by rw [Directive.lead,hconv]; rfl
  rw [hleft] at hfill
  rw [wrote_eq hhex,body_eq,hleft,justify_zeros_iff hzero (bodyZeros_le d v),hfill]
  generalize ((Flag.zero ∈ d.flags → Flag.minus ∉ d.flags ∧ d.prec = none) ∧ (d.conv ≠ .d → Flag.minus ∉ d.flags)) = F at hfills ⊢
  rw [wroteZeros,bodyZeros]
  generalize (d.lead v).length + (List.replicate _ (48 : UInt8) ++ digitsOf d v).length = total
  generalize (digitsOf d v).length = n at hn ⊢
  generalize d.zeroFill = z at hprec hfills ⊢
  generalize (d.lead v).length = l at hlead ⊢
  have hz : ∀ p, d.prec = some p → z = false := fun p hp => Bool.eq_false_of_not_eq_true fun hz => by
    rw [hprec hz] at hp
    cases hp
  by_cases halt : d.conv = .o ∧ .alt ∈ d.flags
  · -- the prefix is one more zero, and printf has one only if there is none
    have hl := hlead halt.1
    rw [if_pos halt,if_pos halt,forall_prop_of_true halt.1,forall_prop_of_true halt.2]
    cases hp : d.prec with
    | none =>
      by_cases hv : v = 0
      · have hn0 := hn.mpr hv
        simp only [Option.getD_none, hv, hn0, hl]
        cases z <;> simp_all
      · have hmore : 1 + (max 0 1 - n) = 1 := by have := mt hn.mp hv; lia
        have hone : max (1 - n) 1 = 1 := by lia
        rw [Option.getD_none,Option.getD_none,hmore,hone]
        simp [hv]
    | some p =>
      rw [hz p hp,Option.getD_some,Option.getD_some]
      have hsame : 1 + (max p 1 - n) = max (p - n) 1 ↔ v ≠ 0 ∧ p ≤ n := by
        rw [Ne,← hn]
        lia
      simp only [hsame, Bool.false_eq_true, false_and, and_false, or_false]
      constructor
      · rintro ⟨h,ht⟩
        exact ⟨fun hno => h.1 hno.1,h,ht⟩
      · rintro ⟨-,h,ht⟩
        exact ⟨h,ht⟩
  · have hoctal : (d.conv = .o → .alt ∈ d.flags → v ≠ 0 ∧ d.prec.getD 0 ≤ n ∨ v = 0 ∧ z = true ∧ 2 ≤ d.fieldWidth) ↔ True :=
      iff_true_intro fun ho ha => absurd ⟨ho,ha⟩ halt
    rw [if_neg halt,if_neg halt,hoctal,true_and,Nat.zero_add]
    cases hp : d.prec with
    | none => simp
    | some p =>
      rw [hz p hp,Option.getD_some,Option.getD_some]
      have hsame : max p 1 - n = p - n ↔ ¬(v = 0 ∧ some p = some 0) := by
        rw [← hn,Option.some_inj]
        lia
      simp only [hsame, Bool.false_eq_true, false_and, and_false, or_false]

theorem emitFormatHelp_length (h : wrote d v = d.output arg) (hlen : (d.output arg).length ≤ maxInt) : ¬maxInt < lengthOf d v := by
  have hmax := length_wrote d v
  rw [h] at hmax
  omega

/-- The conversions of integers write what printf writes, and report its length, except for these: a length modifier that is not
known, or a negative argument for a star; a short that has more bits; a zero with a precision of zero; `#` with a zero, or an octal
number with `#` and a precision that has it begin with a zero; a field that is filled with zeros where spaces are due. -/
theorem emitFormatHelp_iff (longlong : Bool) (d : Directive) (arg : BitVec 64) (rest : List UInt8) (more : List (BitVec 64)) :
    PrintsAs longlong d arg rest more ↔ maxInt < (d.output arg).length ∨ AsPrintf longlong d arg := by
  rcases lt_or_ge maxInt ((d.output arg).length : ℤ) with hlong | hlen
  · exact iff_of_true (fun h => absurd h hlong.not_ge) (.inl hlong)
  rw [PrintsAs,forall_prop_of_true hlen,or_iff_right hlen.not_gt]
  by_cases htaken : Taken longlong d
  · rw [emitFormatHelp_taken htaken]
    constructor
    · intro h
      split at h
      · cases h
      · have hwrote : wrote d (readValue d arg) = d.output arg := (Prod.ext_iff.mp (Prod.ext_iff.mp (Prod.ext_iff.mp
          (Option.some_inj.mp (Option.some_inj.mp h))).2).2).2
        have hread := read_of_wrote hwrote
        rw [hread] at hwrote
        have hhex : d.conv = .x ∨ d.conv = .X → .alt ∈ d.flags → d.value arg ≠ 0 := fun hx ha hv => hex_of_wrote hx ha hv _ _ _ hwrote
        obtain ⟨hshows,hoctal,hfill⟩ := (wrote_iff htaken hhex).mp hwrote
        exact ⟨htaken,hread,hshows,hhex,hoctal,hfill⟩
    · rintro ⟨-,hread,hshows,hhex,hoctal,hfill⟩
      have hwrote : wrote d (d.value arg) = d.output arg := (wrote_iff htaken hhex).mpr ⟨hshows,hoctal,hfill⟩
      rw [hread,if_neg (emitFormatHelp_length hwrote hlen),hwrote]
  · rw [(getFormatFlags_directive d arg rest more).2 htaken]
    exact iff_of_false nofun fun h => htaken h.taken

/-- The directive `%-5u` of 7 is filled with zeros on its right. -/
def leftFive : Directive := ⟨[.minus],some (.digits [53] (List.forall_mem_singleton.mpr (by decide))),none,.plain,.u,by
  rintro _ _ ⟨rfl⟩
  decide⟩

theorem leftFive_zeros : leftFive.output 7 = [55,32,32,32,32] ∧
    emitFormatHelp true (leftFive.text ++ [0]) (leftFive.args 7 ++ []) = some (some ([0],[],5,[55,48,48,48,48])) ∧
    ¬PrintsAs true leftFive 7 [0] [] := by
  have hout : leftFive.output 7 = [55,32,32,32,32] := by decide +kernel
  have hrun : emitFormatHelp true (leftFive.text ++ [0]) (leftFive.args 7 ++ []) = some (some ([0],[],5,[55,48,48,48,48])) := by
    decide +kernel
  refine ⟨hout,hrun,fun h => ?_⟩
  have heq := hrun.symm.trans (h (by rw [hout]; decide))
  rw [hout] at heq
  revert heq
  decide

end Catlib.Text
