import Catlib.Text.Optparse
import Catlib.Logic.Numeral
import Mathlib.Algebra.Order.Group.Unbundled.Int

/-! # The lookup of a long option

The loop compares as many characters as the argument has before its equals sign, so a longer name
is found too, and what is left when the loop has found nothing is the last option of the table.
-/
namespace Catlib.Optparse
open Numeral

variable {α D : Type} {txt : α → Str} {lib : NumLib D} {clp : CloptParser α D} {opt : Clopt D} {entry : α}
  {cp arg : Str} {v : ℤ}

/-- The text before the equals sign. -/
def nameOf (cp : Str) : Str := cp.take (cp.findIdx (· == 61))

/-- The text behind it. -/
def argOf (cp : Str) : Option Str :=
  if cp.findIdx (· == 61) < cp.length then some (cp.drop (cp.findIdx (· == 61) + 1)) else none

/-- A value as `strtol` returns it. -/
def clampLong (v : ℤ) : ℤ := max (-2 ^ 63) (min v (2 ^ 63 - 1))

/-- A value as `strtoul` returns it: the sign is applied to the unsigned long. -/
def clampUlong (v : ℤ) : ℕ := if -2 ^ 64 < v ∧ v < 2 ^ 64 then (v % 2 ^ 64).toNat else 2 ^ 64 - 1

/-- What is left behind a number at the beginning, as a number of characters taken. -/
def taken (s : Str) : ℕ := (Numeral.read 0 s).elim 0 fun r => s.length - r.2.length

/-- The conversions of the C library: the longest number is taken, and what is out of range is clamped. -/
structure NumLib.Standard (lib : NumLib D) : Prop where
  strtol : ∀ s, lib.strtol s = ((Numeral.read 0 s).elim 0 fun r => clampLong r.1,taken s)
  strtoul : ∀ s, lib.strtoul s = ((Numeral.read 0 s).elim 0 fun r => clampUlong r.1,taken s)
  strtod : ∀ s, (lib.strtod s).2 ≤ s.length

/-- The value is that of the text, for the type of the option. -/
def Stores (lib : NumLib D) (type : ℤ) (arg : Str) (val : Val D) : Prop :=
  (type = cloptString → val = .str arg) ∧ (type = cloptInt → ∃ v, Denotes 0 arg v ∧ val = .int v) ∧
    (type = cloptUint → ∃ n : ℕ, Denotes 0 arg n ∧ val = .uint n) ∧
    (type = cloptDouble → (lib.strtod arg).2 = arg.length ∧ val = .dbl (lib.strtod arg).1)

/-- The option of that name is selected, or none if none has it, and its value is that of the argument. -/
structure LongRight (lib : NumLib D) (clp : CloptParser α D) (cp : Str) (out : Outcome α D) : Prop where
  unknown : (∀ opt ∈ clp.options, opt.str ≠ some (nameOf cp)) → out.2.2 = cloretUnkopt
  known : (∃ opt ∈ clp.options, opt.str = some (nameOf cp)) →
    ∃ i opt, out.2.1 = some i ∧ clp.options[i]? = some opt ∧ opt.str = some (nameOf cp)
  stored : out.2.2 = cloretOption → ∀ i opt, out.2.1 = some i → clp.options[i]? = some opt → opt.type ≠ cloptNoarg →
    ∃ arg opt', argOf cp = some arg ∧ out.1.options[i]? = some opt' ∧ Stores lib opt.type arg opt'.val

/-- The number fits the type of the option. -/
def FitsType (type : ℤ) (arg : Str) : Prop :=
  (type = cloptInt → ∀ v, Denotes 0 arg v → -2 ^ 31 ≤ v ∧ v < 2 ^ 31) ∧
    (type = cloptUint → ∀ v, Denotes 0 arg v → 0 ≤ v ∧ v < 2 ^ 32)

/-- The test of the loop: the name of the option begins with that of the argument. -/
def begins (cp : Str) (opt : Clopt D) : Bool :=
  opt.str.any fun s => s.take (cp.findIdx (· == 61)) == cp.take (cp.findIdx (· == 61))

/-- The table is empty, or its first option whose name begins like the argument has no longer name, and the
number fits. -/
def LongWhen (clp : CloptParser α D) (cp : Str) : Prop :=
  clp.options = [] ∨ ∃ opt, clp.options.find? (begins cp) = some opt ∧ opt.str = some (nameOf cp) ∧
    ∀ arg, argOf cp = some arg → FitsType opt.type arg

/-! ## One number -/

theorem read_whole (h : Denotes 0 arg v) : Numeral.read 0 arg = some (v,[]) := by
  obtain ⟨left,hr,hl⟩ := (@longest_iff 0 _ _ _ (by decide)).mp ⟨h,List.prefix_refl _,fun t' _ _ hp => hp.length_le⟩
  have hnil : left = [] := by simpa using hl
  rw [hr,hnil]

theorem partly_iff (arg : Str) : partly arg (taken arg) = false ↔ ∃ v, Denotes 0 arg v := by
  have hpartly : partly arg (taken arg) = false ↔ taken arg ≠ 0 ∧ arg.drop (taken arg) = [] ∧ arg ≠ [] := by
    simp [partly, and_assoc]
  rw [hpartly]
  cases hr : Numeral.read 0 arg with
  | none =>
    refine iff_of_false (fun h => h.1 (by rw [taken,hr]; rfl)) ?_
    rintro ⟨v,hd⟩
    exact (read_none_iff (by decide)).mp hr arg v (List.prefix_refl _) hd
  | some r =>
    obtain ⟨t,hs,hd⟩ := @read_denotes _ _ r.1 r.2 hr
    have ht : taken arg = t.length := by
      have := congrArg List.length hs
      rw [List.length_append] at this
      rw [taken,hr]
      show arg.length - r.2.length = t.length
      omega
    have hdrop : arg.drop (taken arg) = r.2 := by rw [ht,hs,List.drop_left]
    rw [hdrop,ht]
    constructor
    · rintro ⟨-,hleft,-⟩
      rw [hleft,List.append_nil] at hs
      exact ⟨r.1,hs ▸ hd⟩
    · rintro ⟨v,hv⟩
      have hnil : r.2 = [] := by
        rw [read_whole hv] at hr
        cases hr
        rfl
      exact ⟨fun h0 => hd.ne_nil (by decide) (List.length_eq_zero_iff.mp h0),hnil,hv.ne_nil (by decide)⟩

theorem toInt_clampLong (v : ℤ) : toInt (clampLong v) = v ↔ -2 ^ 31 ≤ v ∧ v < 2 ^ 31 := by
  unfold toInt clampLong
  omega

theorem clampUlong_mod (v : ℤ) : ((clampUlong v % 2 ^ 32 : ℕ) : ℤ) = v ↔ 0 ≤ v ∧ v < 2 ^ 32 := by
  unfold clampUlong
  split <;> omega

theorem readArg_stores (hlib : lib.Standard) (ht : cloptNoarg < opt.type ∧ opt.type ≤ cloptDouble) (arg : Str) :
    ∃ opt' r, readArg lib opt arg = some (opt',r) ∧ (0 ≤ r → (Stores lib opt.type arg opt'.val ↔ FitsType opt.type arg)) := by
  have hcases : opt.type = cloptString ∨ opt.type = cloptInt ∨ opt.type = cloptUint ∨ opt.type = cloptDouble := by
    simp only [cloptNoarg, cloptString, cloptInt, cloptUint, cloptDouble] at *
    omega
  unfold readArg Stores FitsType
  rcases hcases with h | h | h | h <;> rw [h]
  · refine ⟨_,_,if_pos rfl,fun _ => iff_of_true ⟨fun _ => rfl,?_,?_,?_⟩ ⟨?_,?_⟩⟩ <;> exact fun h => absurd h (by decide)
  · refine ⟨_,_,(if_neg (by decide)).trans (if_pos rfl),fun hr => ?_⟩
    have hwhole : partly arg (taken arg) = false := by
      rw [hlib.strtol] at hr
      by_contra hp
      rw [if_pos (by simpa using hp)] at hr
      exact absurd hr (by decide)
    obtain ⟨v,hv⟩ := (partly_iff arg).mp hwhole
    have hread : (lib.strtol arg).1 = clampLong v := by rw [hlib.strtol,read_whole hv]; rfl
    rw [hread]
    constructor
    · rintro ⟨-,hi,-,-⟩
      obtain ⟨w,hw,he⟩ := hi rfl
      cases he
      refine ⟨fun _ w' hw' => ?_,fun h => absurd h (by decide)⟩
      obtain rfl := hw'.unique (by decide) hv
      rw [← toInt_clampLong]
      exact hw.unique (by decide) hv
    · rintro ⟨hi,-⟩
      refine ⟨fun h => absurd h (by decide),fun _ => ⟨v,hv,?_⟩,fun h => absurd h (by decide),fun h => absurd h (by decide)⟩
      rw [(toInt_clampLong v).mpr (hi rfl v hv)]
  · refine ⟨_,_,(if_neg (by decide)).trans ((if_neg (by decide)).trans (if_pos rfl)),fun hr => ?_⟩
    have hwhole : partly arg (taken arg) = false := by
      rw [hlib.strtoul] at hr
      by_contra hp
      rw [if_pos (by simpa using hp)] at hr
      exact absurd hr (by decide)
    obtain ⟨v,hv⟩ := (partly_iff arg).mp hwhole
    have hread : (lib.strtoul arg).1 = clampUlong v := by rw [hlib.strtoul,read_whole hv]; rfl
    rw [hread]
    constructor
    · rintro ⟨-,-,hu,-⟩
      obtain ⟨n,hn,he⟩ := hu rfl
      cases he
      refine ⟨fun h => absurd h (by decide),fun _ w' hw' => ?_⟩
      obtain rfl := hw'.unique (by decide) hv
      rw [← clampUlong_mod]
      exact hn.unique (by decide) hv
    · rintro ⟨-,hu⟩
      refine ⟨fun h => absurd h (by decide),fun h => absurd h (by decide),fun _ => ⟨_,?_,rfl⟩,fun h => absurd h (by decide)⟩
      rwa [(clampUlong_mod v).mpr (hu rfl v hv)]
  · refine ⟨_,_,(if_neg (by decide)).trans ((if_neg (by decide)).trans ((if_neg (by decide)).trans (if_pos rfl))),fun hr => ?_⟩
    refine iff_of_true ⟨?_,?_,?_,fun _ => ⟨?_,rfl⟩⟩ ⟨?_,?_⟩
    · exact fun h => absurd h (by decide)
    · exact fun h => absurd h (by decide)
    · exact fun h => absurd h (by decide)
    · have hwhole : partly arg (lib.strtod arg).2 = false := by
        by_contra hp
        rw [if_pos (by simpa using hp)] at hr
        exact absurd hr (by decide)
      simp only [partly, Bool.or_eq_false_iff, decide_eq_false_iff_not, not_not, ne_eq] at hwhole
      have hlen := List.drop_eq_nil_iff.mp hwhole.1.2
      have := hlib.strtod arg
      omega
    · exact fun h => absurd h (by decide)
    · exact fun h => absurd h (by decide)

theorem readArg_unfit (hlib : lib.Standard) {opt' : Clopt D} {r : ℤ} (hr : readArg lib opt arg = some (opt',r))
    (h : ¬FitsType opt.type arg) : 0 ≤ r := by
  have hwhole : ∀ {v}, Denotes 0 arg v → partly arg (taken arg) = false := fun hv => (partly_iff arg).mpr ⟨_,hv⟩
  unfold readArg at hr
  by_cases hi : opt.type = cloptInt
  · rw [if_neg (by rw [hi]; decide),if_pos hi,hlib.strtol] at hr
    cases hr
    split
    · rename_i hp
      refine absurd ⟨fun _ v hv => ?_,fun hu => ?_⟩ h
      · rw [hwhole hv] at hp
        cases hp
      · rw [hi] at hu
        exact absurd hu (by decide)
    · exact le_rfl
  · by_cases hu : opt.type = cloptUint
    · rw [if_neg (by rw [hu]; decide),if_neg hi,if_pos hu,hlib.strtoul] at hr
      cases hr
      split
      · rename_i hp
        refine absurd ⟨fun h => absurd h hi,fun _ v hv => ?_⟩ h
        rw [hwhole hv] at hp
        cases hp
      · exact le_rfl
    · exact absurd ⟨fun h => absurd h hi,fun h => absurd h hu⟩ h

/-! ## The lookup -/

theorem consume_some (h : clp.argv[clp.vidx.toNat]? = some entry) :
    ∃ clp', consume clp = some clp' ∧ clp'.options = clp.options := by
  have hmove : ∃ argv, movedown clp.argv clp.nonOpt clp.vidx.toNat = some argv := by
    rw [movedown,h]
    simp only [Option.bind_eq_bind, Option.bind_some, Option.pure_def]
    split
    · exact ⟨_,rfl⟩
    · exact ⟨_,rfl⟩
  obtain ⟨argv,hargv⟩ := hmove
  exact ⟨{ clp with argv := argv, nonOpt := clp.nonOpt + 1, vidx := clp.vidx + 1 },by rw [consume,hargv]; rfl,rfl⟩

theorem parseLongOpt_eq (hentry : clp.argv[clp.vidx.toNat]? = some entry) {i : ℕ}
    (hfind : findLong clp.options (txt entry) ((txt entry).findIdx (· == 61)) = some i) (hopt : clp.options[i]? = some opt) :
    parseLongOpt txt lib clp =
      if opt.type ≠ cloptNoarg then
        match argOf (txt entry) with
        | none => some (fail clp (ascii "No parameter for option " ++ cloptName opt),some i,cloretNoparam)
        | some arg => (readArg lib opt arg).bind fun (opt',r) =>
          if r < 0 then
            some (fail { clp with options := clp.options.set i { opt' with val := .str arg } }
              (ascii "Bad parameter for option " ++ cloptName opt ++ ascii ": " ++ arg),some i,cloretBadparam)
          else (consume { clp with options := clp.options.set i opt' }).map fun clp => (clp,some i,cloretOption)
      else
        match argOf (txt entry) with
        | some arg => some (fail { clp with options := clp.options.set i { opt with val := .str arg } }
            (ascii "Unwanted parameter for option " ++ cloptName opt ++ ascii ": " ++ arg),some i,cloretBadparam)
        | none => (consume clp).map fun clp => (clp,some i,cloretOption) := by
  rw [parseLongOpt,hentry]
  simp only [Option.bind_eq_bind, Option.bind_some, Option.pure_def, hfind, hopt, Option.map_eq_bind, Function.comp_def, argOf]
  rfl

theorem parseLongOpt_found (hlib : lib.Standard) (hentry : clp.argv[clp.vidx.toNat]? = some entry) {i : ℕ}
    (hfind : findLong clp.options (txt entry) ((txt entry).findIdx (· == 61)) = some i) (hopt : clp.options[i]? = some opt)
    (ht : cloptNoarg ≤ opt.type ∧ opt.type ≤ cloptDouble) :
    ∃ clp' r, parseLongOpt txt lib clp = some (clp',some i,r) ∧ r ≠ cloretUnkopt ∧
      ((r = cloretOption → opt.type ≠ cloptNoarg → ∃ arg opt', argOf (txt entry) = some arg ∧
        clp'.options[i]? = some opt' ∧ Stores lib opt.type arg opt'.val) ↔
      ∀ arg, argOf (txt entry) = some arg → FitsType opt.type arg) := by
  have hlt : i < clp.options.length := (List.getElem?_eq_some_iff.mp hopt).1
  rw [parseLongOpt_eq hentry hfind hopt]
  by_cases hno : opt.type = cloptNoarg
  · have hfit : ∀ arg, argOf (txt entry) = some arg → FitsType opt.type arg := fun arg _ => by
      rw [hno]
      exact ⟨fun h => absurd h (by decide),fun h => absurd h (by decide)⟩
    rw [if_neg (not_not.mpr hno)]
    cases ha : argOf (txt entry) with
    | some arg => exact ⟨_,_,rfl,by decide,iff_of_true (fun _ h => absurd hno h) (ha ▸ hfit)⟩
    | none =>
      obtain ⟨clp',hc,-⟩ := consume_some hentry
      exact ⟨clp',_,by dsimp only; rw [hc]; rfl,by decide,iff_of_true (fun _ h => absurd hno h) (ha ▸ hfit)⟩
  · rw [if_pos hno]
    cases ha : argOf (txt entry) with
    | none => exact ⟨_,_,rfl,by decide,iff_of_true (fun h => absurd h (by decide)) nofun⟩
    | some arg =>
      have htype : cloptNoarg < opt.type ∧ opt.type ≤ cloptDouble := ⟨lt_of_le_of_ne ht.1 (Ne.symm hno),ht.2⟩
      obtain ⟨opt',r,hr,hiff⟩ := readArg_stores hlib htype arg
      dsimp only
      rw [hr,Option.bind_some]
      dsimp only
      have hcond : (∀ arg', some arg = some arg' → FitsType opt.type arg') ↔ FitsType opt.type arg :=
        ⟨fun h => h arg rfl,fun h arg' he => Option.some.inj he ▸ h⟩
      rw [hcond]
      by_cases hneg : r < 0
      · rw [if_pos hneg]
        refine ⟨_,_,rfl,by decide,iff_of_true (fun h => absurd h (by decide)) ?_⟩
        by_contra hunfit
        exact absurd (readArg_unfit hlib hr hunfit) (not_le.mpr hneg)
      · rw [if_neg hneg]
        obtain ⟨clp',hc,hopts⟩ := @consume_some _ _ { clp with options := clp.options.set i opt' } _ hentry
        have hnew : clp'.options[i]? = some opt' := by rw [hopts,List.getElem?_set_self hlt]
        refine ⟨clp',_,by rw [hc]; rfl,by decide,?_⟩
        rw [← hiff (not_lt.mp hneg)]
        constructor
        · intro h
          obtain ⟨arg',opt₂,ha',ho,hs⟩ := h rfl hno
          rw [hnew] at ho
          cases ha'
          cases ho
          exact hs
        · exact fun hs _ _ => ⟨arg,opt',rfl,hnew,hs⟩

theorem findLong_begins (options : List (Clopt D)) (cp : Str) : findLong options cp (cp.findIdx (· == 61)) =
    match options.findIdx? (begins cp) with
    | some i => some i
    | none => if options = [] then none else some (options.length - 1) := rfl

theorem begins_of_name (h : opt.str = some (nameOf cp)) : begins cp opt = true := by
  simp [begins, h, nameOf, List.take_take]

/-- **The lookup of a long option**, for any table and any argument: it returns, and what it returns is
right exactly where the first option that begins like the argument has just that name. -/
theorem parseLongOpt_iff (txt : α → Str) (lib : NumLib D) (clp : CloptParser α D) (entry : α) (hlib : lib.Standard)
    (hentry : clp.argv[clp.vidx.toNat]? = some entry)
    (htypes : ∀ opt ∈ clp.options, cloptNoarg ≤ opt.type ∧ opt.type ≤ cloptDouble) :
    ∃ out, parseLongOpt txt lib clp = some out ∧ (LongRight lib clp (txt entry) out ↔ LongWhen clp (txt entry)) := by
  by_cases hnil : clp.options = []
  · have hfind : findLong clp.options (txt entry) ((txt entry).findIdx (· == 61)) = none := by simp [findLong_begins, hnil]
    refine ⟨_,by rw [parseLongOpt,hentry]; simp only [Option.bind_eq_bind, Option.bind_some, hfind]; rfl,
      iff_of_true ⟨fun _ => rfl,fun ⟨opt,hm,_⟩ => ?_,fun h => absurd (show cloretUnkopt = cloretOption from h) (by decide)⟩
        (Or.inl hnil)⟩
    rw [hnil] at hm
    cases hm
  cases hi : clp.options.findIdx? (begins (txt entry)) with
  | none =>
    -- nothing begins like the argument, and the last option is taken
    have hlen : clp.options.length - 1 < clp.options.length := by
      have := List.length_pos_iff.mpr hnil
      omega
    have hopt := List.getElem?_eq_getElem hlen
    have hfind : findLong clp.options (txt entry) ((txt entry).findIdx (· == 61)) = some (clp.options.length - 1) := by
      rw [findLong_begins,hi]
      exact if_neg hnil
    obtain ⟨clp',r,hp,hr,-⟩ := parseLongOpt_found hlib hentry hfind hopt (htypes _ (List.getElem_mem hlen))
    have hno : ∀ opt ∈ clp.options, ¬begins (txt entry) opt = true := by simpa using hi
    refine ⟨_,hp,iff_of_false (fun h => hr (h.unknown fun opt hm hs => hno opt hm (begins_of_name hs))) ?_⟩
    rintro (h | ⟨opt,hf,-⟩)
    · exact hnil h
    · exact hno opt (List.mem_of_find?_eq_some hf) (List.find?_some hf)
  | some i =>
    obtain ⟨hlt,hb,hmin⟩ := List.findIdx?_eq_some_iff_getElem.mp hi
    have hopt := List.getElem?_eq_getElem hlt
    have hfirst : clp.options.find? (begins (txt entry)) = some clp.options[i] :=
      List.find?_eq_some_iff_getElem.mpr ⟨hb,i,hlt,rfl,fun j hj => by simpa using hmin j hj⟩
    have hfind : findLong clp.options (txt entry) ((txt entry).findIdx (· == 61)) = some i := by rw [findLong_begins,hi]
    obtain ⟨clp',r,hp,hr,hiff⟩ := parseLongOpt_found hlib hentry hfind hopt (htypes _ (List.getElem_mem hlt))
    refine ⟨_,hp,?_⟩
    constructor
    · intro h
      have hname : clp.options[i].str = some (nameOf (txt entry)) := by
        have hex : ∃ opt ∈ clp.options, opt.str = some (nameOf (txt entry)) := by
          by_contra hno
          exact hr (h.unknown fun opt hm hs => hno ⟨opt,hm,hs⟩)
        obtain ⟨j,opt,hj,ho,hs⟩ := h.known hex
        cases hj
        rw [hopt] at ho
        cases ho
        exact hs
      exact Or.inr ⟨_,hfirst,hname,hiff.mp fun hr0 hne => h.stored hr0 i _ rfl hopt hne⟩
    · rintro (h | ⟨opt,hf,hname,hfit⟩)
      · exact absurd h hnil
      · rw [hfirst] at hf
        cases hf
        refine ⟨fun hno => absurd hname (hno _ (List.getElem_mem hlt)),fun _ => ⟨i,_,rfl,hopt,hname⟩,
          fun hr0 j opt hj ho hne => ?_⟩
        cases hj
        rw [hopt] at ho
        cases ho
        exact hiff.mpr hfit hr0 hne

/-- The conversions as the C library has them, without floating point. -/
def cLib : NumLib Unit where
  strtol s := ((Numeral.read 0 s).elim 0 fun r => clampLong r.1,taken s)
  strtoul s := ((Numeral.read 0 s).elim 0 fun r => clampUlong r.1,taken s)
  strtod _ := ((),0)

theorem cLib_standard : cLib.Standard := ⟨fun _ => rfl,fun _ => rfl,fun _ => Nat.zero_le _⟩

/-- A parser that looks at one argument, with one option that takes an int. -/
def numberParser (arg : String) : CloptParser Str Unit where
  options := [⟨cloptInt,0,some (ascii "--number"),.int 0⟩]
  argc := 2
  argv := [[],ascii arg]
  vidx := 1
  nonOpt := 1
  chptr := none
  errbuf := []

theorem parseLongOpt_iff_number : ∃ out, parseLongOpt id cLib (numberParser "--number=0x2a") = some out ∧
    LongRight cLib (numberParser "--number=0x2a") (ascii "--number=0x2a") out := by
  obtain ⟨out,hr,hiff⟩ := parseLongOpt_iff id cLib (numberParser "--number=0x2a") (ascii "--number=0x2a") cLib_standard rfl
    (by decide)
  refine ⟨out,hr,hiff.mpr (Or.inr ⟨_,rfl,rfl,fun arg ha => ?_⟩)⟩
  obtain rfl : ascii "0x2a" = arg := Option.some.inj ha
  obtain ⟨t,ht,hd⟩ := @read_denotes 0 (ascii "0x2a") 42 [] rfl
  rw [List.append_nil] at ht
  refine ⟨fun _ v hv => ?_,fun h => absurd h (by decide)⟩
  obtain rfl := hv.unique (by decide) (ht ▸ hd)
  decide

/-- A beginning of a name selects it. -/
theorem parseLongOpt_num : ¬∀ (clp : CloptParser Str Unit) (entry : Str), clp.argv[clp.vidx.toNat]? = some entry →
    (∀ opt ∈ clp.options, cloptNoarg ≤ opt.type ∧ opt.type ≤ cloptDouble) →
    ∃ out, parseLongOpt id cLib clp = some out ∧ LongRight cLib clp entry out := by
  intro h
  obtain ⟨out,hr,hright⟩ := h (numberParser "--num=1") (ascii "--num=1") rfl (by decide)
  have hout : out.2.2 = cloretOption := by
    have : (parseLongOpt id cLib (numberParser "--num=1")).map (·.2.2) = some cloretOption := by decide
    rw [hr] at this
    exact Option.some.inj this
  have hno := hright.unknown (by decide)
  rw [hout] at hno
  exact absurd hno (by decide)

end Catlib.Optparse
