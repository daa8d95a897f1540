import Catlib.Text.Optparse

/-! # Options come first

What an argument is depends on the table and on the arguments before it: an operand, an option, or the argument
of an option that ends in front of it. When the options are over, the options and their arguments stand behind
the name of the program and the operands behind them, both in the order in which they were given.
-/
namespace Catlib.Optparse

variable {α D : Type} {txt : α → Str} {lib : NumLib D} {clp clp' : CloptParser α D} {tb : List (ℤ × UInt8)} {a w : α}
  {os ns us : List α} {cp : Str} {o optp : Option ℕ} {r : ℤ}

/-! ## Operands -/

/-- What decides of an option whether it takes an argument. -/
def table (options : List (Clopt D)) : List (ℤ × UInt8) := options.map fun opt => (opt.type,opt.ch)

def takesArg (tb : List (ℤ × UInt8)) (c : UInt8) : Bool :=
  match tb.find? fun opt => isalnum opt.2 && opt.2 == c with
  | some opt => opt.1 ≠ cloptNoarg
  | none => false

/-- The first option of the cluster that takes an argument is the last one of it. -/
def wantsNext (tb : List (ℤ × UInt8)) : Str → Bool
  | [] => false
  | c :: cs => if takesArg tb c then cs = [] else wantsNext tb cs

/-- The options with their arguments, and the operands. The flag says that an option waits for its argument. -/
def split (txt : α → Str) (tb : List (ℤ × UInt8)) : Bool → List α → List α × List α
  | _, [] => ([],[])
  | true, w :: ws => (w :: (split txt tb false ws).1,(split txt tb false ws).2)
  | false, w :: ws =>
    if isOperand (txt w) then ((split txt tb false ws).1,w :: (split txt tb false ws).2)
    else if txt w = dashes then ([w],ws)
    else
      let rest := split txt tb ((txt w).take 2 ≠ dashes && wantsNext tb (txt w).tail) ws
      (w :: rest.1,rest.2)

theorem split_perm (txt : α → Str) (tb : List (ℤ × UInt8)) (b : Bool) (ws : List α) : ((split txt tb b ws).1 ++ (split txt tb b ws).2).Perm ws := by
  induction ws generalizing b with
  | nil => cases b <;> exact .refl _
  | cons w ws ih =>
    cases b with
    | true => exact (ih false).cons w
    | false =>
      rw [split]
      split_ifs
      · exact List.perm_middle.trans ((ih false).cons w)
      · exact .refl _
      · exact (ih _).cons w

theorem split_sublist (txt : α → Str) (tb : List (ℤ × UInt8)) (b : Bool) (ws : List α) : (split txt tb b ws).1.Sublist ws ∧ (split txt tb b ws).2.Sublist ws := by
  induction ws generalizing b with
  | nil => cases b <;> exact ⟨.refl _,.refl _⟩
  | cons w ws ih =>
    cases b with
    | true => exact ⟨(ih false).1.cons_cons w,(ih false).2.cons w⟩
    | false =>
      rw [split]
      split_ifs
      · exact ⟨(ih false).1.cons w,(ih false).2.cons_cons w⟩
      · exact ⟨(List.nil_sublist ws).cons_cons w,(List.Sublist.refl ws).cons w⟩
      · exact ⟨(ih _).1.cons_cons w,(ih _).2.cons w⟩

theorem split_operands {ms : List α} (hm : ∀ m ∈ ms, isOperand (txt m)) :
    split txt tb false (ms ++ us) = ((split txt tb false us).1,ms ++ (split txt tb false us).2) := by
  induction ms with
  | nil => rfl
  | cons m ms ih =>
    rw [List.forall_mem_cons] at hm
    rw [List.cons_append,split,if_pos hm.1,ih hm.2]
    rfl

/-! ## Where the parser stands -/

/-- The name of the program, the options so far, the operands so far and what was not looked at. -/
structure At (clp : CloptParser α D) (a : α) (os ns us : List α) : Prop where
  argv : clp.argv = a :: (os ++ ns ++ us)
  argc : clp.argc = clp.argv.length
  nonOpt : clp.nonOpt = 1 + os.length
  vidx : clp.vidx = (1 + os.length + ns.length : ℕ)

theorem movedown_spec (pre mid post : List α) :
    movedown (pre ++ mid ++ w :: post) pre.length (pre.length + mid.length) = some (pre ++ w :: mid ++ post) := by
  have hget : (pre ++ mid ++ w :: post)[pre.length + mid.length]? = some w := by
    rw [← List.length_append,List.getElem?_append_right (Nat.le_refl _)]
    simp
  rw [movedown,hget]
  by_cases hm : mid = []
  · simp [hm]
  · have hpos : 0 < mid.length := List.length_pos_iff.2 hm
    have hdrop : (pre ++ (mid ++ w :: post)).drop (pre.length + mid.length + 1) = post := by
      rw [← List.append_assoc,← List.length_append,← List.drop_drop,List.drop_left]
      rfl
    simp [hpos, hdrop]

theorem At.split_argv (h : At clp a os ns (w :: us)) :
    clp.argv = (a :: os) ++ ns ++ w :: us ∧ clp.nonOpt = (a :: os).length ∧ clp.vidx.toNat = (a :: os).length + ns.length := by
  refine ⟨by simp [h.argv],?_,?_⟩
  · rw [h.nonOpt,List.length_cons,Nat.add_comm]
  · rw [h.vidx,Int.toNat_natCast,List.length_cons,Nat.add_comm 1]

theorem At.entry (h : At clp a os ns us) (k : ℕ) : clp.argv[clp.vidx.toNat + k]? = us[k]? := by
  have he : a :: (os ++ ns ++ us) = (a :: (os ++ ns)) ++ us := by simp
  have hl : 1 + os.length + ns.length = (a :: (os ++ ns)).length := by
    simp only [List.length_cons, List.length_append]
    omega
  rw [h.argv,h.vidx,Int.toNat_natCast,he,hl,List.getElem?_append_right (Nat.le_add_right _ _),Nat.add_sub_cancel_left]

theorem At.consume (h : At clp a os ns (w :: us)) : ∃ clp', consume clp = some clp' ∧ At clp' a (os ++ [w]) ns us ∧
    clp'.options = clp.options ∧ clp'.chptr = clp.chptr := by
  obtain ⟨h1,h2,h3⟩ := h.split_argv
  have hm := movedown_spec (w := w) (a :: os) ns us
  rw [← h1,← h2] at hm
  rw [← h2] at h3
  refine ⟨{ clp with argv := a :: os ++ w :: ns ++ us, nonOpt := clp.nonOpt + 1, vidx := clp.vidx + 1 },?_,⟨by simp,?_,?_,?_⟩,rfl,rfl⟩
  · rw [Optparse.consume,h3,hm]
    exact Option.bind_some ..
  · rw [h.argc,h.argv]
    simp only [List.length_cons, List.length_append]
    push_cast
    omega
  · simp only [h.nonOpt, List.length_append, List.length_cons, List.length_nil]
    omega
  · simp only [h.vidx, List.length_append, List.length_cons, List.length_nil]
    push_cast
    omega

theorem At.argc_eq (h : At clp a os ns us) : clp.argc = clp.vidx + us.length := by
  rw [h.argc,h.argv,h.vidx]
  simp only [List.length_cons, List.length_append]
  push_cast
  omega

theorem skip_spec (txt : α → Str) (h : At clp a os ns us) {n : ℕ} (hn : us.length ≤ n) : ∃ ms us', us = ms ++ us' ∧ (∀ m ∈ ms, isOperand (txt m)) ∧
    (∀ w ∈ us'.head?, ¬isOperand (txt w)) ∧ skip txt clp.argv clp.argc n clp.vidx = some (clp.vidx + ms.length) := by
  induction n generalizing us ns clp with
  | zero =>
    obtain rfl : us = [] := List.length_eq_zero_iff.1 (Nat.le_zero.1 hn)
    exact ⟨[],[],rfl,by simp,by simp,by simp [skip]⟩
  | succ n ih =>
    have hargc := h.argc_eq
    cases us with
    | nil => exact ⟨[],[],rfl,by simp,by simp,by simp [skip, hargc]⟩
    | cons w us =>
      have hlt : clp.vidx < clp.argc := by
        rw [hargc,List.length_cons]
        push_cast
        omega
      have he := h.entry 0
      rw [Nat.add_zero,List.getElem?_cons_zero] at he
      by_cases hw : isOperand (txt w)
      · have h' : At { clp with vidx := clp.vidx + 1 } a os (ns ++ [w]) us := by
          refine ⟨by simp [h.argv],h.argc,h.nonOpt,?_⟩
          simp only [h.vidx, List.length_append, List.length_cons, List.length_nil]
          push_cast
          omega
        obtain ⟨ms,us',rfl,hms,hus,hs⟩ := ih h' (by rw [List.length_cons] at hn; omega)
        refine ⟨w :: ms,us',rfl,by simpa [hw] using hms,hus,?_⟩
        simp only [skip, hlt, if_true, he, Option.bind_eq_bind, Option.bind_some, hw]
        refine hs.trans ?_
        rw [List.length_cons]
        push_cast
        congr 1
        omega
      · exact ⟨[],w :: us,rfl,by simp,by simpa using hw,by simp [skip, hlt, he, hw]⟩

/-! ## Reading arguments -/

/-- The types that `optparse_reset` lets pass. -/
def Typed (tb : List (ℤ × UInt8)) : Prop := ∀ p ∈ tb, 0 ≤ p.1 ∧ p.1 ≤ 4

theorem readArg_spec (lib : NumLib D) {opt : Clopt D} (arg : Str) (h0 : opt.type ≠ cloptNoarg) (ht : 0 ≤ opt.type ∧ opt.type ≤ 4) :
    ∃ opt' r, readArg lib opt arg = some (opt',r) ∧ opt'.type = opt.type ∧ opt'.ch = opt.ch := by
  simp only [cloptNoarg] at h0
  by_cases h1 : opt.type = cloptString
  · exact ⟨_,_,if_pos h1,rfl,rfl⟩
  by_cases h2 : opt.type = cloptInt
  · exact ⟨_,_,(if_neg h1).trans (if_pos h2),rfl,rfl⟩
  by_cases h3 : opt.type = cloptUint
  · exact ⟨_,_,(if_neg h1).trans ((if_neg h2).trans (if_pos h3)),rfl,rfl⟩
  by_cases h4 : opt.type = cloptDouble
  · exact ⟨_,_,(if_neg h1).trans ((if_neg h2).trans ((if_neg h3).trans (if_pos h4))),rfl,rfl⟩
  · simp only [cloptString, cloptInt, cloptUint, cloptDouble] at h1 h2 h3 h4
    omega

theorem table_set {options : List (Clopt D)} {i : ℕ} {opt opt' : Clopt D} (hi : options[i]? = some opt) (ht : opt'.type = opt.type)
    (hc : opt'.ch = opt.ch) : table (options.set i opt') = table options := by
  rw [table,table,List.map_set]
  refine List.ext_getElem? fun j => ?_
  rw [List.getElem?_set]
  split
  · rename_i h
    subst h
    simp only [List.length_map, List.getElem?_map, hi, Option.map_some, ht, hc]
    rw [if_pos (List.getElem?_eq_some_iff.1 hi).1]
  · rfl

theorem typed_get {options : List (Clopt D)} (ht : Typed (table options)) {i : ℕ} {opt : Clopt D} (hi : options[i]? = some opt) :
    0 ≤ opt.type ∧ opt.type ≤ 4 := ht (opt.type,opt.ch) (List.mem_map_of_mem (List.mem_of_getElem? hi))

theorem takesArg_of_find {options : List (Clopt D)} {c : UInt8} {i : ℕ} {opt : Clopt D}
    (hf : options.findIdx? (fun opt => isalnum opt.ch && opt.ch == c) = some i) (hi : options[i]? = some opt) :
    takesArg (table options) c = decide (opt.type ≠ cloptNoarg) := by
  have hfind : options.find? (fun opt => isalnum opt.ch && opt.ch == c) = some opt := by
    rw [List.find?_eq_bind_findIdx?_getElem?,hf]
    exact hi
  rw [takesArg,table,List.find?_map]
  simp only [Function.comp_def, hfind, Option.map_some]

theorem At.store (h : At clp a os ns us) (options : List (Clopt D)) : At { clp with options := options } a os ns us :=
  ⟨h.argv,h.argc,h.nonOpt,h.vidx⟩

theorem At.point (h : At clp a os ns us) (c : Option Str) : At { clp with chptr := c } a os ns us := ⟨h.argv,h.argc,h.nonOpt,h.vidx⟩

theorem cloret_neg : cloretUnkopt < 0 ∧ cloretNoparam < 0 ∧ cloretBadparam < 0 ∧ cloretReset < 0 := by decide

/-! ## One option -/

/-- What one option of a cluster leads to: an error, the end of its entry, the end of the next entry, which was its
argument, or the rest of the cluster. -/
inductive ShortStep (tb : List (ℤ × UInt8)) (a : α) (os ns : List α) (w : α) (us : List α) (cp : Str) (clp' : CloptParser α D) (r : ℤ) : Prop
  | error (hf : clp'.argc = -1) (hr : r < 0)
  | last (hr : r = 0) (ht : table clp'.options = tb) (hat : At clp' a (os ++ [w]) ns us) (hc : clp'.chptr = none)
      (hw : wantsNext tb cp = false)
  | took (hr : r = 0) (ht : table clp'.options = tb) (x : α) (us' : List α) (hu : us = x :: us')
      (hat : At clp' a (os ++ [w] ++ [x]) ns us') (hc : clp'.chptr = none) (hw : wantsNext tb cp = true)
  | more (hr : r = 0) (ht : table clp'.options = tb) (cp' : Str) (hat : At clp' a os ns (w :: us)) (hc : clp'.chptr = some cp')
      (hn : cp' ≠ []) (hw : wantsNext tb cp' = wantsNext tb cp)

theorem parseShortOpts_spec (txt : α → Str) (lib : NumLib D) (h : At clp a os ns (w :: us)) (ht : table clp.options = tb) (hty : Typed tb) (hc : clp.chptr = some cp)
    (hcp : cp ≠ []) : ∃ out, parseShortOpts txt lib clp = some out ∧ ShortStep tb a os ns w us cp out.1 out.2.2 := by
  subst ht
  obtain ⟨c,cs,rfl⟩ := List.exists_cons_of_ne_nil hcp
  simp only [parseShortOpts, hc, Option.bind_eq_bind, Option.bind_some, List.headD_cons, List.tail_cons]
  cases hf : clp.options.findIdx? fun opt => isalnum opt.ch && opt.ch == c with
  | none => exact ⟨_,rfl,.error rfl cloret_neg.1⟩
  | some i =>
    obtain ⟨opt,hi⟩ : ∃ opt, clp.options[i]? = some opt := by
      obtain ⟨hlt,-⟩ := List.findIdx?_eq_some_iff_getElem.1 hf
      exact ⟨_,List.getElem?_eq_getElem hlt⟩
    have htakes := takesArg_of_find hf hi
    have hty' := typed_get hty hi
    simp only [hi, Option.bind_some]
    by_cases h0 : opt.type = cloptNoarg
    · have hw : wantsNext (table clp.options) (c :: cs) = wantsNext (table clp.options) cs := by
        rw [wantsNext,htakes]
        simp [h0]
      simp only [h0, ne_eq, not_true_eq_false, if_false]
      by_cases hcs : cs = []
      · obtain ⟨k,hk,hat,ho,-⟩ := h.consume
        subst hcs
        simp only [if_true, hk, Option.bind_some]
        exact ⟨_,rfl,.last rfl (congrArg table ho) (hat.point none) rfl hw⟩
      · simp only [hcs, if_false]
        exact ⟨_,rfl,.more rfl rfl cs (h.point _) rfl hcs hw.symm⟩
    · have hw : wantsNext (table clp.options) (c :: cs) = decide (cs = []) := by
        rw [wantsNext,htakes]
        simp [h0]
      simp only [h0, ne_eq, not_false_eq_true, if_true]
      by_cases hcs : cs = []
      · subst hcs
        simp only [not_true_eq_false, if_false]
        by_cases hend : clp.vidx ≥ clp.argc - 1
        · simp only [hend, if_true]
          exact ⟨_,rfl,.error rfl cloret_neg.2.1⟩
        · have hargc := h.argc_eq
          obtain ⟨x,us',rfl⟩ : ∃ x us', us = x :: us' := by
            refine List.exists_cons_of_ne_nil ?_
            rintro rfl
            simp only [List.length_singleton] at hargc
            omega
          have hx := h.entry 1
          obtain ⟨opt',r,hr,h1,h2⟩ := readArg_spec lib (txt x) h0 hty'
          have hset := table_set hi h1 h2
          simp only [hend, if_false, hx, List.getElem?_cons_succ, List.getElem?_cons_zero, Option.bind_some, hr]
          by_cases hneg : r < 0
          · simp only [hneg, if_true]
            exact ⟨_,rfl,.error rfl cloret_neg.2.2.1⟩
          · obtain ⟨k,hk,hat,ho,-⟩ := (h.store (clp.options.set i opt')).consume
            obtain ⟨k',hk',hat',ho',-⟩ := hat.consume
            simp only [hneg, if_false, hc] at hk ⊢
            simp only [hk, hk', Option.bind_some]
            exact ⟨_,rfl,.took rfl ((congrArg table (ho'.trans ho)).trans hset) x us' rfl (hat'.point none) rfl hw⟩
      · obtain ⟨opt',r,hr,h1,h2⟩ := readArg_spec lib cs h0 hty'
        have hset := table_set hi h1 h2
        simp only [hcs, not_false_eq_true, if_true, hr, Option.bind_some]
        by_cases hneg : r < 0
        · simp only [hneg, if_true]
          exact ⟨_,rfl,.error rfl cloret_neg.2.2.1⟩
        · obtain ⟨k,hk,hat,ho,-⟩ := (h.store (clp.options.set i opt')).consume
          simp only [hneg, if_false, hc] at hk ⊢
          simp only [hk, Option.bind_some]
          exact ⟨_,rfl,.last rfl ((congrArg table ho).trans hset) (hat.point none) rfl (by rw [hw]; exact decide_eq_false hcs)⟩

theorem findLong_get {options : List (Clopt D)} {n i : ℕ} (hf : findLong options cp n = some i) : ∃ opt, options[i]? = some opt := by
  rw [findLong] at hf
  split at hf
  · rename_i j hj
    cases hf
    obtain ⟨hlt,-⟩ := List.findIdx?_eq_some_iff_getElem.1 hj
    exact ⟨_,List.getElem?_eq_getElem hlt⟩
  · split at hf
    · cases hf
    · rename_i hne
      cases hf
      have hlt : options.length - 1 < options.length := Nat.sub_lt (List.length_pos_iff.2 hne) Nat.one_pos
      exact ⟨_,List.getElem?_eq_getElem hlt⟩

/-- A long option is an error or the end of its entry. -/
inductive LongStep (clp : CloptParser α D) (a : α) (os ns : List α) (w : α) (us : List α) (clp' : CloptParser α D) (r : ℤ) : Prop
  | error (hf : clp'.argc = -1) (hr : r < 0)
  | done (hr : r = 0) (ht : table clp'.options = table clp.options) (hat : At clp' a (os ++ [w]) ns us) (hc : clp'.chptr = clp.chptr)

theorem parseLongOpt_spec (txt : α → Str) (lib : NumLib D) (h : At clp a os ns (w :: us)) (hty : Typed (table clp.options)) :
    ∃ out, parseLongOpt txt lib clp = some out ∧ LongStep clp a os ns w us out.1 out.2.2 := by
  have hw := h.entry 0
  rw [Nat.add_zero,List.getElem?_cons_zero] at hw
  simp only [parseLongOpt, hw, Option.bind_eq_bind, Option.bind_some]
  cases hf : findLong clp.options (txt w) ((txt w).findIdx (· == 61)) with
  | none => exact ⟨_,rfl,.error rfl cloret_neg.1⟩
  | some i =>
    obtain ⟨opt,hi⟩ := findLong_get hf
    have hty' := typed_get hty hi
    simp only [hi, Option.bind_some]
    generalize (if (txt w).findIdx (· == 61) < (txt w).length then some ((txt w).drop ((txt w).findIdx (· == 61) + 1)) else none) = arg
    by_cases h0 : opt.type = cloptNoarg
    · simp only [h0, ne_eq, not_true_eq_false, if_false]
      cases arg with
      | some arg => exact ⟨_,rfl,.error rfl cloret_neg.2.2.1⟩
      | none =>
        obtain ⟨k,hk,hat,ho,hc⟩ := h.consume
        simp only [hk, Option.bind_some]
        exact ⟨_,rfl,.done rfl (congrArg table ho) hat hc⟩
    · simp only [h0, ne_eq, not_false_eq_true, if_true]
      cases arg with
      | none => exact ⟨_,rfl,.error rfl cloret_neg.2.1⟩
      | some arg =>
        obtain ⟨opt',r,hr,h1,h2⟩ := readArg_spec lib arg h0 hty'
        simp only [hr, Option.bind_some]
        by_cases hneg : r < 0
        · simp only [hneg, if_true]
          exact ⟨_,rfl,.error rfl cloret_neg.2.2.1⟩
        · obtain ⟨k,hk,hat,ho,hc⟩ := (h.store (clp.options.set i opt')).consume
          simp only [hneg, if_false, hk, Option.bind_some]
          exact ⟨_,rfl,.done rfl ((congrArg table ho).trans (table_set hi h1 h2)) hat hc⟩

/-! ## Every call -/

/-- The states of a parser on the array `a :: rest`: between two entries, in a cluster, behind a `--` and after an error. -/
inductive Inv (txt : α → Str) (tb : List (ℤ × UInt8)) (a : α) (rest : List α) : CloptParser α D → Prop
  | between {clp : CloptParser α D} {os ns us : List α} (ht : table clp.options = tb) (hat : At clp a os ns us) (hc : clp.chptr = none)
      (hs : split txt tb false rest = (os ++ (split txt tb false us).1,ns ++ (split txt tb false us).2)) : Inv txt tb a rest clp
  | cluster {clp : CloptParser α D} {os ns us : List α} {w : α} {cp : Str} (ht : table clp.options = tb) (hat : At clp a os ns (w :: us))
      (hc : clp.chptr = some cp) (hn : cp ≠ [])
      (hs : split txt tb false rest = (os ++ w :: (split txt tb (wantsNext tb cp) us).1,ns ++ (split txt tb (wantsNext tb cp) us).2)) :
      Inv txt tb a rest clp
  | ended {clp : CloptParser α D} (hv : clp.vidx < 0) (hp : 0 < clp.argc) (hn : clp.nonOpt = 1 + (split txt tb false rest).1.length)
      (ha : clp.argv = a :: ((split txt tb false rest).1 ++ (split txt tb false rest).2)) : Inv txt tb a rest clp
  | failed {clp : CloptParser α D} (hf : clp.argc ≤ 0) : Inv txt tb a rest clp

/-- What an end of the options comes with. -/
def Done (txt : α → Str) (tb : List (ℤ × UInt8)) (a : α) (rest : List α) (out : Outcome α D) : Prop :=
  0 < out.2.2 → out.2.2 = (1 + (split txt tb false rest).1.length : ℕ) ∧
    out.1.argv = a :: ((split txt tb false rest).1 ++ (split txt tb false rest).2)

variable {rest : List α}

theorem cluster_step (hty : Typed tb) (ht : table clp.options = tb) (hat : At clp a os ns (w :: us)) (hc : clp.chptr = some cp) (hn : cp ≠ [])
    (hs : split txt tb false rest = (os ++ w :: (split txt tb (wantsNext tb cp) us).1,ns ++ (split txt tb (wantsNext tb cp) us).2)) :
    ∃ out, parseShortOpts txt lib clp = some out ∧ Inv txt tb a rest out.1 ∧ Done txt tb a rest out := by
  obtain ⟨out,he,hstep⟩ := parseShortOpts_spec txt lib hat ht hty hc hn
  have hno : out.2.2 ≤ 0 → Done txt tb a rest out := fun h hp => absurd hp (Int.not_lt.2 h)
  refine ⟨out,he,?_⟩
  cases hstep with
  | error hf hr => exact ⟨.failed (by rw [hf]; decide),hno (Int.le_of_lt hr)⟩
  | last hr ht' hat' hc' hw =>
    rw [hw] at hs
    exact ⟨.between ht' hat' hc' (by simpa using hs),hno (Int.le_of_eq hr)⟩
  | took hr ht' x us' hu hat' hc' hw =>
    rw [hw,hu,split] at hs
    exact ⟨.between ht' hat' hc' (by simpa using hs),hno (Int.le_of_eq hr)⟩
  | more hr ht' cp' hat' hc' hn' hw =>
    rw [← hw] at hs
    exact ⟨.cluster ht' hat' hc' hn' hs,hno (Int.le_of_eq hr)⟩

theorem At.pos (h : At clp a os ns us) : 0 < clp.argc ∧ 0 ≤ clp.vidx := by
  have h1 := h.argc_eq
  have h2 := h.vidx
  omega

theorem optparseNext_spec (lib : NumLib D) (hty : Typed tb) (hi : Inv txt tb a rest clp) (optp : Option ℕ) :
    ∃ out, optparseNext txt lib clp optp = some out ∧ Inv txt tb a rest out.1 ∧ Done txt tb a rest out := by
  cases hi with
  | failed hf =>
    refine ⟨_,if_pos hf,.failed hf,fun hp => ?_⟩
    exact absurd hp (Int.not_lt.2 (Int.le_of_lt cloret_neg.2.2.2))
  | ended hv hp hn ha =>
    refine ⟨_,(if_neg (Int.not_le.2 hp)).trans (if_pos hv),.ended hv hp hn ha,fun _ => ⟨?_,ha⟩⟩
    rw [hn]
  | cluster ht hat hc hn hs =>
    obtain ⟨hp,hv⟩ := hat.pos
    rw [optparseNext,if_neg (Int.not_le.2 hp),if_neg (Int.not_lt.2 hv),if_pos (by rw [hc]; rfl)]
    exact cluster_step hty ht hat hc hn hs
  | @between os ns us ht hat hc hs =>
    obtain ⟨hp,hv⟩ := hat.pos
    have hlen : us.length ≤ clp.argv.length := by
      rw [hat.argv]
      simp only [List.length_cons, List.length_append]
      omega
    obtain ⟨ms,us,rfl,hms,hus,hskip⟩ := skip_spec txt hat hlen
    rw [split_operands hms] at hs
    have hat' : At { clp with vidx := clp.vidx + ms.length } a os (ns ++ ms) us := by
      refine ⟨by simp [hat.argv],hat.argc,hat.nonOpt,?_⟩
      rw [hat.vidx,List.length_append]
      push_cast
      omega
    have hargc := hat'.argc_eq
    simp only at hargc
    rw [optparseNext,if_neg (Int.not_le.2 hp),if_neg (Int.not_lt.2 hv),if_neg (by rw [hc]; simp)]
    simp only [hskip, Option.bind_eq_bind, Option.bind_some]
    cases us with
    | nil =>
      rw [List.length_nil] at hargc
      rw [if_pos (by omega)]
      refine ⟨_,rfl,.between ht hat' hc (by simpa using hs),fun _ => ?_⟩
      rw [hs,hat.nonOpt]
      exact ⟨by simp [split],by simp [hat.argv, split]⟩
    | cons w us =>
      rw [List.length_cons] at hargc
      have hw : isOperand (txt w) = false := by simpa using hus w rfl
      have he := hat'.entry 0
      simp only [Nat.add_zero, List.getElem?_cons_zero] at he
      rw [if_neg (by push_cast at hargc; omega)]
      simp only [he, Option.bind_some]
      by_cases hd : txt w = dashes
      · -- the rest are operands, whatever they look like
        obtain ⟨h1,h2,h3⟩ := hat'.split_argv
        have hm := movedown_spec (w := w) (a :: os) (ns ++ ms) us
        simp only at h1 h2 h3
        rw [← h1,← h2] at hm
        rw [← h2] at h3
        rw [split,if_neg (by simp [hw]),if_pos hd] at hs
        have hnon : clp.nonOpt + 1 = 1 + (split txt tb false rest).1.length := by
          rw [hs,hat.nonOpt,List.length_append,List.length_singleton]
          omega
        have hall : a :: os ++ w :: (ns ++ ms) ++ us = a :: ((split txt tb false rest).1 ++ (split txt tb false rest).2) := by
          rw [hs]
          simp
        simp only [hd, if_true, h3, hm, Option.bind_some]
        exact ⟨_,rfl,.ended (show (-1 : ℤ) < 0 by decide) hp hnon hall,fun _ => ⟨congrArg Nat.cast hnon,hall⟩⟩
      · simp only [hd, if_false]
        by_cases hl : (txt w).take 2 = dashes
        · simp only [hl, if_true]
          simp only [split, hw, hd, hl, if_false, Bool.false_eq_true, ne_eq, not_true_eq_false, decide_false, Bool.false_and] at hs
          obtain ⟨out,hout,hstep⟩ := parseLongOpt_spec txt lib hat' (by rwa [ht])
          refine ⟨out,hout,?_⟩
          cases hstep with
          | error hf hr => exact ⟨.failed (by rw [hf]; decide),fun hp => absurd hp (Int.not_lt.2 (Int.le_of_lt hr))⟩
          | done hr ht' hat'' hc' =>
            exact ⟨.between (ht'.trans ht) hat'' (hc'.trans hc) (by simpa using hs),fun hp => absurd hp (Int.not_lt.2 (Int.le_of_eq hr))⟩
        · simp only [hl, if_false]
          simp only [split, hw, hd, hl, if_false, Bool.false_eq_true, ne_eq, not_false_eq_true, decide_true, Bool.true_and] at hs
          have hn : (txt w).tail ≠ [] := by
            simp only [isOperand, Bool.or_eq_false_iff, decide_eq_false_iff_not] at hw
            exact hw.2
          exact cluster_step hty ht (hat'.point (some (txt w).tail)) rfl hn (by simpa using hs)

/-! ## Runs -/

/-- The states of a parser after `optparse_reset` on an array took it, and calls of `optparse_next`. -/
inductive Run (txt : α → Str) (lib : NumLib D) (clp₀ : CloptParser α D) (argv : List α) : CloptParser α D → Prop
  | reset {clp : CloptParser α D} (h : optparseReset clp₀ argv = (clp,0)) : Run txt lib clp₀ argv clp
  | next {clp clp' : CloptParser α D} {optp o : Option ℕ} {r : ℤ} (hr : Run txt lib clp₀ argv clp)
      (h : optparseNext txt lib clp optp = some (clp',o,r)) : Run txt lib clp₀ argv clp'

variable {clp₀ : CloptParser α D} {argv : List α}

theorem optparseReset_spec (h : optparseReset clp₀ argv = (clp,0)) :
    ∃ a rest, argv = a :: rest ∧ Typed (table clp₀.options) ∧ Inv txt (table clp₀.options) a rest clp := by
  rw [optparseReset] at h
  split at h
  · simp at h
  · rename_i hlen
    split at h
    · simp at h
    · rename_i hany
      obtain ⟨a,rest,rfl⟩ := List.exists_cons_of_length_pos (Nat.not_lt.1 hlen)
      simp only [Prod.mk.injEq, and_true] at h
      subst h
      have hat : At { clp₀ with argc := (a :: rest).length, argv := a :: rest, vidx := 1, nonOpt := 1, chptr := none } a [] [] rest :=
        ⟨rfl,rfl,rfl,rfl⟩
      refine ⟨a,rest,rfl,?_,.between rfl hat rfl rfl⟩
      rintro ⟨t,c⟩ hp
      obtain ⟨opt,ho,he⟩ := List.mem_map.1 hp
      cases he
      simp only [List.any_eq_true, not_exists, not_and] at hany
      have := hany opt ho
      simp only [cloptNoarg, cloptDouble, Bool.or_eq_true, not_or] at this
      exact ⟨Int.not_lt.1 fun h => this.1.1 (decide_eq_true h),Int.not_lt.1 fun h => this.1.2 (decide_eq_true h)⟩

theorem run_inv (hr : Run txt lib clp₀ argv clp) :
    ∃ a rest, argv = a :: rest ∧ Typed (table clp₀.options) ∧ Inv txt (table clp₀.options) a rest clp := by
  induction hr with
  | reset h => exact optparseReset_spec h
  | next _ h ih =>
    obtain ⟨a,rest,ha,hty,hi⟩ := ih
    obtain ⟨out,hout,hinv,-⟩ := optparseNext_spec lib hty hi _
    rw [h] at hout
    cases hout
    exact ⟨a,rest,ha,hty,hinv⟩

/-- In every run every call of `optparse_next` comes back. When it reports the end of the options, the array is a
permutation of what it was: behind the name of the program stand the options with their arguments, and from the
index that was reported on the operands, both in their original order. -/
theorem optparse_permutes (hr : Run txt lib clp₀ argv clp) (optp : Option ℕ) : ∃ out, optparseNext txt lib clp optp = some out ∧
    (0 < out.2.2 → out.1.argv.Perm argv ∧
      out.1.argv.take out.2.2.toNat = argv.take 1 ++ (split txt (table clp₀.options) false (argv.drop 1)).1 ∧
      out.1.argv.drop out.2.2.toNat = (split txt (table clp₀.options) false (argv.drop 1)).2 ∧
      (split txt (table clp₀.options) false (argv.drop 1)).1.Sublist argv ∧
      (split txt (table clp₀.options) false (argv.drop 1)).2.Sublist argv) := by
  obtain ⟨a,rest,rfl,hty,hi⟩ := run_inv hr
  obtain ⟨out,hout,-,hdone⟩ := optparseNext_spec lib hty hi optp
  refine ⟨out,hout,fun hp => ?_⟩
  obtain ⟨h1,h2⟩ := hdone hp
  simp only [List.drop_succ_cons, List.drop_zero, List.take_succ_cons, List.take_zero]
  have hsub := split_sublist txt (table clp₀.options) false rest
  rw [h1,h2,Int.toNat_natCast,Nat.add_comm]
  refine ⟨(split_perm txt (table clp₀.options) false rest).cons a,?_,?_,hsub.1.cons a,hsub.2.cons a⟩
  · rw [List.take_succ_cons,List.take_left]
    rfl
  · rw [List.drop_succ_cons,List.drop_left]

/-- A program whose option `-a` takes no argument and whose option `-b` takes one. -/
def sampleTable : List (Clopt Unit) := [⟨0,97,none,.int 0⟩,⟨1,98,some (ascii "--bee"),.int 0⟩]

def sampleLib : NumLib Unit := ⟨fun _ => (0,0),fun _ => (0,0),fun _ => ((),0)⟩

def sampleParser : CloptParser Str Unit := ⟨sampleTable,0,[],0,0,none,[]⟩

def sampleArgv : List Str := ["prog","x","-ab","v","y"].map ascii

theorem optparse_permutes_first : ∃ out, optparseNext id sampleLib (optparseReset sampleParser sampleArgv).1 none = some out ∧
    (0 < out.2.2 → out.1.argv.Perm sampleArgv) := by
  have hr : Run id sampleLib sampleParser sampleArgv (optparseReset sampleParser sampleArgv).1 := .reset rfl
  obtain ⟨out,hout,h⟩ := optparse_permutes hr none
  exact ⟨out,hout,fun hp => (h hp).1⟩

/-- The last call of a run on `prog x -ab v y`. -/
example : ((optparseNext id sampleLib (optparseReset sampleParser sampleArgv).1 none).bind fun out =>
    (optparseNext id sampleLib out.1 none).bind fun out => (optparseNext id sampleLib out.1 none).map fun out => (out.1.argv,out.2.2)) =
    some (["prog","-ab","v","x","y"].map ascii,3) := by decide

end Catlib.Optparse
