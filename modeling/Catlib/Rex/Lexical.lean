import Catlib.Rex.Grammar

/-! # Repetitions, strings and classes

Where the scan goes on, the parser goes on at the same place; where the scan reports an
error, the parser does.
-/
namespace Catlib.Rex

variable {pat s t m : List UInt8} {p : ℕ} {c : UInt8}

/-! ## Positions -/

/-- The pattern from a position on. -/
structure At (pat : List UInt8) (p : ℕ) (s : List UInt8) : Prop where
  le : p ≤ pat.length
  drop : pat.drop p = s

theorem At.add (h : At pat p (m ++ s)) : At pat (p + m.length) s := by
  have hlen := congrArg List.length h.drop
  rw [List.length_drop,List.length_append] at hlen
  have hle := h.le
  exact ⟨by omega,by rw [← List.drop_drop,h.drop,List.drop_left]⟩

theorem At.tail (h : At pat p (c :: s)) : At pat (p + 1) s :=
  At.add (m := [c]) h

theorem At.head (h : At pat p (c :: s)) : pat[p]? = some c := by
  rw [← List.head?_drop,h.drop,List.head?_cons]

theorem At.nil (h : At pat p []) : p = pat.length :=
  le_antisymm h.le (List.drop_eq_nil_iff.1 h.drop)

theorem At.lt (h : At pat p (c :: s)) : p < pat.length := by
  by_contra hge
  have hnil := List.drop_eq_nil_of_le (not_lt.1 hge)
  rw [h.drop] at hnil
  cases hnil

theorem At.length (h : At pat p s) : pat.length = p + s.length := by
  have hlen := congrArg List.length h.drop
  rw [List.length_drop] at hlen
  have hle := h.le
  omega

/-! ## Bounds -/

theorem le_value (v : ℕ) (ds : List UInt8) : v ≤ ds.foldl (fun v c => v * 10 + (c.toNat - 48)) v := by
  induction ds generalizing v with
  | nil => exact le_rfl
  | cons c ds ih =>
    have := ih (v * 10 + (c.toNat - 48))
    rw [List.foldl_cons]
    omega

theorem boundLoop_spec {v : ℕ} (hs : s.dropWhile isDigit = c :: t)
    (hv : (s.takeWhile isDigit).foldl (fun v c => v * 10 + (c.toNat - 48)) v ≤ intMax) :
    boundLoop v s = some ((s.takeWhile isDigit).foldl (fun v c => v * 10 + (c.toNat - 48)) v,(s.takeWhile isDigit).length) := by
  induction s generalizing v with
  | nil => cases hs
  | cons a s ih =>
    rw [boundLoop]
    by_cases ha : isDigit a = true
    · rw [List.dropWhile_cons_of_pos ha] at hs
      rw [List.takeWhile_cons_of_pos ha,List.foldl_cons] at hv ⊢
      have hle := le_value (v * 10 + (a.toNat - 48)) (s.takeWhile isDigit)
      rw [if_pos ha,if_neg (by omega),ih hs hv]
      rfl
    · rw [if_neg ha,List.takeWhile_cons_of_neg ha]
      rfl

theorem parseBound_spec (h : At pat p s) (hs : s.dropWhile isDigit = c :: t) (hv : value (s.takeWhile isDigit) ≤ intMax) :
    parseBound pat p = some (if s.takeWhile isDigit = [] then (internalWildcard,p)
      else if value (s.takeWhile isDigit) > 255 then (-1,p)
      else ((value (s.takeWhile isDigit) : ℤ),p + (s.takeWhile isDigit).length)) := by
  rw [parseBound,h.drop,boundLoop_spec hs hv]
  simp only [Option.bind_eq_bind, Option.bind_some, List.length_eq_zero_iff]
  split
  · rfl
  · change (if value (s.takeWhile isDigit) > 255 then _ else _) = _
    split <;> rfl

theorem At.digits (h : At pat p s) (hs : s.dropWhile isDigit = c :: t) : At pat (p + (s.takeWhile isDigit).length) (c :: t) := by
  rw [← List.takeWhile_append_dropWhile (p := isDigit) (l := s),hs] at h
  exact h.add

/-! ## Repetitions -/

/-- What a function of the parser has done, against the scan: `f` takes from its result the
position where it goes on. -/
def Follows {α : Type} (pat : List UInt8) (x : Scan) (r : Option (Except ℤ α)) (f : α → ℕ) : Prop :=
  match x with
  | .go s => ∃ a, r = some (.ok a) ∧ At pat (f a) s
  | .reject => ∃ e, r = some (.error e)
  | .slip => True

theorem parseUpper_spec {p₁ : ℕ} (m : List UInt8) (h : At pat p₁ s) :
    Follows pat (scanUpper m s) (parseUpper pat p (value m) p₁) fun r => r.2.2 := by
  rw [scanUpper]
  cases hd : s.dropWhile isDigit with
  | nil => trivial
  | cons c t =>
    dsimp only
    by_cases hv : value (s.takeWhile isDigit) > intMax
    · rw [if_pos hv]
      trivial
    have h2 := h.digits hd
    rw [if_neg hv,parseUpper,parseBound_spec h hd (not_lt.1 hv)]
    generalize s.takeWhile isDigit = n at *
    rw [Option.bind_eq_bind,Option.bind_some]
    by_cases hbig : value n > 255
    · have hn : n ≠ [] := by
        rintro rfl
        exact absurd hbig (by decide)
      rw [if_pos hbig,if_neg hn,if_pos hbig]
      exact ⟨p₁,rfl⟩
    rw [if_neg hbig]
    by_cases hn : n = []
    · subst hn
      have hc : pat[p₁]? = some c := h2.head
      rw [if_pos rfl,if_pos rfl]
      by_cases hcl : c = 125
      · rw [if_neg (by simp [hcl])]
        by_cases hmn : m = []
        · rw [if_pos hmn]
          trivial
        · rw [if_neg hmn]
          exact ⟨(value m,rexWildcard,p₁ + 1),by simp [internalWildcard, rexWildcard, hc, hcl],h2.tail⟩
      · rw [if_pos hcl]
        exact ⟨p₁,by simp [internalWildcard, rexWildcard, hc, hcl]⟩
    rw [if_neg hn,if_neg hn,if_neg hbig]
    have hc : pat[p₁ + n.length]? = some c := h2.head
    have hwild : (value n : ℤ) ≠ internalWildcard := by
      unfold internalWildcard
      omega
    dsimp only
    by_cases hzero : value n = 0
    · rw [if_pos (show (value n : ℤ) < 1 by omega)]
      have herr : Follows pat .reject (some (.error ((p₁ + n.length : ℕ) : ℤ)) : Option (Except ℤ (ℕ × ℕ × ℕ))) fun r => r.2.2 :=
        ⟨_,rfl⟩
      by_cases hlt : value m > value n
      · rw [if_pos hlt]
        exact herr
      · rw [if_neg hlt,if_pos hzero]
        split
        · trivial
        · exact herr
    rw [if_neg (show ¬(value n : ℤ) < 1 by omega),if_neg hwild]
    by_cases hlt : value m > value n
    · rw [if_pos hlt,if_pos ⟨hlt,hzero⟩]
      exact ⟨_,rfl⟩
    have hord : ¬(value m > ((value n : ℕ) : ℤ).toNat ∧ ((value n : ℕ) : ℤ).toNat ≠ rexWildcard) := fun h => hlt h.1
    rw [if_neg hlt,if_neg hzero,if_neg hord,hc,Option.bind_eq_bind,Option.bind_some]
    by_cases hcl : c = 125
    · rw [if_pos hcl,if_neg (not_not.2 hcl)]
      exact ⟨_,rfl,h2.tail⟩
    · rw [if_neg hcl,if_pos hcl]
      exact ⟨_,rfl⟩

theorem parseBraces_spec (h : At pat p (123 :: s)) : Follows pat (scanRep (123 :: s)) (parseBraces pat p) fun r => r.2.2 := by
  have h1 := h.tail
  rw [scanRep,if_pos rfl]
  cases hd : s.dropWhile isDigit with
  | nil => trivial
  | cons c t =>
    dsimp only
    by_cases hv : value (s.takeWhile isDigit) > intMax
    · rw [if_pos hv]
      trivial
    have h2 := h1.digits hd
    rw [if_neg hv,parseBraces,parseBound_spec h1 hd (not_lt.1 hv)]
    generalize s.takeWhile isDigit = m at *
    rw [Option.bind_eq_bind,Option.bind_some]
    by_cases hbig : value m > 255
    · have hm : m ≠ [] := by
        rintro rfl
        exact absurd hbig (by decide)
      rw [if_pos hbig,if_neg hm,if_pos hbig]
      exact ⟨_,rfl⟩
    rw [if_neg hbig]
    have hwild : (value m : ℤ) ≠ internalWildcard := by
      unfold internalWildcard
      omega
    -- the value, and the position behind it
    obtain ⟨v,hv,hpos,hmin,hone⟩ : ∃ v : ℤ, (if m = [] then (internalWildcard,p + 1) else if value m > 255 then (-1,p + 1)
        else ((value m : ℤ),p + 1 + m.length)) = (v,p + 1 + m.length) ∧ ¬v < 0 ∧
          (if v = internalWildcard then 0 else v.toNat) = value m ∧ (v < 1 → value m = 0) := by
      by_cases hm : m = []
      · subst hm
        exact ⟨internalWildcard,by rw [if_pos rfl]; rfl,by decide,by rw [if_pos rfl]; rfl,by decide⟩
      · exact ⟨value m,by rw [if_neg hm,if_neg hbig],by omega,by rw [if_neg hwild]; rfl,by omega⟩
    have hc : pat[p + 1 + m.length]? = some c := h2.head
    rw [hv]
    dsimp only
    rw [if_neg hpos,hmin,hc,Option.bind_eq_bind,Option.bind_some]
    by_cases hcomma : c = 44
    · subst hcomma
      rw [if_pos rfl,if_neg (not_not.2 rfl)]
      exact parseUpper_spec m h2.tail
    rw [if_pos hcomma,if_neg hcomma]
    by_cases hcl : c = 125
    · rw [if_neg (not_not.2 hcl)]
      split
      · trivial
      · rename_i hzero
        rw [if_neg (by simp only [hcl, ne_eq, not_true, false_or]; exact fun h => hzero (hone h))]
        exact ⟨_,rfl,h2.tail⟩
    · rw [if_pos hcl,if_pos (Or.inl hcl)]
      exact ⟨_,rfl⟩

/-- The fields that a repetition leaves alone. -/
structure SameNode (n n' : RexNode) : Prop where
  type : n'.type = n.type
  next : n'.next = n.next
  opt1 : n'.opt1 = n.opt1
  opt2 : n'.opt2 = n.opt2
  other : n'.other = n.other

theorem rexCheckRepitions_spec (n : RexNode) (h : At pat p s) :
    match scanRep s with
    | .go t => ∃ n' p', rexCheckRepitions pat n p = some (.ok (n',p')) ∧ At pat p' t ∧ SameNode n n'
    | .reject => ∃ e, rexCheckRepitions pat n p = some (.error e)
    | .slip => True := by
  cases s with
  | nil => exact ⟨n,p,by rw [rexCheckRepitions,if_pos h.nil],h,rfl,rfl,rfl,rfl,rfl⟩
  | cons c s =>
    have hc := h.head
    have hne : p ≠ pat.length := ne_of_lt h.lt
    rw [rexCheckRepitions,if_neg hne,hc]
    by_cases hbrace : c = 123
    · subst hbrace
      have hb := parseBraces_spec h
      cases hscan : scanRep (123 :: s) with
      | slip => trivial
      | reject =>
        rw [hscan] at hb
        obtain ⟨e,he⟩ := hb
        exact ⟨e,by simp [he]⟩
      | go t =>
        rw [hscan] at hb
        obtain ⟨⟨lo,hi,p'⟩,he,hat⟩ := hb
        exact ⟨{ n with repmin := lo, repmax := hi },p',by simp [he],hat,rfl,rfl,rfl,rfl,rfl⟩
    · rw [scanRep,if_neg hbrace]
      by_cases hrep : c = 63 ∨ c = 42 ∨ c = 43
      · rw [if_pos hrep]
        rcases hrep with rfl | rfl | rfl
        · exact ⟨_,p + 1,rfl,h.tail,rfl,rfl,rfl,rfl,rfl⟩
        · exact ⟨_,p + 1,rfl,h.tail,rfl,rfl,rfl,rfl,rfl⟩
        · exact ⟨_,p + 1,rfl,h.tail,rfl,rfl,rfl,rfl,rfl⟩
      · rw [if_neg hrep]
        rw [not_or,not_or] at hrep
        exact ⟨n,p,by simp [hbrace, hrep],h,rfl,rfl,rfl,rfl,rfl⟩

/-! ## Strings -/

variable {k n e : ℕ} {esc : Bool}

theorem spanRegular_some (h : spanRegular s k = some n) : n ≤ k ∧ n ≤ s.length ∧ (∀ c ∈ s.take n, c ∉ special) ∧
    (n = k ∨ ∃ c t, s.drop n = c :: t ∧ c ∈ special) := by
  induction k generalizing s n with
  | zero =>
    rw [spanRegular] at h
    cases h
    exact ⟨le_rfl,Nat.zero_le _,by simp,Or.inl rfl⟩
  | succ k ih =>
    cases s with
    | nil => cases h
    | cons c s =>
      rw [spanRegular] at h
      split at h
      · rename_i hc
        cases h
        exact ⟨Nat.zero_le _,Nat.zero_le _,by simp,Or.inr ⟨c,s,rfl,hc⟩⟩
      · rename_i hc
        obtain ⟨n,hn,rfl⟩ := Option.map_eq_some_iff.1 h
        obtain ⟨h1,h2,h3,h4⟩ := ih hn
        refine ⟨Nat.succ_le_succ h1,Nat.succ_le_succ h2,?_,h4.imp (congrArg _) id⟩
        rw [List.take_succ_cons]
        exact List.forall_mem_cons.2 ⟨hc,h3⟩

theorem spanRegular_none (h : spanRegular s k = none) : s.length < k ∧ ∀ c ∈ s, c ∉ special := by
  induction k generalizing s with
  | zero => simp [spanRegular] at h
  | succ k ih =>
    cases s with
    | nil => exact ⟨Nat.succ_pos k,by simp⟩
    | cons c s =>
      rw [spanRegular] at h
      split at h
      · cases h
      · rename_i hc
        obtain ⟨h1,h2⟩ := ih (Option.map_eq_none_iff.1 h)
        exact ⟨Nat.succ_lt_succ h1,List.forall_mem_cons.2 ⟨hc,h2⟩⟩

theorem scanString_regular (hk : n ≤ k) (hn : n ≤ s.length) (h : ∀ c ∈ s.take n, c ∉ special) :
    scanString k esc s = scanString (k - n) esc (s.drop n) := by
  induction n generalizing s k with
  | zero => rfl
  | succ n ih =>
    cases s with
    | nil => cases hn
    | cons c s =>
      obtain ⟨k,rfl⟩ : ∃ k', k = k' + 1 := ⟨k - 1,by omega⟩
      rw [List.take_succ_cons,List.forall_mem_cons] at h
      rw [scanString_char h.1,ih (Nat.le_of_succ_le_succ hk) (Nat.le_of_succ_le_succ hn) h.2,
        Nat.add_sub_add_right,List.drop_succ_cons]

theorem At.take (h : At pat p s) (hn : n ≤ s.length) : At pat (p + n) (s.drop n) := by
  rw [← List.take_append_drop n s] at h
  have h' := h.add
  rwa [List.length_take,Nat.min_eq_left hn] at h'

theorem strLoop_spec (h : At pat p s) (str : List UInt8) {maxlen f : ℕ} (hmax : maxlen = min (s.length + e) k)
    (hpos : 0 < maxlen) (hf : maxlen < f) :
    Follows pat (scanString k (0 < e) s) (loop (strBody pat) f ⟨p,maxlen,str⟩) fun r => r.2 := by
  induction f generalizing p s str e k maxlen with
  | zero => lia
  | succ f ih =>
    cases hspan : spanRegular s maxlen with
    | none =>
      obtain ⟨h1,h2⟩ := spanRegular_none hspan
      have hscan : scanString k (0 < e) s = .slip := by
        rw [scanString_regular (by lia) le_rfl (by rwa [List.take_length]),List.drop_length]
        obtain ⟨j,hj⟩ : ∃ j, k - s.length = j + 1 := ⟨k - s.length - 1,by lia⟩
        rw [hj,scanString,if_pos (decide_eq_true (by lia))]
      rw [hscan]
      trivial
    | some n =>
      obtain ⟨h1,h2,h3,h4⟩ := spanRegular_some hspan
      by_cases hn : n = 0
      · subst hn
        obtain ⟨c,t,hs,hc⟩ := h4.resolve_left (by lia)
        rw [List.drop_zero] at hs
        subst hs
        rw [List.length_cons] at hmax
        obtain ⟨k,rfl⟩ : ∃ k', k = k' + 1 := ⟨k - 1,by lia⟩
        by_cases h92 : c = 92
        · subst h92
          cases t with
          | nil =>
            rw [List.length_nil] at hmax
            rw [scanString,if_pos rfl]
            by_cases hone : maxlen < 2
            · have hbody : strBody pat ⟨p,maxlen,str⟩ = some (.leave (.error p)) := by
                simp [strBody, h.drop, hspan, h.head, hone]
              rw [loop_leave hbody,if_pos (by rw [decide_eq_false_iff_not]; lia)]
              exact ⟨_,rfl⟩
            · rw [if_neg (by rw [decide_eq_false_iff_not]; lia)]
              trivial
          | cons a t =>
            rw [List.length_cons] at hmax
            rw [scanString,if_pos rfl]
            by_cases hk : k = 0
            · rw [if_pos hk]
              trivial
            have hbody : strBody pat ⟨p,maxlen,str⟩ = some (.again ⟨p + 2,maxlen - 1,str ++ [a]⟩) := by
              have hmore : ¬maxlen < 2 := by lia
              have hrest : maxlen - 1 > 0 := by lia
              simp only [strBody, strTest, h.drop, hspan, h.head, h.tail.head, Option.bind_eq_bind, Option.bind_some, if_true,
                ne_eq, not_true_eq_false, if_false, if_neg hmore, if_pos hrest]
              rfl
            have hesc : decide (0 < e + 1) = true := decide_eq_true (Nat.succ_pos e)
            rw [if_neg hk,loop_again hbody,← hesc]
            exact ih h.tail.tail _ (by lia) (by lia) (by lia)
        · have hbody : strBody pat ⟨p,maxlen,str⟩ = some (.leave (.ok (str,p))) := by
            simp [strBody, h.drop, hspan, h.head, h92]
          rw [loop_leave hbody,scanString_stop hc h92]
          exact ⟨_,rfl,h⟩
      · have hnext := h.take h2
        have hlen := List.length_drop (i := n) (l := s)
        have hbody : strBody pat ⟨p,maxlen,str⟩ = some (strTest ⟨p + n,maxlen - n,str ++ s.take n⟩) := by
          simp [strBody, h.drop, hspan, hn]
        rw [scanString_regular (by lia) h2 h3]
        by_cases hmore : maxlen - n > 0
        · rw [strTest,if_pos hmore] at hbody
          rw [loop_again hbody]
          exact ih hnext _ (by lia) hmore (by lia)
        · rw [strTest,if_neg hmore] at hbody
          rw [loop_leave hbody]
          -- the row is full, or it ends with the pattern and no turn is left
          by_cases hk : k - n = 0
          · rw [hk,scanString]
            exact ⟨_,rfl,hnext⟩
          · have hnil : s.drop n = [] := List.drop_eq_nil_of_le (by lia)
            have he : decide (0 < e) = false := decide_eq_false (by lia)
            obtain ⟨j,hj⟩ : ∃ j, k - n = j + 1 := ⟨k - n - 1,by lia⟩
            rw [hnil] at hnext ⊢
            rw [hj,he,scanString]
            exact ⟨_,rfl,hnext⟩

theorem parseChars_spec (h : At pat p (c :: s)) :
    Follows pat (scanString 32 false (c :: s)) (parseChars pat p) fun r => r.2 := by
  have hlen := h.length
  rw [List.length_cons] at hlen
  have hmax : min (pat.length - p) 32 = min ((c :: s).length + 0) 32 := by
    rw [List.length_cons]
    omega
  exact strLoop_spec h [] hmax (by rw [List.length_cons] at hmax; omega) (by omega)

/-! ## Classes -/

theorem classLoop_isOk (prev : Option UInt8) (s : List UInt8) (set : List UInt8) (p : ℕ) :
    (classLoop set prev p s).isOk = ordered prev s := by
  induction hn : s.length using Nat.strong_induction_on generalizing prev s set p with
  | _ n ih =>
    match s with
    | [] => rfl
    | [c] => rfl
    | c :: last :: s =>
      have h1 : ∀ p set prev, (classLoop set prev p (last :: s)).isOk = ordered prev (last :: s) :=
        fun p set prev => ih _ (by rw [← hn]; exact Nat.lt_succ_self _) prev (last :: s) set p rfl
      have h2 : ∀ p set prev, (classLoop set prev p s).isOk = ordered prev s :=
        fun p set prev => ih _ (by rw [← hn,List.length_cons,List.length_cons]; omega) prev s set p rfl
      cases prev with
      | none => exact h1 _ _ _
      | some ch =>
        simp only [ordered, classLoop]
        by_cases hc : c = 45
        · rw [if_pos hc,if_pos hc]
          by_cases hle : ch ≤ last
          · rw [decide_eq_true hle,Bool.true_and,if_neg (UInt8.not_lt.2 hle)]
            exact h2 _ _ _
          · rw [decide_eq_false hle,Bool.false_and,if_pos (UInt8.not_le.1 hle)]
            rfl
        · rw [if_neg hc,if_neg hc]
          exact h1 _ _ _

theorem classBody_at (h : At pat p (c :: s)) :
    classEnd pat (if c = 93 then p + 1 else p) = p + 1 + (s.takeWhile (· ≠ 93)).length ∧
    (pat.drop p).take (classEnd pat (if c = 93 then p + 1 else p) - p) = c :: s.takeWhile (· ≠ 93) := by
  have hend : classEnd pat (if c = 93 then p + 1 else p) = p + 1 + (s.takeWhile (· ≠ 93)).length := by
    by_cases hc : c = 93
    · rw [if_pos hc,classEnd,h.tail.drop]
    · rw [if_neg hc,classEnd,h.drop,List.takeWhile_cons_of_pos (by simp [hc]),List.length_cons]
      omega
  refine ⟨hend,?_⟩
  rw [hend,h.drop,show p + 1 + (s.takeWhile (· ≠ 93)).length - p = (s.takeWhile (· ≠ 93)).length + 1 by omega,
    List.take_succ_cons]
  congr 1
  exact List.prefix_iff_eq_take.1 (List.takeWhile_prefix _) |>.symm

/-- A parser of one item links its node behind what the scan of the item says. -/
def Parses (pat : List UInt8) (x : RexSt) (type : RexType) (sc : Scan) (r : Option (Except ℤ RexSt)) : Prop :=
  match sc with
  | .go t => ∃ n p, r = x.finish pat n p ∧ At pat p t ∧ SameNode { type := type } n
  | .reject => ∃ e, r = some (.error e)
  | .slip => True

theorem rexParseClass_body {x : RexSt} (invert : Bool) {start : ℕ} (h : At pat start s) (hs : s ≠ []) :
    Parses pat x .cls (scanBody s) (do
      let c ← pat[start]?
      let last := classEnd pat (if c = 93 then start + 1 else start)
      match classLoop (List.replicate 32 0) none start ((pat.drop start).take (last - start)) with
      | .error e => return .error e
      | .ok set =>
        let set := if invert then set.map fun b => ~~~b else set
        x.finish pat { type := .cls, set := set } (last + 1)) := by
  cases s with
  | nil => exact absurd rfl hs
  | cons c s =>
    obtain ⟨hend,hbody⟩ := classBody_at h
    rw [h.head,scanBody]
    simp only [Option.bind_eq_bind, Option.bind_some]
    rw [hbody,hend]
    have hok := classLoop_isOk none (c :: s.takeWhile (· ≠ 93)) (List.replicate 32 0) start
    cases hloop : classLoop (List.replicate 32 0) none start (c :: s.takeWhile (· ≠ 93)) with
    | error e =>
      rw [hloop] at hok
      rw [if_pos (show _ = false from hok.symm)]
      exact ⟨e,rfl⟩
    | ok set =>
      rw [hloop] at hok
      rw [if_neg (by rw [← hok]; exact Bool.true_eq_false_eq_False)]
      cases hd : s.dropWhile (· ≠ 93) with
      | nil => trivial
      | cons b t =>
        have hat : At pat (start + 1 + (s.takeWhile (· ≠ 93)).length) (b :: t) := by
          have h1 := h.tail
          rw [← List.takeWhile_append_dropWhile (p := (· ≠ 93)) (l := s),hd] at h1
          exact h1.add
        exact ⟨_,_,rfl,hat.tail,rfl,rfl,rfl,rfl,rfl⟩

theorem rexParseClass_spec {x : RexSt} (h : At pat x.p (91 :: s)) : Parses pat x .cls (scanClass s) (rexParseClass pat x) := by
  have h1 := h.tail
  cases s with
  | nil =>
    rw [rexParseClass,if_pos h1.nil]
    exact ⟨_,rfl⟩
  | cons c s =>
    rw [rexParseClass,if_neg (ne_of_lt h1.lt),scanClass,h1.head]
    simp only [Option.bind_eq_bind, Option.bind_some]
    by_cases hc : c = 94
    · have h2 := h1.tail
      rw [decide_eq_true hc,if_pos hc,if_pos rfl]
      by_cases hs : s = []
      · subst hs
        rw [if_pos h2.nil]
        exact ⟨_,rfl⟩
      · rw [if_neg (by rw [h2.length]; simpa using hs)]
        exact rexParseClass_body true h2 hs
    · rw [decide_eq_false hc,if_neg hc,if_neg (show ¬(if false = true then x.p + 2 else x.p + 1) = pat.length from ne_of_lt h1.lt)]
      exact rexParseClass_body false h1 (List.cons_ne_nil c s)

/-! ## Items -/

/-- A node without links. -/
structure Blank (n : RexNode) : Prop where
  next : n.next = none
  opt1 : n.opt1 = none
  opt2 : n.opt2 = none

theorem Blank.congr {n n' : RexNode} (h : Blank n) (hs : SameNode n n') : Blank n' :=
  ⟨hs.next.trans h.next,hs.opt1.trans h.opt1,hs.opt2.trans h.opt2⟩

/-- A node that holds no others. -/
structure Plain (n : RexNode) : Prop where
  blank : Blank n
  choice : n.type ≠ .choice
  groupS : n.type ≠ .groupS

theorem Plain.congr {n n' : RexNode} (h : Plain n) (hs : SameNode n n') : Plain n' := by
  refine ⟨h.blank.congr hs,?_,?_⟩
  · rw [hs.type]
    exact h.choice
  · rw [hs.type]
    exact h.groupS

/-- One plain node has been linked, or two in a row. -/
inductive Appends (x : RexSt) : RexSt → Prop
  | one {n : RexNode} {p : ℕ} (hn : Plain n) : Appends x (x.append n p)
  | two {n n' : RexNode} {p p' : ℕ} (hn : Plain n) (hn' : Plain n') : Appends x ((x.append n p).append n' p')

/-- The parser of an item with its repetition does what the scan says. -/
def Items (pat : List UInt8) (x : RexSt) (sc : Scan) (r : Option (Except ℤ RexSt)) : Prop :=
  match sc with
  | .go t => ∃ y, r = some (.ok y) ∧ Appends x y ∧ At pat y.p t
  | .reject => ∃ e, r = some (.error e)
  | .slip => True

theorem finish_spec {x : RexSt} {n : RexNode} (h : At pat p s) (hn : Plain n) :
    Items pat x (scanRep s) (x.finish pat n p) := by
  have hrep := rexCheckRepitions_spec n h
  cases hs : scanRep s with
  | slip => trivial
  | reject =>
    rw [hs] at hrep
    obtain ⟨e,he⟩ := hrep
    exact ⟨e,by simp [RexSt.finish, he]⟩
  | go t =>
    rw [hs] at hrep
    obtain ⟨n',p',he,hat,hsame⟩ := hrep
    exact ⟨x.append n' p',by simp [RexSt.finish, he],.one (hn.congr hsame),hat⟩

theorem rexParseClass_items {x : RexSt} (h : At pat x.p (91 :: s)) :
    Items pat x ((scanClass s).bind scanRep) (rexParseClass pat x) := by
  have hspec := rexParseClass_spec h
  cases hs : scanClass s with
  | slip => trivial
  | reject =>
    rw [hs] at hspec
    exact hspec
  | go t =>
    rw [hs] at hspec
    obtain ⟨n,p,hr,hat,hsame⟩ := hspec
    rw [hr]
    have hcls : Plain { type := .cls } := ⟨⟨rfl,rfl,rfl⟩,nofun,nofun⟩
    exact finish_spec hat (hcls.congr hsame)

theorem rexParseAny_items {x : RexSt} (h : At pat x.p (46 :: s)) : Items pat x (scanRep s) (rexParseAny pat x) :=
  finish_spec h.tail ⟨⟨rfl,rfl,rfl⟩,nofun,nofun⟩

theorem rexParseStr_items (junk : UInt8) {x : RexSt} (h : At pat x.p (c :: s)) :
    Items pat x ((scanString 32 false (c :: s)).bind scanRep) (rexParseStr junk pat x) := by
  have hchars := parseChars_spec h
  rw [rexParseStr]
  cases hs : scanString 32 false (c :: s) with
  | slip => trivial
  | reject =>
    rw [hs] at hchars
    obtain ⟨e,he⟩ := hchars
    exact ⟨e,by simp [he]⟩
  | go t =>
    rw [hs] at hchars
    obtain ⟨⟨str,op⟩,he,hat⟩ := hchars
    dsimp only at hat
    have hrep := rexCheckRepitions_spec { type := .string, str := str } hat
    change Items pat x (scanRep t) _
    cases hr : scanRep t with
    | slip => trivial
    | reject =>
      rw [hr] at hrep
      obtain ⟨e,he'⟩ := hrep
      exact ⟨e,by simp [he, he']⟩
    | go u =>
      rw [hr] at hrep
      obtain ⟨n',p',he',hat',hsame⟩ := hrep
      have hstr : Plain { type := .string, str := str } := ⟨⟨rfl,rfl,rfl⟩,nofun,nofun⟩
      have hplain : ∀ str', Plain { n' with str := str' } := fun str' =>
        hstr.congr ⟨hsame.type,hsame.next,hsame.opt1,hsame.opt2,hsame.other⟩
      by_cases htwo : p' ≠ op ∧ str.length > 1
      · have hfirst : Plain { type := .string, str := str.dropLast } := ⟨⟨rfl,rfl,rfl⟩,nofun,nofun⟩
        exact ⟨_,by simp [he, he', htwo],.two (p := p') hfirst (hplain [junk]),hat'⟩
      · exact ⟨x.append n' p',by simp [he, he', htwo],.one (hplain n'.str),hat'⟩

end Catlib.Rex
