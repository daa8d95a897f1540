import Catlib.Rex.Grammar
import Mathlib.Data.List.TakeWhile

/-! # The scan reads the supported syntax

Where no slip matters, what the scan goes on with is what the grammar leaves behind the item.
-/
namespace Catlib.Rex

variable {s t u m n : List UInt8} {c : UInt8} {d k : ℕ}

/-- A repetition, and the rest of a pattern behind it. -/
def RepThen (d : ℕ) (t : List UInt8) : Prop := ∃ rep s, Rep rep ∧ t = rep ++ s ∧ Rest d s

/-- A class, as its text and what is behind it. -/
def ClassThen (d : ℕ) (s : List UInt8) : Prop :=
  ∃ cs t, ClassBody cs ∧ RepThen d t ∧ (s = cs ++ 93 :: t ∧ cs.head? ≠ some 94 ∨ s = 94 :: (cs ++ 93 :: t))

theorem rest_cons : Rest d (c :: s) ↔
    c ∉ special ∧ RepThen d s ∨ c = 92 ∧ (∃ a t, s = a :: t ∧ RepThen d t) ∨ c = 46 ∧ RepThen d s ∨
    c = 91 ∧ ClassThen d s ∨ (c = 94 ∨ c = 36) ∧ Rest d s ∨ c = 124 ∧ Rest d s ∨ c = 40 ∧ Rest (d + 1) s ∨
    c = 41 ∧ ∃ d', d = d' + 1 ∧ RepThen d' s := by
  constructor
  · intro h
    generalize ht : c :: s = t at h
    cases h with
    | stop => cases ht
    | @atom _ a rep s' ha hr h =>
      cases ha with
      | char hc =>
        cases ht
        exact Or.inl ⟨hc,rep,s',hr,rfl,h⟩
      | escape b =>
        cases ht
        exact Or.inr (Or.inl ⟨rfl,b,_,rfl,rep,s',hr,rfl,h⟩)
      | any =>
        cases ht
        exact Or.inr (Or.inr (Or.inl ⟨rfl,rep,s',hr,rfl,h⟩))
      | @cls cs hb hhead =>
        cases ht
        exact Or.inr (Or.inr (Or.inr (Or.inl ⟨rfl,cs,rep ++ s',hb,⟨rep,s',hr,rfl,h⟩,Or.inl ⟨by simp,hhead⟩⟩)))
      | @clsInverted cs hb =>
        cases ht
        exact Or.inr (Or.inr (Or.inr (Or.inl ⟨rfl,cs,rep ++ s',hb,⟨rep,s',hr,rfl,h⟩,Or.inr (by simp)⟩)))
    | anchor hc h =>
      cases ht
      exact Or.inr (Or.inr (Or.inr (Or.inr (Or.inl ⟨hc,h⟩))))
    | choice h =>
      cases ht
      exact Or.inr (Or.inr (Or.inr (Or.inr (Or.inr (Or.inl ⟨rfl,h⟩)))))
    | groupS h =>
      cases ht
      exact Or.inr (Or.inr (Or.inr (Or.inr (Or.inr (Or.inr (Or.inl ⟨rfl,h⟩))))))
    | @groupE d' rep s' hr h =>
      cases ht
      exact Or.inr (Or.inr (Or.inr (Or.inr (Or.inr (Or.inr (Or.inr ⟨rfl,d',rfl,rep,s',hr,rfl,h⟩))))))
  · rintro (⟨hc,rep,u,hr,rfl,h⟩ | ⟨rfl,a,_,rfl,rep,u,hr,rfl,h⟩ | ⟨rfl,rep,u,hr,rfl,h⟩ |
      ⟨rfl,cs,_,hcs,⟨rep,u,hr,rfl,h⟩,⟨rfl,hne⟩ | rfl⟩ | ⟨hc,h⟩ | ⟨rfl,h⟩ | ⟨rfl,h⟩ | ⟨rfl,d',rfl,rep,u,hr,rfl,h⟩)
    · exact .atom (.char hc) hr h
    · exact .atom (.escape a) hr h
    · exact .atom .any hr h
    · simpa using Rest.atom (.cls hcs hne) hr h
    · simpa using Rest.atom (.clsInverted hcs) hr h
    · exact .anchor hc h
    · exact .choice h
    · exact .groupS h
    · exact .groupE hr h

theorem rest_nil : Rest d [] ↔ d = 0 := by
  constructor
  · intro h
    generalize ht : ([] : List UInt8) = t at h
    cases h with
    | stop => rfl
    | atom ha => cases ha <;> cases ht
    | _ => cases ht
  · rintro rfl
    exact .stop

theorem rest_escape : Rest d (92 :: s) ↔ ∃ a t, s = a :: t ∧ RepThen d t := by
  simp [rest_cons, special]

theorem rest_any : Rest d (46 :: s) ↔ RepThen d s := by
  simp [rest_cons, special]

theorem rest_class : Rest d (91 :: s) ↔ ClassThen d s := by
  simp [rest_cons, special]

theorem rest_anchor (hc : c = 94 ∨ c = 36) : Rest d (c :: s) ↔ Rest d s := by
  rcases hc with rfl | rfl <;> simp [rest_cons, special]

theorem rest_choice : Rest d (124 :: s) ↔ Rest d s := by
  simp [rest_cons, special]

theorem rest_groupS : Rest d (40 :: s) ↔ Rest (d + 1) s := by
  simp [rest_cons, special]

theorem rest_groupE : Rest d (41 :: s) ↔ ∃ d', d = d' + 1 ∧ RepThen d' s := by
  simp [rest_cons, special]

theorem rest_char (hc : c ∉ special) : Rest d (c :: s) ↔ RepThen d s := by
  rw [rest_cons]
  constructor
  · rintro (⟨-,h⟩ | ⟨rfl,-⟩ | ⟨rfl,-⟩ | ⟨rfl,-⟩ | ⟨rfl | rfl,-⟩ | ⟨rfl,-⟩ | ⟨rfl,-⟩ | ⟨rfl,-⟩)
    · exact h
    all_goals exact absurd (by decide) hc
  · exact fun h => Or.inl ⟨hc,h⟩

theorem Rest.head (h : Rest d (c :: s)) : c ∉ [63,42,43,123,125,93] := by
  rcases rest_cons.1 h with ⟨h,-⟩ | ⟨rfl,-⟩ | ⟨rfl,-⟩ | ⟨rfl,-⟩ | ⟨rfl | rfl,-⟩ | ⟨rfl,-⟩ | ⟨rfl,-⟩ | ⟨rfl,-⟩
  · intro hc
    simp only [List.mem_cons, List.not_mem_nil, or_false] at hc
    rcases hc with rfl | rfl | rfl | rfl | rfl | rfl <;> exact h (by decide)
  all_goals decide

/-- A scan of `s` says what `X` is: it holds if and only if `Y` does of what the scan goes on with. -/
def Means (sc : Scan) (s : List UInt8) (X : Prop) (Y : List UInt8 → Prop) : Prop :=
  match sc with
  | .go u => u.length ≤ s.length ∧ (X ↔ Y u)
  | .reject => ¬X
  | .slip => True

theorem Means.bind {sc : Scan} {f : List UInt8 → Scan} {X : Prop} {Y Z : List UInt8 → Prop} (h : Means sc s X Y)
    (hf : ∀ u, Means (f u) u (Y u) Z) : Means (sc.bind f) s X Z := by
  cases sc with
  | slip => trivial
  | reject => exact h
  | go u =>
    have hu := hf u
    change Means (f u) s X Z
    cases hfu : f u with
    | slip => trivial
    | reject =>
      rw [hfu] at hu
      exact mt h.2.1 hu
    | go v =>
      rw [hfu] at hu
      exact ⟨hu.1.trans h.1,h.2.trans hu.2⟩

theorem Means.congr {sc : Scan} {X X' : Prop} {Y : List UInt8 → Prop} (hX : X' ↔ X) (hs : s.length ≤ t.length)
    (h : Means sc s X Y) : Means sc t X' Y := by
  cases sc with
  | slip => trivial
  | reject => exact mt hX.1 h
  | go u => exact ⟨h.1.trans hs,hX.trans h.2⟩

/-! ## Repetitions -/

theorem digits_append (hm : ∀ c ∈ m, isDigit c = true) (hc : isDigit c = false) :
    (m ++ c :: s).takeWhile isDigit = m ∧ (m ++ c :: s).dropWhile isDigit = c :: s := by
  constructor
  · rw [List.takeWhile_append_of_pos hm,List.takeWhile_cons_of_neg (by simp [hc]),List.append_nil]
  · rw [List.dropWhile_append_of_pos hm,List.dropWhile_cons_of_neg (by simp [hc])]

theorem bound_takeWhile (h : value (s.takeWhile isDigit) ≤ 255) (hne : s.takeWhile isDigit ≠ []) :
    Bound (s.takeWhile isDigit) :=
  ⟨hne,fun _ hc => List.mem_takeWhile_imp hc,h⟩

theorem value_pos_ne (h : value m ≠ 0) : m ≠ [] := by
  rintro rfl
  exact h rfl

theorem split_digits (h : s.dropWhile isDigit = c :: t) : s = s.takeWhile isDigit ++ c :: t := by
  rw [← h,List.takeWhile_append_dropWhile]

theorem scanUpper_sound (h : scanUpper m s = .go u) : (s = 125 :: u ∧ m ≠ []) ∨
    ∃ n, s = n ++ 125 :: u ∧ Bound n ∧ value m ≤ value n := by
  rw [scanUpper] at h
  cases hd : s.dropWhile isDigit with
  | nil =>
    rw [hd] at h
    cases h
  | cons c t =>
    rw [hd] at h
    have hs := split_digits hd
    dsimp only at h
    split at h
    · cases h
    split at h
    · cases h
    rename_i hbig
    split at h
    · rename_i hnil
      rw [hnil] at hs
      split at h
      · cases h
      rename_i hc
      split at h
      · cases h
      rename_i hm
      cases h
      exact Or.inl ⟨by rw [hs,not_not.1 hc]; rfl,hm⟩
    rename_i hnil
    split at h
    · cases h
    rename_i hle
    split at h
    · split at h <;> cases h
    split at h
    · rename_i hc
      cases h
      refine Or.inr ⟨_,?_,bound_takeWhile (not_lt.1 hbig) hnil,not_lt.1 hle⟩
      rwa [hc] at hs
    · cases h

theorem scanRep_sound (h : scanRep t = .go u) : ∃ rep, Rep rep ∧ t = rep ++ u := by
  cases t with
  | nil =>
    cases h
    exact ⟨[],.none,rfl⟩
  | cons c s =>
    rw [scanRep] at h
    split at h
    · rename_i hc
      subst hc
      cases hd : s.dropWhile isDigit with
      | nil =>
        rw [hd] at h
        cases h
      | cons a t =>
        rw [hd] at h
        have hs := split_digits hd
        dsimp only at h
        split at h
        · cases h
        split at h
        · cases h
        rename_i hbig
        split at h
        · rename_i ha
          subst ha
          rcases scanUpper_sound h with ⟨rfl,hm⟩ | ⟨n,rfl,hn,hle⟩
          · exact ⟨_,.atLeast (bound_takeWhile (not_lt.1 hbig) hm),by simpa using hs⟩
          · by_cases hm : s.takeWhile isDigit = []
            · rw [hm] at hs
              exact ⟨_,.atMost hn,by simpa using hs⟩
            · exact ⟨_,.between (bound_takeWhile (not_lt.1 hbig) hm) hn hle,by simpa using hs⟩
        split at h
        · cases h
        rename_i ha
        split at h
        · cases h
        rename_i hzero
        cases h
        rw [not_not.1 ha] at hs
        exact ⟨_,.exactly (bound_takeWhile (not_lt.1 hbig) (value_pos_ne hzero)),by simpa using hs⟩
    · split at h
      · rename_i hc
        cases h
        rcases hc with rfl | rfl | rfl
        · exact ⟨[63],.question,rfl⟩
        · exact ⟨[42],.star,rfl⟩
        · exact ⟨[43],.plus,rfl⟩
      · cases h
        exact ⟨[],.none,rfl⟩

theorem Bound.le_intMax (h : Bound m) : ¬value m > intMax := by
  have := h.small
  have h2 : (255 : ℕ) ≤ intMax := by decide
  omega

theorem scanRep_complete {rep : List UInt8} (hr : Rep rep) (h : Rest d s) :
    scanRep (rep ++ s) = .go s ∨ scanRep (rep ++ s) = .slip := by
  cases hr with
  | none =>
    cases s with
    | nil => exact Or.inl rfl
    | cons c s =>
      have hc := h.head
      simp only [List.mem_cons, List.not_mem_nil, or_false, not_or] at hc
      rw [List.nil_append,scanRep,if_neg hc.2.2.2.1,if_neg (by simp [hc])]
      exact Or.inl rfl
  | question => exact Or.inl rfl
  | star => exact Or.inl rfl
  | plus => exact Or.inl rfl
  | @exactly m hm =>
    have hd := digits_append (s := s) hm.digits (show isDigit 125 = false from rfl)
    rw [show 123 :: (m ++ [125]) ++ s = 123 :: (m ++ 125 :: s) by simp,scanRep,if_pos rfl,hd.1,hd.2]
    simp only [if_neg hm.le_intMax, if_neg (not_lt.2 hm.small)]
    by_cases hzero : value m = 0
    · rw [if_pos hzero]
      exact Or.inr rfl
    · rw [if_neg hzero]
      exact Or.inl rfl
  | @atLeast m hm =>
    have hd := digits_append (s := 125 :: s) hm.digits (show isDigit 44 = false from rfl)
    rw [show 123 :: (m ++ [44,125]) ++ s = 123 :: (m ++ 44 :: 125 :: s) by simp,scanRep,if_pos rfl,hd.1,hd.2]
    simp only [if_neg hm.le_intMax, if_neg (not_lt.2 hm.small)]
    refine Or.inl ?_
    rw [if_true,scanUpper]
    change (if m = [] then Scan.slip else .go s) = .go s
    rw [if_neg hm.nonempty]
  | @atMost n hn =>
    have hd := digits_append (s := s) hn.digits (show isDigit 125 = false from rfl)
    change scanUpper [] (n ++ [125] ++ s) = _ ∨ scanUpper [] (n ++ [125] ++ s) = _
    rw [show n ++ [125] ++ s = n ++ 125 :: s by simp,scanUpper,hd.1,hd.2]
    simp only [if_neg hn.le_intMax, if_neg (not_lt.2 hn.small), if_neg hn.nonempty]
    rw [if_neg (show ¬value [] > value n from Nat.not_lt_zero _)]
    by_cases hzero : value n = 0
    · rw [if_pos hzero]
      exact Or.inr rfl
    · rw [if_neg hzero]
      exact Or.inl rfl
  | @between m n hm hn hle =>
    have hd := digits_append (s := n ++ 125 :: s) hm.digits (show isDigit 44 = false from rfl)
    have hd' := digits_append (s := s) hn.digits (show isDigit 125 = false from rfl)
    rw [show 123 :: (m ++ 44 :: (n ++ [125])) ++ s = 123 :: (m ++ 44 :: (n ++ 125 :: s)) by simp,scanRep,if_pos rfl,hd.1,hd.2]
    simp only [if_neg hm.le_intMax, if_neg (not_lt.2 hm.small), if_true]
    rw [scanUpper,hd'.1,hd'.2]
    simp only [if_neg hn.le_intMax, if_neg (not_lt.2 hn.small), if_neg hn.nonempty, if_neg (not_lt.2 hle)]
    by_cases hzero : value n = 0
    · rw [if_pos hzero]
      exact Or.inr rfl
    · rw [if_neg hzero]
      exact Or.inl rfl

theorem scanRep_means (d : ℕ) (t : List UInt8) : Means (scanRep t) t (RepThen d t) (Rest d) := by
  cases hs : scanRep t with
  | slip => trivial
  | reject =>
    rintro ⟨rep,s,hr,rfl,h⟩
    rcases scanRep_complete hr h with hs' | hs' <;> rw [hs] at hs' <;> cases hs'
  | go u =>
    obtain ⟨rep,hr,rfl⟩ := scanRep_sound hs
    refine ⟨by rw [List.length_append]; omega,?_,fun h => ⟨rep,u,hr,rfl,h⟩⟩
    rintro ⟨rep',s,hr',heq,h⟩
    rcases scanRep_complete hr' h with hs' | hs' <;> rw [← heq,hs] at hs' <;> cases hs'
    exact h

/-! ## Strings -/

theorem repThen_cons (hc : c ∉ [63,42,43,123]) : RepThen d (c :: s) ↔ Rest d (c :: s) := by
  constructor
  · rintro ⟨rep,t,hr,heq,h⟩
    cases hr with
    | none => rwa [heq]
    | _ =>
      cases heq
      exact absurd hc (by decide)
  · exact fun h => ⟨[],c :: s,.none,rfl,h⟩

theorem char_noRep (hc : c ∉ special) : c ∉ [63,42,43,123] := by
  intro h
  simp only [List.mem_cons, List.not_mem_nil, or_false] at h
  rcases h with rfl | rfl | rfl | rfl <;> exact hc (by decide)

theorem scanString_means (d k : ℕ) (esc : Bool) (s : List UInt8) :
    Means (scanString k esc s) s (RepThen d s) (RepThen d) := by
  fun_induction scanString k esc s with
  | case1 => exact ⟨le_rfl,Iff.rfl⟩
  | case2 => trivial
  | case3 => exact ⟨le_rfl,Iff.rfl⟩
  | case4 =>
    change ¬RepThen d [92]
    rw [repThen_cons (by decide),rest_escape]
    rintro ⟨a,t,h,-⟩
    cases h
  | case5 => trivial
  | case6 => trivial
  | case7 k esc a s hk ih =>
    refine Means.congr ?_ (by rw [List.length_cons,List.length_cons]; omega) ih
    rw [repThen_cons (by decide),rest_escape]
    constructor
    · rintro ⟨a,t,h,h'⟩
      cases h
      exact h'
    · exact fun h => ⟨a,s,rfl,h⟩
  | case8 => exact ⟨le_rfl,Iff.rfl⟩
  | case9 k esc c s h92 hc ih => exact Means.congr ((repThen_cons (char_noRep hc)).trans (rest_char hc)) (by simp) ih

theorem scanString_first (d : ℕ) (hc : c ∉ special ∨ c = 92) :
    Means (scanString 32 false (c :: s)) s (Rest d (c :: s)) (RepThen d) := by
  by_cases h92 : c = 92
  · subst h92
    cases s with
    | nil =>
      change ¬Rest d [92]
      rw [rest_escape]
      rintro ⟨a,t,h,-⟩
      cases h
    | cons a s =>
      refine Means.congr ?_ (by simp) (scanString_means d 31 true s)
      rw [rest_escape]
      constructor
      · rintro ⟨a,t,h,h'⟩
        cases h
        exact h'
      · exact fun h => ⟨a,s,rfl,h⟩
  · have hc := hc.resolve_right h92
    rw [scanString_char hc]
    exact Means.congr (rest_char hc) le_rfl (scanString_means d 31 false s)

/-! ## Classes -/

/-- The text of a class, its end, and what is behind. -/
def BodyThen (d : ℕ) (s : List UInt8) : Prop := ∃ cs t, ClassBody cs ∧ s = cs ++ 93 :: t ∧ RepThen d t

theorem takeWhile_body {cs : List UInt8} (hcs : 93 ∉ cs) : (cs ++ 93 :: t).takeWhile (· ≠ 93) = cs ∧
    (cs ++ 93 :: t).dropWhile (· ≠ 93) = 93 :: t := by
  have hall : ∀ a ∈ cs, decide (a ≠ 93) = true := by
    intro a ha
    rw [decide_eq_true_eq]
    rintro rfl
    exact hcs ha
  constructor
  · rw [List.takeWhile_append_of_pos hall,List.takeWhile_cons_of_neg (by decide),List.append_nil]
  · rw [List.dropWhile_append_of_pos hall,List.dropWhile_cons_of_neg (by decide)]

theorem scanBody_means (d : ℕ) (s : List UInt8) : Means (scanBody s) s (BodyThen d s) (RepThen d) := by
  cases s with
  | nil =>
    rintro ⟨cs,t,-,h,-⟩
    simp at h
  | cons c s =>
    have hbody : ∀ cs t, ClassBody cs → c :: s = cs ++ 93 :: t →
        ordered none (c :: s.takeWhile (· ≠ 93)) = true ∧ s.dropWhile (· ≠ 93) = 93 :: t := by
      rintro _ t ⟨hcs,hord⟩ heq
      rw [List.cons_append,List.cons.injEq] at heq
      obtain ⟨rfl,rfl⟩ := heq
      rw [(takeWhile_body hcs).1,(takeWhile_body hcs).2]
      exact ⟨hord,rfl⟩
    rw [scanBody]
    split
    · rename_i hord
      rintro ⟨cs,t,hcs,heq,-⟩
      rw [(hbody cs t hcs heq).1] at hord
      cases hord
    · rename_i hord
      cases hd : s.dropWhile (· ≠ 93) with
      | nil => trivial
      | cons b t =>
        have hb : b = 93 := by
          have hnot := List.head?_dropWhile_not (fun a : UInt8 => decide (a ≠ 93)) s
          rw [hd] at hnot
          simpa using hnot
        subst hb
        have hs : s = s.takeWhile (· ≠ 93) ++ 93 :: t := by rw [← hd,List.takeWhile_append_dropWhile]
        have hlen := congrArg List.length hs
        rw [List.length_append,List.length_cons] at hlen
        refine ⟨by rw [List.length_cons]; omega,?_,fun h => ⟨c :: s.takeWhile (· ≠ 93),t,⟨?_,by simpa using hord⟩,?_,h⟩⟩
        · rintro ⟨cs,t',hcs,heq,h⟩
          have hd' := (hbody cs t' hcs heq).2
          rw [hd] at hd'
          cases hd'
          exact h
        · intro h
          have := List.mem_takeWhile_imp h
          simp at this
        · rw [List.cons_append,← hs]

theorem scanClass_means (d : ℕ) (s : List UInt8) : Means (scanClass s) s (ClassThen d s) (RepThen d) := by
  cases s with
  | nil =>
    rintro ⟨cs,t,-,-,⟨h,-⟩ | h⟩
    · simp at h
    · cases h
  | cons c s =>
    rw [scanClass]
    by_cases hc : c = 94
    · subst hc
      rw [if_pos rfl]
      refine Means.congr ?_ (by simp) (scanBody_means d s)
      constructor
      · rintro ⟨cs,t,⟨hcs,hord⟩,h,⟨heq,hne⟩ | heq⟩
        · cases heq
          exact absurd rfl hne
        · cases heq
          exact ⟨_,t,⟨hcs,hord⟩,rfl,h⟩
      · rintro ⟨cs,t,hcs,rfl,h⟩
        exact ⟨cs,t,hcs,h,Or.inr rfl⟩
    · rw [if_neg hc]
      refine Means.congr ?_ le_rfl (scanBody_means d (c :: s))
      constructor
      · rintro ⟨cs,t,hcs,h,⟨heq,-⟩ | heq⟩
        · exact ⟨cs,t,hcs,heq,h⟩
        · cases heq
          exact absurd rfl hc
      · rintro ⟨cs,t,⟨hcs,hord⟩,heq,h⟩
        cases heq
        exact ⟨_,t,⟨hcs,hord⟩,h,Or.inl ⟨rfl,by simpa using hc⟩⟩

end Catlib.Rex
