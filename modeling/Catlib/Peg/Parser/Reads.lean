import Catlib.Peg.Parser.Literal

/-! # Where the parser reads

No scan of the text goes behind the NUL as long as every comment that is skipped has an end of its
line and no quoted character of the code begins with the last byte, and every scan and every loop
of the parser moves its cursor on, so that the turns suffice.
-/
namespace Catlib.Peg.Parser

open Traced

/-- The faults of the functions that look at the text. -/
def Fault.Lexical : Fault → Prop
  | .read | .fuel | .abort .position | .abort .decoded | .abort .code => True
  | _ => False

/-- A step that stays in the text: the comment has an end, the quote is not the last byte. -/
def Event.Inside : Event → Prop
  | .comment s => ∃ c ∈ s, isEol c = true
  | .quote s => s ≠ []
  | _ => True

/-- The contract of this module: if `reads`, then all steps stay in the text, and no fault is lexical; else the
only lexical fault is a read behind the text. -/
abbrev Scans {σ α : Type} (reads : Prop) (m : Traced Fault Event σ α) (s : σ) (Q : α → σ → Prop) : Prop :=
  Run (fun e => reads → e.Inside) (fun f => f.Lexical → f = .read ∧ ¬reads) m s Q

variable {reads : Prop} {input : List UInt8} {pc : PegCursor}

/-- A cursor in the text that is not in front of another one. -/
structure Ahead (input : List UInt8) (pc pc' : PegCursor) : Prop where
  ge : pc.pos ≤ pc'.pos
  le : pc'.pos ≤ input.length

theorem Ahead.trans {p q r : PegCursor} (h : Ahead input p q) (h' : Ahead input q r) : Ahead input p r := ⟨h.ge.trans h'.ge,h'.le⟩

theorem Scans.rest_of (hle : reads → pc.pos ≤ input.length) : Scans reads (rest input pc) () fun s _ => At input pc s := by
  rw [Parser.rest]
  split
  · rename_i h
    exact Run.pure ⟨h,rfl⟩
  · rename_i h
    exact Run.fail fun _ => ⟨rfl,fun hr => h (hle hr)⟩

theorem Scans.rest (hle : pc.pos ≤ input.length) : Scans reads (rest input pc) () fun s _ => At input pc s := Scans.rest_of fun _ => hle

/-! ## Spacing -/

theorem skipSpaceFrom_scans (s : List UInt8) (inComment : Bool) (pc : PegCursor) (hat : At input pc s)
    (hend : reads → inComment = true → ∃ c ∈ s, isEol c = true) :
    Scans reads (skipSpaceFrom s inComment pc) () fun pc' _ => Ahead input pc pc' := by
  induction hk : s.length using Nat.strong_induction_on generalizing s inComment pc with
  | _ k ih =>
    subst hk
    cases s with
    | nil =>
      rw [skipSpaceFrom]
      split
      · rename_i hc
        refine Run.fail fun _ => ⟨rfl,fun hr => ?_⟩
        obtain ⟨c,hmem,-⟩ := hend hr hc
        cases hmem
      · exact Run.pure ⟨le_rfl,hat.le⟩
    | cons c t =>
      have hat' := hat.tail
      have hgo : ∀ (s' : List UInt8) (b : Bool) (pc' : PegCursor), s'.length < (c :: t).length → At input pc' s' → pc.pos ≤ pc'.pos →
          (reads → b = true → ∃ c ∈ s', isEol c = true) → Scans reads (skipSpaceFrom s' b pc') () fun pc'' _ => Ahead input pc pc'' :=
        fun s' b pc' hlt hat' hge hend' => (ih _ hlt s' b pc' hat' hend' rfl).mono fun _ _ h => ⟨hge.trans h.ge,h.le⟩
      have hskip : pc.pos ≤ (pc.skip 1).pos := Nat.le_add_right _ _
      have hline : At input (pc.newline 1) t := hat.step (k := 1) (by simp) rfl
      rw [skipSpaceFrom.eq_def]
      dsimp only
      split
      · exact Run.noted fun hev => hgo t true _ (Nat.lt_succ_self _) hat' hskip fun hr _ => hev hr
      rename_i h35
      split
      · cases t with
        | nil => exact hgo [] false _ (Nat.lt_succ_self _) hline hskip fun _ h => nomatch h
        | cons d t =>
          dsimp only
          split
          · exact hgo t false _ (by simp only [List.length_cons]; omega) (hat.step (k := 2) (by simp) rfl)
              (Nat.le_add_right _ _) fun _ h => nomatch h
          · exact hgo (d :: t) false _ (Nat.lt_succ_self _) hline hskip fun _ h => nomatch h
      rename_i heol
      split
      · refine hgo t inComment _ (Nat.lt_succ_self _) hat' hskip fun hr hc => ?_
        obtain ⟨e,hmem,he⟩ := hend hr hc
        rcases List.mem_cons.1 hmem with rfl | hmem
        · exact absurd he heol
        · exact ⟨e,hmem,he⟩
      · exact Run.pure ⟨le_rfl,hat.le⟩

theorem skipSpace_scans (hle : pc.pos ≤ input.length) : Scans reads (skipSpace input pc) () fun pc' _ => Ahead input pc pc' :=
  Run.bind (Scans.rest hle) fun s _ hat => skipSpaceFrom_scans s false pc hat fun _ h => nomatch h

theorem stringMatch_scans (hle : pc.pos ≤ input.length) (pat : List UInt8) :
    Scans reads (stringMatch input pat pc) () fun o _ => ∀ pc', o = some pc' → Ahead input (pc.skip pat.length) pc' := by
  rw [stringMatch,if_neg (by omega)]
  split
  · exact Run.pure fun _ h => nomatch h
  split
  · exact Run.bind (skipSpace_scans (show pc.pos + pat.length ≤ _ by omega)) fun pc' _ h => Run.pure fun pc'' hpc => by
      cases hpc
      exact h
  · exact Run.pure fun _ h => nomatch h

/-! ## Characters and sets -/

/-- A cursor in the text that is behind another one. -/
structure Behind (input : List UInt8) (pc pc' : PegCursor) : Prop where
  gt : pc.pos < pc'.pos
  le : pc'.pos ≤ input.length

theorem Behind.ahead {p q : PegCursor} (h : Behind input p q) : Ahead input p q := ⟨h.gt.le,h.le⟩
theorem Behind.trans {p q r : PegCursor} (h : Behind input p q) (h' : Ahead input q r) : Behind input p r :=
  ⟨h.gt.trans_le h'.ge,h'.le⟩
theorem Ahead.behind {p q r : PegCursor} (h : Ahead input p q) (h' : Behind input q r) : Behind input p r :=
  ⟨h.ge.trans_lt h'.gt,h'.le⟩

theorem parseChar_scans (hle : pc.pos ≤ input.length) :
    Scans reads (parseChar input pc) () fun r _ => ∀ c pc', r = .yes (c,pc') → Behind input pc pc' := by
  refine Run.bind (Scans.rest hle) fun s _ hat => Run.pure fun c pc' hr => ?_
  rcases hc : charOf s with _ | ⟨b,n⟩
  · rcases decode_none hc pc with hd | ⟨e,hd⟩
    · rw [hd] at hr
      cases hr
    · rw [hd] at hr
      cases hr
  · obtain ⟨line,hd⟩ := decode_some hc pc
    rw [hd] at hr
    cases hr
    have hw := width_le hc
    have hlen := hat.length
    exact ⟨show pc.pos < pc.pos + width s n by omega,show pc.pos + width s n ≤ input.length by omega⟩

theorem classAddChar_scans (hle : pc.pos ≤ input.length) (set : List UInt8) :
    Scans reads (classAddChar input pc set) () fun r _ => ∀ x, r = .yes x → Behind input pc x.2 := by
  refine Run.bind (parseChar_scans hle) fun r _ hr => ?_
  rcases r with e | _ | ⟨c1,npc⟩
  · exact Run.pure fun _ h => nomatch h
  · exact Run.pure fun _ h => nomatch h
  have hb := hr c1 npc rfl
  refine Run.bind (Scans.rest hb.le) fun s _ hat => ?_
  split
  · exact Run.pure fun x h => by
      cases h
      exact hb
  rename_i hdash
  have hlen := hat.length
  have hne : s ≠ [] := fun hs => hdash (by rw [hs]; decide)
  have hpos := List.length_pos_iff.2 hne
  refine Run.bind (parseChar_scans (show npc.pos + 1 ≤ _ by omega)) fun r _ hr => ?_
  rcases r with e | _ | ⟨c2,npc'⟩
  · exact Run.pure fun _ h => nomatch h
  · exact Run.pure fun _ h => nomatch h
  · refine Run.pure fun x h => ?_
    cases h
    have hb' := hr c2 npc' rfl
    exact ⟨hb.gt.trans (Nat.lt_of_succ_lt hb'.gt),hb'.le⟩

theorem classSet_scans (f : ℕ) (pc : PegCursor) (set : List UInt8) (hle : pc.pos ≤ input.length) (hf : input.length < pc.pos + f) :
    Scans reads (classSet input f pc set) () fun r _ => ∀ x, r = .yes x → Ahead input pc x.2 ∧
      (input.drop x.2.pos).headD 0 ∈ [93,0] := by
  induction f generalizing pc set with
  | zero => omega
  | succ f ih =>
    rw [classSet]
    refine Run.bind (Scans.rest hle) fun s _ hat => ?_
    dsimp only
    split
    · rename_i hc
      refine Run.pure fun x h => ?_
      cases h
      refine ⟨⟨le_rfl,hle⟩,?_⟩
      rw [hat.text]
      rcases hc with hc | hc <;> rw [hc] <;> decide
    refine Run.bind (classAddChar_scans hle set) fun r _ hr => ?_
    rcases r with e | _ | ⟨set',npc⟩
    · exact Run.pure fun _ h => nomatch h
    · exact Run.pure fun _ h => nomatch h
    have hb := hr _ rfl
    have hgt : pc.pos < npc.pos := hb.gt
    exact (ih npc set' hb.le (by omega)).mono fun r _ h x hx => ⟨hb.ahead.trans (h x hx).1,(h x hx).2⟩

/-! ## Code -/

/-- The cursor that comes back without an error is behind. -/
def OkBehind (input : List UInt8) (pc : PegCursor) (r : Except PegCursor PegCursor) : Prop := ∀ pc', r = .ok pc' → Behind input pc pc'

theorem getD_ne {s : List UInt8} {k : ℕ} (h : s.getD k 0 ≠ 0) : k < s.length := by
  by_contra hle
  exact h (by rw [List.getD_eq_getElem?_getD,List.getElem?_eq_none (not_lt.1 hle),Option.getD_none])

theorem isDigit_ne {c : UInt8} (h : isDigit0to7 c = true) : c ≠ 0 := by
  rintro rfl
  cases h

theorem At.headD_lt {s : List UInt8} (hat : At input pc s) (h : s.headD 0 ≠ 0) : pc.pos + 1 ≤ input.length := by
  have hlen := hat.length
  cases s with
  | nil => exact absurd rfl h
  | cons c t =>
    rw [List.length_cons] at hlen
    omega

theorem At.getD_lt {s : List UInt8} (hat : At input pc s) {k : ℕ} (h : s.getD k 0 ≠ 0) : pc.pos + (k + 1) ≤ input.length := by
  have hlen := hat.length
  have := getD_ne h
  omega

theorem parseSlashChar_scans (hle : pc.pos ≤ input.length) :
    Scans reads (parseSlashChar input pc) () fun o _ => ∀ pc', o = some pc' → Behind input pc pc' := by
  refine Run.bind (Scans.rest hle) fun s _ hat => ?_
  have hgo : ∀ k, pc.pos + (k + 1) ≤ input.length → Scans reads (pure (some (pc.skip (k + 1))) : Scan (Option PegCursor)) ()
      fun o _ => ∀ pc', o = some pc' → Behind input pc pc' := fun k hk => Run.pure fun pc' h => by
    cases h
    exact ⟨show pc.pos < pc.pos + (k + 1) by omega,hk⟩
  dsimp only
  split
  · split
    · exact Run.pure fun _ h => nomatch h
    · rename_i h0
      exact hgo 0 (hat.headD_lt h0)
  rename_i hd
  have hd' : isDigit0to7 (s.headD 0) = true := by simpa using hd
  split
  · rename_i h3
    simp only [Bool.and_eq_true] at h3
    exact hgo 2 (hat.getD_lt (isDigit_ne h3.2))
  split
  · rename_i h2
    exact hgo 1 (hat.getD_lt (isDigit_ne h2))
  · exact hgo 0 (hat.headD_lt (isDigit_ne hd'))

theorem At.cr {s : List UInt8} (hat : At input pc s) (h : s.headD 0 ≠ 0) : Behind input pc (pc.cr s) := by
  rw [PegCursor.cr]
  split
  · rename_i h10
    exact ⟨Nat.lt_add_of_pos_right (by decide),hat.getD_lt (k := 1) (by rw [h10]; decide)⟩
  · exact ⟨Nat.lt_add_of_pos_right (by decide),hat.headD_lt h⟩

theorem At.skip {s : List UInt8} (hat : At input pc s) (h : s.headD 0 ≠ 0) : Behind input pc (pc.skip 1) :=
  ⟨Nat.lt_add_of_pos_right (by decide),hat.headD_lt h⟩

theorem At.newline {s : List UInt8} (hat : At input pc s) (h : s.headD 0 ≠ 0) : Behind input pc (pc.newline 1) :=
  ⟨Nat.lt_add_of_pos_right (by decide),hat.headD_lt h⟩

theorem codeString_scans (f : ℕ) (pc : PegCursor) (hle : pc.pos ≤ input.length) (hf : input.length < pc.pos + f) :
    Scans reads (codeString input f pc) () fun r _ => OkBehind input pc r := by
  induction f generalizing pc with
  | zero => omega
  | succ f ih =>
    rw [codeString]
    refine Run.bind (Scans.rest hle) fun s _ hat => ?_
    dsimp only
    have hgo : ∀ npc, Behind input pc npc → Scans reads (codeString input f npc) () fun r _ => OkBehind input pc r := fun npc hb =>
      (ih npc hb.le (by have := hb.gt; omega)).mono fun r _ h pc' hr => hb.trans (h pc' hr).ahead
    have hne : ∀ c, s.headD 0 = c → c ≠ 0 → s.headD 0 ≠ 0 := fun c h h0 => by rwa [h]
    split
    · rename_i h
      exact Run.pure fun pc' hr => by
        cases hr
        exact hat.skip (hne _ h (by decide))
    split
    · rename_i h
      exact hgo _ (hat.cr (hne _ h (by decide)))
    split
    · rename_i h
      exact hgo _ (hat.newline (hne _ h (by decide)))
    split
    · rename_i h
      have hb := hat.skip (hne _ h (by decide))
      refine Run.bind (parseSlashChar_scans hb.le) fun o _ ho => ?_
      cases o with
      | none => exact Run.pure fun _ h => nomatch h
      | some npc => exact hgo npc (hb.trans (ho npc rfl).ahead)
    split
    · exact Run.pure fun _ h => nomatch h
    · rename_i h
      exact hgo _ (hat.skip h)

theorem codeComment_scans (f : ℕ) (pc : PegCursor) (hle : pc.pos ≤ input.length) (hf : input.length < pc.pos + f) :
    Scans reads (codeComment input f pc) () fun r _ => OkBehind input pc r := by
  induction f generalizing pc with
  | zero => omega
  | succ f ih =>
    rw [codeComment]
    refine Run.bind (Scans.rest hle) fun s _ hat => ?_
    dsimp only
    have hgo : ∀ npc, Behind input pc npc → Scans reads (codeComment input f npc) () fun r _ => OkBehind input pc r := fun npc hb =>
      (ih npc hb.le (by have := hb.gt; omega)).mono fun r _ h pc' hr => hb.trans (h pc' hr).ahead
    have hne : ∀ c, s.headD 0 = c → c ≠ 0 → s.headD 0 ≠ 0 := fun c h h0 => by rwa [h]
    split
    · rename_i h
      exact Run.pure fun pc' hr => by
        cases hr
        exact ⟨Nat.lt_add_of_pos_right (by decide),hat.getD_lt (k := 1) (by rw [h.2]; decide)⟩
    split
    · rename_i h
      exact hgo _ (hat.cr (hne _ h (by decide)))
    split
    · rename_i h
      exact hgo _ (hat.newline (hne _ h (by decide)))
    split
    · exact Run.pure fun _ h => nomatch h
    · rename_i h
      exact hgo _ (hat.skip h)

theorem quotedChar_scans {s : List UInt8} (hat : At input pc s) (hne : reads → s ≠ []) :
    Scans reads (quotedChar input pc) () fun o _ => ∀ npc, o = some npc → pc.pos < npc.pos ∧ (reads → npc.pos ≤ input.length) := by
  refine Run.bind (Scans.rest hat.le) fun t _ hat' => ?_
  obtain rfl : t = s := hat'.text.symm.trans hat.text
  split
  · rename_i h92
    have h1 := hat.skip (by rw [h92]; decide)
    exact (parseSlashChar_scans h1.le).mono fun o _ ho npc hnpc => ⟨h1.gt.trans (ho npc hnpc).gt,fun _ => (ho npc hnpc).le⟩
  · refine Run.pure fun npc hnpc => ?_
    cases hnpc
    refine ⟨Nat.lt_add_of_pos_right (by decide),fun hr => ?_⟩
    have hlen := hat.length
    have hpos := List.length_pos_iff.2 (hne hr)
    show pc.pos + 1 ≤ input.length
    omega

theorem codeQuote_scans {s : List UInt8} (hat : At input pc s) (h : s.headD 0 = 39) :
    Scans reads (codeQuote input pc) () fun r _ => OkBehind input pc r := by
  have hb := hat.skip (by rw [h]; decide)
  refine Run.noted fun hev => Run.bind (quotedChar_scans ⟨hb.le,rfl⟩ hev) fun o _ ho => ?_
  cases o with
  | none => exact Run.pure fun _ h => nomatch h
  | some npc =>
    obtain ⟨hgt,hle⟩ := ho npc rfl
    refine Run.bind (Scans.rest_of hle) fun u _ hat' => ?_
    split
    · exact Run.pure fun _ h => nomatch h
    · rename_i h39
      refine Run.pure fun pc' hr => ?_
      cases hr
      have hb' := hat'.skip (by rw [not_not.1 h39]; decide)
      exact ⟨(hb.gt.trans hgt).trans hb'.gt,hb'.le⟩

theorem takeWhile_head (p : UInt8 → Bool) (s : List UInt8) :
    s.drop (s.takeWhile p).length = [] ∨ p ((s.drop (s.takeWhile p).length).headD 0) = false := by
  induction s with
  | nil => exact Or.inl rfl
  | cons c t ih =>
    by_cases hc : p c = true
    · rw [List.takeWhile_cons_of_pos hc]
      exact ih
    · rw [List.takeWhile_cons_of_neg hc]
      exact Or.inr (by simpa using hc)

theorem codeItem_scans (fuel depth : ℕ) (pc : PegCursor) (hle : pc.pos ≤ input.length) (hf : input.length < fuel) :
    Scans reads (codeItem input fuel depth pc) () fun r _ => ∀ d pc', r = .ok (d,pc') → Behind input pc pc' := by
  refine Run.bind (Scans.rest hle) fun s₀ _ hat₀ => ?_
  have hlen₀ := hat₀.length
  have hspn := (List.takeWhile_prefix isCcode (l := s₀)).length_le
  have hat : At input (pc.skip (s₀.takeWhile isCcode).length) (s₀.drop (s₀.takeWhile isCcode).length) := hat₀.step hspn rfl
  have hcode := takeWhile_head isCcode s₀
  have hge : pc.pos ≤ (pc.skip (s₀.takeWhile isCcode).length).pos := Nat.le_add_right _ _
  generalize pc.skip (s₀.takeWhile isCcode).length = npc at hat hge ⊢
  generalize s₀.drop (s₀.takeWhile isCcode).length = s at hat hcode
  dsimp only
  refine Run.bind (P := fun t _ => t = s) ?_ fun t _ ht => ?_
  · exact (Scans.rest hat.le).mono fun t _ ht => ht.text.symm.trans hat.text
  subst ht
  have hgo : ∀ d npc', Behind input npc npc' → Scans reads (pure (.ok (d,npc')) : Scan (Except PegCursor (ℕ × PegCursor))) ()
      fun r _ => ∀ d pc', r = .ok (d,pc') → Behind input pc pc' := fun d npc' hb => Run.pure fun d' pc' hr => by
    cases hr
    exact ⟨hge.trans_lt hb.gt,hb.le⟩
  have hmap : ∀ (m : Scan (Except PegCursor PegCursor)) npc', Ahead input npc npc' → (Scans reads m () fun r _ => OkBehind input npc' r) →
      Scans reads (do return (← m).map (depth,·) : Scan (Except PegCursor (ℕ × PegCursor))) ()
        fun r _ => ∀ d pc', r = .ok (d,pc') → Behind input pc pc' :=
            fun m npc' ha hm => Run.bind hm fun r _ hr => Run.pure fun d pc' h => by
    rcases r with e | q
    · cases h
    · cases h
      have hb := hr _ rfl
      exact ⟨(hge.trans ha.ge).trans_lt hb.gt,hb.le⟩
  have hne : ∀ c, t.headD 0 = c → c ≠ 0 → t.headD 0 ≠ 0 := fun c h h0 => by rwa [h]
  split
  · rename_i h
    have hb := hat.skip (hne _ h (by decide))
    exact hmap _ _ hb.ahead (codeString_scans fuel _ hb.le (by omega))
  split
  · rename_i h
    exact hmap _ npc ⟨le_rfl,hat.le⟩ (codeQuote_scans hat h)
  split
  · rename_i h
    have hb := hat.skip (hne _ h (by decide))
    split
    · exact hgo _ _ hb
    · rename_i h42
      have h2 : npc.pos + 2 ≤ input.length := hat.getD_lt (k := 1) (by rw [not_not.1 h42]; decide)
      exact hmap _ (npc.skip 2) ⟨Nat.le_add_right _ _,h2⟩ (codeComment_scans fuel _ h2 (by omega))
  split
  · rename_i h
    exact hgo _ _ (hat.cr (hne _ h (by decide)))
  split
  · rename_i h
    exact hgo _ _ (hat.newline (hne _ h (by decide)))
  split
  · exact Run.pure fun _ _ h => nomatch h
  rename_i h0
  split
  · exact hgo _ _ (hat.skip h0)
  split
  · exact hgo _ _ (hat.skip h0)
  · rename_i h34 h39 h47 h13 h10 h123 h125
    rcases hcode with rfl | hcode
    · exact absurd rfl h0
    · have hmem : t.headD 0 ∈ [34,39,47,123,125,13,10,0] := by
        simpa only [isCcode, Bool.not_eq_false', decide_eq_true_eq] using hcode
      simp only [List.mem_cons, h34, h39, h47, h13, h10, h0, h123, h125, List.not_mem_nil, or_self] at hmem

theorem codeLoop_scans {fuel : ℕ} (hfuel : input.length < fuel) (f depth : ℕ) (pc : PegCursor) (hle : pc.pos ≤ input.length)
    (hf : input.length < pc.pos + f) : Scans reads (codeLoop input fuel f depth pc) () fun r _ => OkBehind input pc r := by
  induction f generalizing depth pc with
  | zero => omega
  | succ f ih =>
    rw [codeLoop]
    refine Run.bind (codeItem_scans fuel depth pc hle hfuel) fun r _ hr => ?_
    rcases r with e | ⟨d,npc⟩
    · exact Run.pure fun _ h => nomatch h
    have hb := hr d npc rfl
    dsimp only
    split
    · exact (ih d npc hb.le (by have := hb.gt; omega)).mono fun r _ h pc' hr => hb.trans (h pc' hr).ahead
    · exact Run.pure fun pc' h => by
        cases h
        exact hb

theorem codeEnd_scans {fuel : ℕ} (hfuel : input.length < fuel) (hle : pc.pos ≤ input.length) :
    Scans reads (codeEnd input fuel pc) () fun r _ => ∀ pc', r = .yes pc' → Behind input pc pc' := by
  refine Run.bind (Scans.rest hle) fun s _ hat => ?_
  split
  · exact Run.pure fun _ h => nomatch h
  rename_i h
  have hb := hat.skip (by rw [not_not.1 h]; decide)
  refine Run.bind (codeLoop_scans hfuel fuel 1 _ hb.le (by omega)) fun r _ hr => ?_
  rcases r with e | npc
  · exact Run.pure fun _ h => nomatch h
  · exact Run.pure fun pc' h => by
      cases h
      exact hb.trans (hr npc rfl).ahead

/-! ## Where a scan stops -/

/-- A step that does not stay in the text is a read behind it. -/
abbrev StopsAt {σ α : Type} (m : Traced Fault Event σ α) : Prop := Stops Event.Inside .read m

/-- What only looks at the text: it stops at such a step, and all its faults are of the text. -/
structure OfText {α : Type} (n : Scan α) : Prop where
  stops : StopsAt n
  faults : Run (fun _ => True) Fault.Lexical n () fun _ _ => True

section OfText

variable {α β : Type} {n n' : Scan α} {f : α → Scan β}

theorem OfText.pure {a : α} : OfText (Pure.pure a : Scan α) := ⟨Stops.pure,Run.pure trivial⟩
theorem OfText.fail {e : Fault} (h : e.Lexical) : OfText (Traced.fail e : Scan α) := ⟨Stops.fail,Run.fail h⟩
theorem OfText.bind (hn : OfText n) (hf : ∀ a, OfText (f a)) : OfText (n >>= f) :=
  ⟨hn.stops.bind fun a => (hf a).stops,Run.bind hn.faults fun a _ _ => (hf a).faults⟩
theorem OfText.ite {p : Prop} [Decidable p] (h : OfText n) (h' : OfText n') : OfText (if p then n else n') := by
  split
  · exact h
  · exact h'

theorem OfText.noted {w : Event} {f : Unit → Scan β} (h : ¬w.Inside → ∀ s, (f () s).result = .error .read) (hf : OfText (f ())) :
    OfText (Traced.note w >>= f) := ⟨Stops.noted h hf.stops,Run.noted fun _ => hf.faults⟩

end OfText

theorem rest_text : OfText (rest input pc) := OfText.ite OfText.pure (OfText.fail trivial)

theorem skipSpaceFrom_open (s : List UInt8) (hs : ¬∃ c ∈ s, isEol c = true) (pc : PegCursor) :
    (skipSpaceFrom s true pc ()).result = .error .read := by
  induction s generalizing pc with
  | nil => rfl
  | cons c t ih =>
    have ht : ¬∃ c ∈ t, isEol c = true := fun ⟨d,hd,he⟩ => hs ⟨d,List.mem_cons_of_mem c hd,he⟩
    have hc : ¬isEol c = true := fun he => hs ⟨c,List.mem_cons_self,he⟩
    rw [skipSpaceFrom.eq_def]
    dsimp only
    split
    · rw [bind_ok (s := ()) (a := ()) (t := ()) rfl]
      exact ih ht _
    · rw [if_pos (Bool.true_or _)]
      exact ih ht _

theorem skipSpaceFrom_text (s : List UInt8) (inComment : Bool) (pc : PegCursor) : OfText (skipSpaceFrom s inComment pc) := by
  induction hk : s.length using Nat.strong_induction_on generalizing s inComment pc with
  | _ k ih =>
    subst hk
    cases s with
    | nil => exact OfText.ite (OfText.fail trivial) OfText.pure
    | cons c t =>
      have hgo : ∀ (s' : List UInt8) (b : Bool) (pc' : PegCursor), s'.length < (c :: t).length → OfText (skipSpaceFrom s' b pc') :=
        fun s' b pc' hlt => ih _ hlt s' b pc' rfl
      rw [skipSpaceFrom.eq_def]
      dsimp only
      refine OfText.ite (OfText.noted (fun hno s => skipSpaceFrom_open t hno _) (hgo _ _ _ (Nat.lt_succ_self _))) (OfText.ite ?_ ?_)
      · cases t with
        | nil => exact hgo _ _ _ (Nat.lt_succ_self _)
        | cons d t =>
          exact OfText.ite (hgo _ _ _ (by simp only [List.length_cons]; omega)) (hgo _ _ _ (Nat.lt_succ_self _))
      · exact OfText.ite (hgo _ _ _ (Nat.lt_succ_self _)) OfText.pure

theorem skipSpace_text : OfText (skipSpace input pc) := rest_text.bind fun s => skipSpaceFrom_text s false pc

theorem stringMatch_text (pat : List UInt8) : OfText (stringMatch input pat pc) :=
  OfText.ite (OfText.fail trivial) <| OfText.ite OfText.pure <| OfText.ite (skipSpace_text.bind fun _ => OfText.pure) OfText.pure

theorem parseChar_text : OfText (parseChar input pc) := rest_text.bind fun _ => OfText.pure

theorem literalLen_text (q : UInt8) (f : ℕ) (pc : PegCursor) (len : ℕ) : OfText (literalLen input q f pc len) := by
  induction f generalizing pc len with
  | zero => exact OfText.fail trivial
  | succ f ih =>
    refine parseChar_text.bind fun r => ?_
    rcases r with e | _ | ⟨c,npc⟩
    · exact OfText.pure
    · exact OfText.pure
    · exact OfText.ite OfText.pure (ih _ _)

theorem literalBytes_text (n : ℕ) (pc : PegCursor) : OfText (literalBytes input n pc) := by
  induction n generalizing pc with
  | zero => exact OfText.pure
  | succ n ih =>
    refine parseChar_text.bind fun r => ?_
    rcases r with e | _ | ⟨c,npc⟩
    · exact OfText.fail trivial
    · exact OfText.fail trivial
    · exact (ih _).bind fun _ => OfText.pure

theorem classAddChar_text (pc : PegCursor) (set : List UInt8) : OfText (classAddChar input pc set) := by
  refine parseChar_text.bind fun r => ?_
  rcases r with e | _ | ⟨c,npc⟩
  · exact OfText.pure
  · exact OfText.pure
  · refine rest_text.bind fun s => OfText.ite OfText.pure (parseChar_text.bind fun r => ?_)
    rcases r with e | _ | ⟨c,npc⟩ <;> exact OfText.pure

theorem classChars_text (c : UInt8) (f : ℕ) : OfText (classChars input c f pc) := by
  have hset : ∀ pc set, OfText (classSet input f pc set) := by
    induction f with
    | zero => exact fun _ _ => OfText.fail trivial
    | succ f ih =>
      refine fun pc set => rest_text.bind fun s => OfText.ite OfText.pure ((classAddChar_text pc set).bind fun r => ?_)
      rcases r with e | _ | x
      · exact OfText.pure
      · exact OfText.pure
      · exact ih _ _
  exact OfText.ite OfText.pure (hset _ _)

theorem parseSlashChar_text : OfText (parseSlashChar input pc) := rest_text.bind fun _ =>
  OfText.ite (OfText.ite OfText.pure OfText.pure) <| OfText.ite OfText.pure <| OfText.ite OfText.pure OfText.pure

theorem codeString_text (f : ℕ) (pc : PegCursor) : OfText (codeString input f pc) := by
  induction f generalizing pc with
  | zero => exact OfText.fail trivial
  | succ f ih =>
    refine rest_text.bind fun s => OfText.ite OfText.pure <| OfText.ite (ih _) <| OfText.ite
        (ih _) <| OfText.ite ?_ <| OfText.ite OfText.pure (ih _)
    refine parseSlashChar_text.bind fun o => ?_
    cases o with
    | none => exact OfText.pure
    | some npc => exact ih npc

theorem codeComment_text (f : ℕ) (pc : PegCursor) : OfText (codeComment input f pc) := by
  induction f generalizing pc with
  | zero => exact OfText.fail trivial
  | succ f ih =>
    exact rest_text.bind fun s => OfText.ite OfText.pure <| OfText.ite (ih _) <| OfText.ite (ih _) <| OfText.ite OfText.pure (ih _)

theorem codeQuote_text : OfText (codeQuote input pc) := by
  refine OfText.noted (fun hno s => ?_) (OfText.bind (rest_text.bind fun _ => OfText.ite parseSlashChar_text OfText.pure) fun o => ?_)
  · have hnil : input.drop (pc.pos + 1) = [] := not_not.1 hno
    have hle := List.drop_eq_nil_iff.1 hnil
    by_cases h : pc.pos + 1 ≤ input.length
    · have hrest := rest_at (show At input (pc.skip 1) [] from ⟨h,hnil⟩)
      have hchar : (quotedChar input (pc.skip 1) ()).result = .ok (some ((pc.skip 1).skip 1),()) := by
        rw [quotedChar,bind_ok hrest]
        rfl
      rw [bind_ok hchar]
      dsimp only
      have hpast : ¬((pc.skip 1).skip 1).pos ≤ input.length := by
        show ¬pc.pos + 1 + 1 ≤ input.length
        omega
      rw [rest,if_neg hpast]
      rfl
    · rw [quotedChar,rest,if_neg (show ¬(pc.skip 1).pos ≤ input.length from h)]
      rfl
  · cases o with
    | none => exact OfText.pure
    | some npc => exact rest_text.bind fun _ => OfText.ite OfText.pure OfText.pure

theorem codeEnd_text (fuel : ℕ) : OfText (codeEnd input fuel pc) := by
  have hitem : ∀ depth npc, OfText (codeItem input fuel depth npc) := fun depth npc =>
    rest_text.bind fun _ => rest_text.bind fun _ =>
      OfText.ite ((codeString_text _ _).bind fun _ => OfText.pure) <| OfText.ite (codeQuote_text.bind fun _ => OfText.pure) <|
      OfText.ite (OfText.ite OfText.pure ((codeComment_text _ _).bind fun _ =>
          OfText.pure)) <| OfText.ite OfText.pure <| OfText.ite OfText.pure <|
      OfText.ite OfText.pure <| OfText.ite OfText.pure <| OfText.ite OfText.pure (OfText.fail trivial)
  have hloop : ∀ f depth npc, OfText (codeLoop input fuel f depth npc) := by
    intro f
    induction f with
    | zero => exact fun _ _ => OfText.fail trivial
    | succ f ih =>
      refine fun depth npc => (hitem depth npc).bind fun r => ?_
      rcases r with e | ⟨d,npc⟩
      · exact OfText.pure
      · exact OfText.ite (ih _ _) OfText.pure
  refine rest_text.bind fun s => OfText.ite OfText.pure ((hloop _ _ _).bind fun r => ?_)
  rcases r with e | npc <;> exact OfText.pure

end Catlib.Peg.Parser
