import Catlib.Peg.Sound

/-! # The whole-input check of cpg_parse

After the match of the start symbol the cursor is compared with the end mark. The end mark
holds 2³² - 1 until `cpg_getc` has met the end of the stream, so the check accepts a match of
the whole input exactly when the match has looked at the end.
-/
namespace Catlib.Peg

variable {σ : Type} {g : PegGrammar σ} {w : List UInt8} {s : CpgState σ}

/-- The state after `cpg_reset`, with a stream that will deliver `w`. -/
def cpgReset (s : CpgState σ) (w : List UInt8) : CpgState σ :=
  { s with cur := ⟨1,1⟩, buf := fun k => if k < s.buflen then 0 else s.buf k, readidx := 1, eof := uintMod - 1, inp := w }

/-- `cpg_parse`; `start` is the `start_node` of the grammar. -/
def cpgParse (g : PegGrammar σ) (start : ℤ) (fuel : ℕ) (s : CpgState σ) : Option (CpgState σ × ℤ) := do
  let (s,rv) ← cpgMatchIdentifier g fuel s start
  if rv ≥ 0 ∧ s.cur.i < s.eof then return (s,-1) else return (s,rv)

/-- The buffer has been allocated by `cpg_init` and has grown page by page. -/
def Paged (s : CpgState σ) : Prop := 4096 ∣ s.buflen ∧ 4096 ≤ s.buflen ∧ s.buflen < uintMod

theorem paged_init (w : List UInt8) (a : σ) : Paged (cpgInit w a) :=
  ⟨dvd_refl 4096,le_refl 4096,show 4096 < uintMod by decide⟩

theorem standing_reset (hs : Paged s) (w : List UInt8) : Standing w (cpgReset s w) :=
  ⟨⟨le_rfl,le_rfl,le_trans (by decide : 1 ≤ 4096) hs.2.1,Nat.le_add_left 1 _,fun _ h1 h2 => absurd h1 (not_le.mpr h2),
    rfl,Or.inl rfl⟩,Or.inr ⟨hs.1,hs.2.2⟩⟩

theorem cpgParse_spec (hg : g.Mild) (hs : Paged s) {start : ℤ} {fuel : ℕ} {r : CpgState σ × ℤ}
    (hr : cpgParse g start fuel (cpgReset s w) = some r) :
    ∃ b, (∃ n, Trace (rules g) (.nt (.ident start)) w (some n) b ∧ r.2 = if b ∧ n = w.length then 1 else -1) ∨
      Trace (rules g) (.nt (.ident start)) w none b ∧ r.2 ≤ 0 := by
  simp only [cpgParse, Option.bind_eq_bind, Option.bind_eq_some_iff] at hr
  obtain ⟨⟨t,rv⟩,hm,hr⟩ := hr
  obtain ⟨hb,-,b,hseen,hmean⟩ := (cpg_sound hg fuel).2.2.2 _ _ _ (standing_reset hs w) hm
  dsimp only at hb hseen hmean hr
  have hlow := hb.small'
  have hle := hb.le
  have hsmall := hb.small
  refine ⟨b,?_⟩
  rcases hmean with ⟨rfl,n,he,hi⟩ | ⟨rfl,he,hc⟩
  · refine Or.inl ⟨n,he,?_⟩
    change t.cur.i = 1 + n at hi
    cases b with
    | true =>
      -- the end mark is behind the last character
      change t.eof = w.length + 1 at hseen
      split at hr
      · cases hr
        rw [if_neg (by omega)]
      · rename_i h
        cases hr
        rw [if_pos ⟨rfl,by omega⟩]
    | false =>
      -- the end mark is still where the reset put it
      change t.eof = uintMod - 1 at hseen
      rw [if_pos ⟨by decide,by omega⟩] at hr
      cases hr
      simp
  · refine Or.inr ⟨he,?_⟩
    split at hr <;> cases hr <;> simp

/-- **cpg_parse returns a positive value exactly for the inputs that the start symbol consumes
as a whole, if and only if the match of the whole input looks at the end.** An input that is
left in part is never accepted. -/
theorem cpgParse_whole (hg : g.Mild) (hs : Paged s) {start : ℤ} {fuel : ℕ} {r : CpgState σ × ℤ}
    (hr : cpgParse g start fuel (cpgReset s w) = some r) :
    ((0 < r.2 ↔ Eval (rules g) (.nt (.ident start)) w (some w.length)) ∧
      ∀ n < w.length, Eval (rules g) (.nt (.ident start)) w (some n) → r.2 ≤ 0) ↔
    (Eval (rules g) (.nt (.ident start)) w (some w.length) →
      Trace (rules g) (.nt (.ident start)) w (some w.length) true) := by
  obtain ⟨b,⟨n,ht,hrv⟩ | ⟨ht,hrv⟩⟩ := cpgParse_spec hg hs hr
  · have hn : ∀ {m}, Eval (rules g) (.nt (.ident start)) w (some m) → m = n := by
      intro m hm
      cases hm.unique ht.eval
      rfl
    constructor
    · rintro ⟨h,-⟩ he
      have hpos := h.2 he
      rw [hrv] at hpos
      split at hpos
      · rename_i hb
        rw [hn he,← hb.1]
        exact ht
      · omega
    · intro h
      refine ⟨⟨fun hpos => ?_,fun he => ?_⟩,fun m hm he => ?_⟩
      · rw [hrv] at hpos
        split at hpos
        · rename_i hb
          rw [← hb.2]
          exact ht.eval
        · omega
      · rw [hrv,if_pos ⟨ht.unique_end (h he),(hn he).symm⟩]
        decide
      · rw [hrv,if_neg (by have := hn he; omega)]
        decide
  · have hno : ∀ {m}, ¬Eval (rules g) (.nt (.ident start)) w (some m) := by
      intro m hm
      cases hm.unique ht.eval
    exact ⟨fun _ he => absurd he hno,fun _ => ⟨⟨fun h => by omega,fun he => absurd he hno⟩,fun _ _ he => absurd he hno⟩⟩

/-- The tables of `S <- "a"` and of `S <- "a"*`, with the start symbol at index 0. -/
def letterGrammar (sfx : PegAttr) : PegGrammar Unit where
  nodes := [⟨.identifier,[],-1,1,.none,.none,.none,fun _ _ a => (0,a)⟩,
    ⟨.definition,[],2,0,.none,.none,.none,fun _ _ a => (0,a)⟩,
    ⟨.sequence,[],-1,3,.none,.none,.none,fun _ _ a => (0,a)⟩,
    ⟨.primary,[],-1,4,.none,.none,sfx,fun _ _ a => (0,a)⟩,
    ⟨.literal,[97],-1,-1,.none,.none,.none,fun _ _ a => (0,a)⟩]
  numTokens := 0

theorem letterGrammar_mild (sfx : PegAttr) : (letterGrammar sfx).Mild := by
  simp [PegGrammar.Mild, letterGrammar]

def sampleParse (sfx : PegAttr) : Option (CpgState Unit × ℤ) :=
  cpgParse (letterGrammar sfx) 0 9 (cpgReset (cpgInit [] ()) [97])

theorem sampleParse_isSome : (sampleParse .star).isSome := by decide

theorem cpgParse_whole_sample :
    ((0 < ((sampleParse .star).get sampleParse_isSome).2 ↔ Eval (rules (letterGrammar .star)) (.nt (.ident 0)) [97] (some 1)) ∧
      ∀ n < 1, Eval (rules (letterGrammar .star)) (.nt (.ident 0)) [97] (some n) →
        ((sampleParse .star).get sampleParse_isSome).2 ≤ 0) ↔
    (Eval (rules (letterGrammar .star)) (.nt (.ident 0)) [97] (some 1) →
      Trace (rules (letterGrammar .star)) (.nt (.ident 0)) [97] (some 1) true) :=
  cpgParse_whole (letterGrammar_mild .star) (paged_init [] ()) (Option.some_get sampleParse_isSome).symm

/-- The literal has consumed the whole input and nothing has looked behind it. -/
theorem cpgParse_rejects_whole : (∃ t, sampleParse .none = some (t,-1)) ∧
    Eval (rules (letterGrammar .none)) (.nt (.ident 0)) [97] (some 1) := by
  have hm : ∃ t, cpgMatchIdentifier (letterGrammar .none) 9 (cpgReset (cpgInit [] ()) [97]) 0 = some (t,1) ∧ t.cur.i = 2 ∧
      t.eof = uintMod - 1 := ⟨_,rfl,rfl,rfl⟩
  obtain ⟨t,ht,hi,he⟩ := hm
  refine ⟨⟨t,?_⟩,?_⟩
  · simp only [sampleParse, cpgParse, ht, Option.bind_eq_bind, Option.bind_some]
    rw [if_pos ⟨by decide,by rw [hi,he]; decide⟩]
    rfl
  · have h := ((cpg_sound (letterGrammar_mild .none) 9).2.2.2 _ _ _ (standing_reset (paged_init [] ()) [97]) ht).agrees
    exact (h.success 1).2 ⟨rfl,hi⟩

end Catlib.Peg
