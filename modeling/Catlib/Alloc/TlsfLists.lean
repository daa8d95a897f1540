import Catlib.Alloc.TlsfClass

/-! # The lists and the bitmaps of the two-level heap

A bit of a bitmap says whether a list, or a level, has a block. Putting a block on its list and
taking it off keep that, and the search finds the first list with a block from a class on.
-/
namespace Catlib.Alloc

open Function Bits

variable {tlsf : ℕ} {t : Tlsf} {F : ℕ → Option (Option Cls)} {c d : Cls} {a e n : ℕ}

theorem Cls.place_lt (c : Cls) : offset c.l1 + c.l2 < numheads := by
  have h1 := offset_le (i := c.l1) (k := numl2) c.l1_lt
  have h2 := c.l2_lt
  rw [offset_numl2] at h1
  omega

theorem Cls.place_inj {c d : Cls} (h : offset c.l1 + c.l2 = offset d.l1 + d.l2) : c = d := by
  have hc := c.l2_lt
  have hd := d.l2_lt
  rcases Nat.lt_trichotomy c.l1 d.l1 with hlt | heq | hlt
  · have := offset_le hlt
    omega
  · rw [heq] at h
    exact Cls.ext heq (by omega)
  · have := offset_le hlt
    omega

/-- The heads of the lists; that of the pools comes first in the record. -/
def tlsfHeads (tlsf : ℕ) : Option Cls → ℕ
  | none => tlsf
  | some c => tlsf + listsOffset + 16 * (offset c.l1 + c.l2)

/-- `sizeof(struct tlsf)`. -/
def tlsfSize : ℕ := listsOffset + 16 * numheads

theorem tlsfHeads_le (tlsf : ℕ) (j : Option Cls) : tlsf ≤ tlsfHeads tlsf j ∧ tlsfHeads tlsf j + 16 ≤ tlsf + tlsfSize := by
  have hoff : 16 ≤ listsOffset := by decide
  rcases j with _ | c
  · simp only [tlsfHeads,tlsfSize]
    omega
  · have := c.place_lt
    simp only [tlsfHeads,tlsfSize]
    omega

theorem tlsfHeads_apart (tlsf : ℕ) (i j : Option Cls) : i = j ∨ tlsfHeads tlsf i + 16 ≤ tlsfHeads tlsf j ∨ tlsfHeads tlsf j + 16 ≤ tlsfHeads tlsf i := by
  have hoff : 16 ≤ listsOffset := by decide
  rcases i with _ | c <;> rcases j with _ | d
  · exact .inl rfl
  · exact .inr (.inl (by simp only [tlsfHeads]; omega))
  · exact .inr (.inr (by simp only [tlsfHeads]; omega))
  · by_cases hcd : offset c.l1 + c.l2 = offset d.l1 + d.l2
    · exact .inl (by rw [Cls.place_inj hcd])
    · simp only [tlsfHeads]
      omega

/-- A list with a block. -/
def Filled (F : ℕ → Option (Option Cls)) (c : Cls) : Prop := ∃ n, F n = some (some c)

/-- The levels have their lists, and the bitmaps mark those that have a block. -/
structure Maps (tlsf : ℕ) (t : Tlsf) (F : ℕ → Option (Option Cls)) : Prop where
  pools : t.pools = tlsf
  lists : ∀ i < numl2, (t.l1 i).nblists = nbl i ∧ (t.l1 i).blists = tlsf + listsOffset + 16 * offset i
  level : ∀ i < numl2, Marks (t.l1 i).bm fun j => ∃ c : Cls, c.l1 = i ∧ c.l2 = j ∧ Filled F c
  levels : Marks t.l1bm fun i => ∃ c : Cls, c.l1 = i ∧ Filled F c

theorem filled_ins (h : F e = none) : Filled (update F e (some (some c))) d ↔ Filled F d ∨ d = c := by
  constructor
  · rintro ⟨n,hn⟩
    by_cases hne : n = e
    · rw [hne,update_self,Option.some.injEq,Option.some.injEq] at hn
      exact .inr hn.symm
    · rw [update_of_ne hne] at hn
      exact .inl ⟨n,hn⟩
  · rintro (⟨n,hn⟩ | rfl)
    · have hne : n ≠ e := fun he => by rw [he,h] at hn; cases hn
      exact ⟨n,by rw [update_of_ne hne]; exact hn⟩
    · exact ⟨e,update_self ..⟩

theorem filled_rem (h : F e = some (some c)) (hd : d ≠ c) : Filled (update F e none) d ↔ Filled F d := by
  constructor
  · rintro ⟨n,hn⟩
    by_cases hne : n = e
    · rw [hne,update_self] at hn
      cases hn
    · rw [update_of_ne hne] at hn
      exact ⟨n,hn⟩
  · rintro ⟨n,hn⟩
    have hne : n ≠ e := by
      rintro rfl
      rw [h] at hn
      exact hd (Option.some.inj (Option.some.inj hn)).symm
    exact ⟨n,by rw [update_of_ne hne]; exact hn⟩

theorem Cls.l1_le (c : Cls) : c.l1 < 64 := c.l1_lt.trans (by decide)

namespace Maps

theorem head (h : Maps tlsf t F) (c : Cls) : (t.l1 c.l1).blists + 16 * c.l2 = tlsfHeads tlsf (some c) := by
  rw [(h.lists _ c.l1_lt).2,tlsfHeads]
  omega

theorem mem (h : Maps tlsf t F) (m : Mem) : Maps tlsf { t with mem := m } F := ⟨h.pools,h.lists,h.level,h.levels⟩

theorem pool (h : Maps tlsf t F) (hF : F e = none) : Maps tlsf t (update F e (some none)) := by
  have hfill : ∀ c, Filled (update F e (some none)) c ↔ Filled F c := by
    intro c
    constructor
    · rintro ⟨n,hn⟩
      by_cases hne : n = e
      · rw [hne,update_self] at hn
        cases hn
      · rw [update_of_ne hne] at hn
        exact ⟨n,hn⟩
    · rintro ⟨n,hn⟩
      have hne : n ≠ e := fun he => by rw [he,hF] at hn; cases hn
      exact ⟨n,by rw [update_of_ne hne]; exact hn⟩
  exact ⟨h.pools,h.lists,fun i hi => (h.level i hi).congr fun j _ => by simp only [hfill],
    h.levels.congr fun i _ => by simp only [hfill]⟩

end Maps

theorem tlsfInsBlk_eq (mp : Maps tlsf t F) (r : Rings t.mem (tlsfHeads tlsf) F) (c : Cls) (hF : F (entry a) = none) :
    ∃ t', tlsfInsBlk t a c.l1 c.l2 = some t' ∧ t'.mem = link t.mem (tlsfHeads tlsf (some c)) (entry a) ∧
      Maps tlsf t' (update F (entry a) (some (some c))) := by
  have hins := r.lIns (p := tlsfHeads tlsf (some c)) (i := some c) (n := entry a) (.inl rfl) (Nat.succ_pos _)
  rw [tlsfInsBlk,mp.head c,hins,Option.map_some]
  refine ⟨_,rfl,rfl,mp.pools,fun i hi => ?_,fun i hi => ?_,?_⟩
  · by_cases hic : i = c.l1
    · subst hic
      simpa only [update_self] using mp.lists _ hi
    · simpa only [update_of_ne hic] using mp.lists i hi
  · by_cases hic : i = c.l1
    · subst hic
      simp only [update_self]
      refine ((mp.level _ hi).set (c.l2_le)).congr fun j _ => ?_
      simp only [filled_ins hF]
      constructor
      · rintro (⟨d,h1,h2,h3⟩ | rfl)
        · exact ⟨d,h1,h2,.inl h3⟩
        · exact ⟨c,rfl,rfl,.inr rfl⟩
      · rintro ⟨d,h1,h2,h3 | rfl⟩
        · exact .inl ⟨d,h1,h2,h3⟩
        · exact .inr h2.symm
    · simp only [update_of_ne hic]
      refine (mp.level i hi).congr fun j _ => ?_
      simp only [filled_ins hF]
      constructor
      · rintro ⟨d,h1,h2,h3⟩
        exact ⟨d,h1,h2,.inl h3⟩
      · rintro ⟨d,h1,h2,h3 | rfl⟩
        · exact ⟨d,h1,h2,h3⟩
        · exact absurd h1.symm hic
  · refine (mp.levels.set c.l1_le).congr fun i _ => ?_
    simp only [filled_ins hF]
    constructor
    · rintro (⟨d,h1,h2⟩ | rfl)
      · exact ⟨d,h1,.inl h2⟩
      · exact ⟨c,rfl,.inr rfl⟩
    · rintro ⟨d,h1,h2 | rfl⟩
      · exact .inl ⟨d,h1,h2⟩
      · exact .inr h1.symm

theorem tlsfRemBlk_eq (mp : Maps tlsf t F) (r : Rings t.mem (tlsfHeads tlsf) F) (hF : F (entry a) = some (some c)) :
    ∃ t', tlsfRemBlk t a c.l1 c.l2 = some t' ∧ t'.mem = unlink t.mem (entry a) ∧ Maps tlsf t' (update F (entry a) none) := by
  have hrem := r.lRem hF
  have r' := (r.unlink hF).1
  have hpos : tlsfHeads tlsf (some c) ≠ 0 := (r.pos _ (.inl ⟨_,rfl⟩)).ne'
  have hempty := r'.empty_iff (i := some c)
  rw [tlsfRemBlk,hrem,Option.bind_some]
  dsimp only
  rw [mp.head c,lIsempty,if_neg hpos,Option.map_some]
  -- the list of the node is marked as before unless it is empty now
  have hlist : ∀ d : Cls, d ≠ c → (Filled (update F (entry a) none) d ↔ Filled F d) := fun d hd => filled_rem hF hd
  have hc : Filled F c := ⟨_,hF⟩
  by_cases he : unlink t.mem (entry a) (tlsfHeads tlsf (some c)) = tlsfHeads tlsf (some c)
  · have hgone : ¬Filled (update F (entry a) none) c := fun ⟨n,hn⟩ => hempty.1 he n hn
    rw [if_pos (decide_eq_true he)]
    have hbm := (mp.level _ c.l1_lt).clear c.l2_le
    have hbm' : Marks ((t.l1 c.l1).bm &&& compl (1 <<< c.l2)) fun j => ∃ d : Cls, d.l1 = c.l1 ∧ d.l2 = j ∧
        Filled (update F (entry a) none) d := by
      refine hbm.congr fun j _ => ?_
      constructor
      · rintro ⟨⟨d,h1,h2,h3⟩,hne⟩
        exact ⟨d,h1,h2,(hlist d fun hd => hne (by rw [← h2,hd])).2 h3⟩
      · rintro ⟨d,h1,h2,h3⟩
        have hd : d ≠ c := fun hd => hgone (hd ▸ h3)
        exact ⟨⟨d,h1,h2,(hlist d hd).1 h3⟩,fun hj => hd (Cls.ext h1 (h2.trans hj))⟩
    refine ⟨_,rfl,rfl,mp.pools,fun i hi => ?_,fun i hi => ?_,?_⟩
    · by_cases hic : i = c.l1
      · subst hic
        simpa only [update_self] using mp.lists _ hi
      · simpa only [update_of_ne hic] using mp.lists i hi
    · by_cases hic : i = c.l1
      · subst hic
        simpa only [update_self] using hbm'
      · simp only [update_of_ne hic]
        refine (mp.level i hi).congr fun j _ => exists_congr fun d => and_congr_right fun h1 => and_congr_right fun _ => ?_
        exact (hlist d fun hd => hic (by rw [← h1,hd])).symm
    · by_cases h0 : (t.l1 c.l1).bm &&& compl (1 <<< c.l2) = 0
      · simp only [if_pos h0]
        refine (mp.levels.clear c.l1_le).congr fun i _ => ?_
        constructor
        · rintro ⟨⟨d,h1,h2⟩,hne⟩
          exact ⟨d,h1,(hlist d fun hd => hne (by rw [← h1,hd])).2 h2⟩
        · rintro ⟨d,h1,h2⟩
          have hd : d ≠ c := fun hd => hgone (hd ▸ h2)
          refine ⟨⟨d,h1,(hlist d hd).1 h2⟩,fun hi => ?_⟩
          exact hbm'.eq_zero_iff.1 h0 d.l2 d.l2_le ⟨d,h1.trans hi,rfl,h2⟩
      · simp only [if_neg h0]
        refine mp.levels.congr fun i _ => ?_
        constructor
        · rintro ⟨d,h1,h2⟩
          by_cases hd : d = c
          · subst hd
            obtain ⟨-,⟨d',h3,-,h4⟩,-⟩ := hbm'.least h0
            exact ⟨d',h3.trans h1,h4⟩
          · exact ⟨d,h1,(hlist d hd).2 h2⟩
        · rintro ⟨d,h1,h2⟩
          exact ⟨d,h1,(hlist d fun hd => hgone (hd ▸ h2)).1 h2⟩
  · have hstay : Filled (update F (entry a) none) c := by
      by_contra hno
      exact he (hempty.2 fun n hn => hno ⟨n,hn⟩)
    have hsame : ∀ d : Cls, Filled (update F (entry a) none) d ↔ Filled F d := by
      intro d
      by_cases hd : d = c
      · rw [hd]
        exact iff_of_true hstay hc
      · exact hlist d hd
    rw [if_neg (by simpa using he)]
    refine ⟨_,rfl,rfl,mp.pools,mp.lists,fun i hi => (mp.level i hi).congr fun j _ => ?_,mp.levels.congr fun i _ => ?_⟩
    · simp only [hsame]
    · simp only [hsame]

theorem tlsfFindBlk_eq (mp : Maps tlsf t F) (c : Cls) :
    (tlsfFindBlk t c.index = none ∧ ∀ d : Cls, c.index ≤ d.index → ¬Filled F d) ∨
      ∃ d : Cls, tlsfFindBlk t c.index = some (tlsfHeads tlsf (some d),d.index) ∧ c.index ≤ d.index ∧ Filled F d := by
  rw [tlsfFindBlk,Cls.index_shift,Cls.index_mask]
  dsimp only
  have hrow : Marks ((t.l1 c.l1).bm &&& compl (1 <<< c.l2 - 1)) fun j =>
      (∃ d : Cls, d.l1 = c.l1 ∧ d.l2 = j ∧ Filled F d) ∧ c.l2 ≤ j := (mp.level _ c.l1_lt).since c.l2_le
  have hrest : Marks (t.l1bm &&& compl (1 <<< c.l1 ||| (1 <<< c.l1 - 1))) fun i =>
      (∃ d : Cls, d.l1 = i ∧ Filled F d) ∧ c.l1 < i := mp.levels.behind c.l1_le
  generalize (t.l1 c.l1).bm &&& compl (1 <<< c.l2 - 1) = row at hrow ⊢
  generalize t.l1bm &&& compl (1 <<< c.l1 ||| (1 <<< c.l1 - 1)) = rest at hrest ⊢
  by_cases h0 : row = 0
  · rw [if_pos h0]
    have hnone := hrow.eq_zero_iff.1 h0
    by_cases h1 : rest = 0
    · rw [if_pos h1]
      have hnone' := hrest.eq_zero_iff.1 h1
      refine .inl ⟨rfl,fun d hd hf => ?_⟩
      by_cases hl : d.l1 = c.l1
      · refine hnone d.l2 d.l2_le ⟨⟨d,hl,rfl,hf⟩,?_⟩
        rw [Cls.index_eq,Cls.index_eq,hl] at hd
        omega
      · refine hnone' d.l1 d.l1_le ⟨⟨d,rfl,hf⟩,?_⟩
        have := d.l2_le
        rw [Cls.index_eq,Cls.index_eq] at hd
        omega
    · rw [if_neg h1]
      obtain ⟨-,⟨⟨e,he,hfe⟩,hle⟩,-⟩ := hrest.least h1
      generalize ntz64 rest = l1 at he hle ⊢
      subst he
      have hrow' := mp.level _ e.l1_lt
      have hne : (t.l1 e.l1).bm ≠ 0 := fun hz => hrow'.eq_zero_iff.1 hz e.l2 e.l2_le ⟨e,rfl,rfl,hfe⟩
      obtain ⟨-,⟨d,hd1,hd2,hfd⟩,-⟩ := hrow'.least hne
      rw [← hd2,← hd1,mp.head d]
      refine .inr ⟨d,rfl,?_,hfd⟩
      have := c.l2_le
      rw [Cls.index_eq,Cls.index_eq]
      omega
  · rw [if_neg h0]
    obtain ⟨-,⟨⟨d,hd1,hd2,hfd⟩,hle⟩,-⟩ := hrow.least h0
    rw [← hd2] at hle ⊢
    rw [← hd1,mp.head d]
    refine .inr ⟨d,rfl,?_,hfd⟩
    rw [Cls.index_eq,Cls.index_eq,hd1]
    omega

end Catlib.Alloc
