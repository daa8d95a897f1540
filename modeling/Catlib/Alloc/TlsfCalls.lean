import Catlib.Alloc.TlsfAlloc

/-! # tlsf_malloc

The amount that is looked for, the searches, and the pools that `add_mem_func` brings in between. A
new pool is as long as the amount, but the search starts at the class above it.
-/
namespace Catlib.Alloc

open Function

variable {tlsf : ℕ} {P Q : List Arena} {B B' : Layout} {t t' : Tlsf} {F F' : ℕ → Option (Option Cls)} {a k n s w i j p amt req len : ℕ}
  {c d : Cls} {f : ℕ → ℕ → ℕ}

/-! ## The amount -/

theorem tlsfAmount_spec (h : req < 2 ^ 30 + 64) : ∃ amt, tlsfAmount req = some amt ∧ 8 ∣ amt ∧ 32 ≤ amt ∧ req + 8 ≤ amt ∧ amt < 2 ^ 30 + 128 := by
  rw [tlsfAmount]
  by_cases hsmall : req < tlsfMinsz - unitsize
  · have hsmall' : req < 24 := hsmall
    rw [if_pos hsmall]
    exact ⟨32,rfl,by decide,by decide,by omega,by decide⟩
  · have hsmall' : 24 ≤ req := not_lt.1 hsmall
    have hround : (req + (unitsize <<< 1 - 1)) % 2 ^ 64 &&& compl (unitsize - 1) = (req + 15) / 8 * 8 := by
      have hsum : (req + (unitsize <<< 1 - 1)) % 2 ^ 64 = req + 15 := Nat.mod_eq_of_lt (by change req + 15 < _; omega)
      rw [hsum]
      exact and_high (w := 64) (k := 3) (by omega) (by decide)
    rw [if_neg hsmall]
    dsimp only
    rw [hround,if_neg]
    · exact ⟨_,rfl,Nat.dvd_mul_left _ _,by omega,by omega,by omega⟩
    · have halim : alim = 2 ^ 63 := by decide
      rw [halim]
      omega

/-- The class that the search starts from: all its blocks are large enough, and those of the classes
before it may not be. -/
structure StartClass (t : Tlsf) (amt : ℕ) (c : Cls) : Prop where
  eq : (calcTlsfIndices amt).bind (roundNextTlsfSize t amt) = some (c.index : ℤ)
  enough : amt ≤ c.lower
  first : ∀ p : Cls, p.index < c.index → p.lower < amt

theorem startClass (mp : Maps tlsf t F) (h8 : 8 ∣ amt) (h32 : 32 ≤ amt) (hlt : amt < 2 ^ 31) : ∃ c, StartClass t amt c := by
  obtain ⟨c,hc,hle,hfirst⟩ := roundNext_spec (t := t) (fun i hi => (mp.lists i hi).1) (by omega) h8 hlt
  exact ⟨c,by rw [calcTlsfIndices_eq (by omega) hlt,Option.bind_some,hc],hle,hfirst⟩

theorem tlsfMalloc_eq (hamt : tlsfAmount req = some amt) (hc : StartClass t amt c) (addMem : Option (ℕ → ℕ → ℕ)) (n : ℕ) :
    tlsfMalloc addMem n t req = tlsfAgain addMem amt c.index n 0 t := by
  have heq := hc.eq
  obtain ⟨idx,hidx,hround⟩ := Option.bind_eq_some_iff.1 heq
  rw [tlsfMalloc,hamt]
  dsimp only
  rw [hidx,Option.bind_some,hround,Option.bind_some,if_neg (by omega),Int.toNat_natCast]

/-! ## A search -/

theorem tlsfAgain_found (g : Seg tlsf P B (fun _ => False) t F) (h8 : 8 ∣ amt) (h32 : 32 ≤ amt) (hle : amt ≤ c.lower)
    (hd : Filled F d) (hcd : c.index ≤ d.index) (addMem : Option (ℕ → ℕ → ℕ)) (n calls : ℕ) :
    ∃ a k t' B' F', tlsfAgain addMem amt c.index (n + 1) calls t = some (a + 8,t') ∧ Seg tlsf P B' (fun _ => False) t' F' ∧ amt ≤ k ∧
      Gives B B' t.mem t'.mem a k := by
  rcases tlsfFindBlk_eq g.maps c with ⟨-,hno⟩ | ⟨e,hfind,hce,hfe⟩
  · exact absurd hd (hno d hcd)
  · have hlower : c.lower ≤ e.lower := by
      rcases Nat.lt_or_eq_of_le hce with h | h
      · exact Nat.le_of_lt (Nat.lt_of_lt_of_le (Nat.lt_add_of_pos_right (width_pos _)) (Cls.lower_of_index h))
      · rw [Cls.index_inj h]
    obtain ⟨a,k,t',B',F',hext,g',hk,hgives⟩ := tlsfExtract_spec g hfe h8 h32 (hle.trans hlower)
    refine ⟨a,k,t',B',F',?_,g',hk,hgives⟩
    simp only [tlsfAgain,hfind]
    exact hext

theorem tlsfAgain_none (g : Seg tlsf P B (fun _ => False) t F) (h8 : 8 ∣ amt) (h32 : 32 ≤ amt) (hle : amt ≤ c.lower) (n calls : ℕ) :
    tlsfAgain none amt c.index (n + 1) calls t = some (0,t) ∨
      ∃ a k t' B' F', tlsfAgain none amt c.index (n + 1) calls t = some (a + 8,t') ∧ Seg tlsf P B' (fun _ => False) t' F' ∧ amt ≤ k ∧
        Gives B B' t.mem t'.mem a k := by
  rcases tlsfFindBlk_eq g.maps c with ⟨hfind,-⟩ | ⟨e,-,hce,hfe⟩
  · left
    rw [tlsfAgain,hfind]
  · exact .inr (tlsfAgain_found g h8 h32 hle hfe hce none n calls)

theorem tlsfMalloc_none (g : Seg tlsf P B (fun _ => False) t F) (hreq : req < 2 ^ 30 + 64) (n : ℕ) :
    tlsfMalloc none (n + 1) t req = some (0,t) ∨
      ∃ a k t' B' F', tlsfMalloc none (n + 1) t req = some (a + 8,t') ∧ Seg tlsf P B' (fun _ => False) t' F' ∧ req + 8 ≤ k ∧
        Gives B B' t.mem t'.mem a k := by
  obtain ⟨amt,hamt,h8,h32,hge,hlt⟩ := tlsfAmount_spec hreq
  obtain ⟨c,hc⟩ := startClass g.maps h8 h32 (by omega)
  rw [tlsfMalloc_eq hamt hc]
  refine (tlsfAgain_none g h8 h32 hc.enough n 0).imp id ?_
  rintro ⟨a,k,t',B',F',hcall,g',hk,hgives⟩
  exact ⟨a,k,t',B',F',hcall,g',hge.trans hk,hgives⟩

/-! ## More memory -/

/-- What is asked of `add_mem_func`. -/
def moreAmt (amt : ℕ) : ℕ := max (amt + unitsize + tlsfPoolSize) minMoremem

theorem moreAmt_spec (h8 : 8 ∣ amt) (hlt : amt < 2 ^ 30 + 128) : 80 ≤ moreAmt amt ∧ moreAmt amt < 2 ^ 31 ∧
    moreAmt amt / unitsize * unitsize - 48 = max amt 8144 := by
  have hmore : moreAmt amt = max amt 8144 + 48 := by
    rw [moreAmt]
    change max (amt + 8 + 40) 8192 = _
    lia
  have hmul : 8 ∣ moreAmt amt := by
    rw [hmore]
    rcases max_choice amt 8144 with h | h <;> rw [h]
    · exact Nat.dvd_add h8 (by decide)
    · decide
  have hdiv : moreAmt amt / unitsize * unitsize = moreAmt amt := Nat.div_mul_cancel hmul
  rw [hdiv,hmore]
  lia

/-- The answers from some call on: null, or regions of their own. -/
structure Supply (tlsf : ℕ) (P : List Arena) (len : ℕ) (f : ℕ → ℕ) (calls : ℕ) : Prop where
  fresh : ∀ k, calls ≤ k → f k ≠ 0 → Fresh tlsf P (f k) len
  apart : ∀ i j, calls ≤ i → i < j → f i ≠ 0 → f j ≠ 0 → f i + len ≤ f j ∨ f j + len ≤ f i

theorem Supply.next {f : ℕ → ℕ} (h : Supply tlsf P len f i) (hi : f i ≠ 0) (h8 : 8 ≤ len) : Supply tlsf (tlsfArena (f i) len :: P) len f (i + 1) := by
  refine ⟨fun k hk hf => ?_,fun k j hk => h.apart k j (by omega)⟩
  obtain ⟨h1,h2,h3,h4,h5⟩ := h.fresh k (by omega) hf
  refine ⟨h1,h2,h3,List.forall_mem_cons.2 ⟨?_,h4⟩,h5⟩
  have hdiv := Nat.div_mul_le_self len unitsize
  have hpos : unitsize ≤ len / unitsize * unitsize := Nat.le_mul_of_pos_left unitsize (Nat.div_pos h8 (by decide))
  have hunit : unitsize = 8 := rfl
  have := h.apart i k (Nat.le_refl i) (by omega) hi hf
  simp only [tlsfArena]
  omega

theorem tlsfAgain_dry (g : Seg tlsf P B (fun _ => False) t F) (f : ℕ → ℕ → ℕ) (hno : ∀ d : Cls, c.index ≤ d.index → ¬Filled F d)
    (hf : f i (moreAmt amt) = 0) (n : ℕ) : tlsfAgain (some f) amt c.index (n + 1) i t = some (0,t) := by
  rcases tlsfFindBlk_eq g.maps c with ⟨hfind,-⟩ | ⟨e,-,hce,hfe⟩
  · simp only [tlsfAgain,hfind]
    exact if_pos hf
  · exact absurd hfe (hno e hce)

theorem tlsfAgain_add (g : Seg tlsf P B (fun _ => False) t F) (f : ℕ → ℕ → ℕ) (h8 : 8 ∣ amt) (hlt : amt < 2 ^ 30 + 128)
    (hno : ∀ d : Cls, c.index ≤ d.index → ¬Filled F d) (hf : f i (moreAmt amt) ≠ 0) (hfresh : Fresh tlsf P (f i (moreAmt amt)) (moreAmt amt))
    (n : ℕ) : ∃ t' B' F', tlsfAgain (some f) amt c.index (n + 1) i t = tlsfAgain (some f) amt c.index n (i + 1) t' ∧
      Seg tlsf (tlsfArena (f i (moreAmt amt)) (moreAmt amt) :: P) B' (fun _ => False) t' F' ∧ (∀ c n, InUse B' c n ↔ InUse B c n) ∧
      (∀ c s w, InUse B c s → c < w → w < c + s → t'.mem w = t.mem w) ∧ ∀ d, Filled F' d ↔ Filled F d ∨ d = clsOf (max amt 8144) := by
  obtain ⟨hm80,hm31,hm⟩ := moreAmt_spec h8 hlt
  obtain ⟨t',B',F',hadd,g',huse,hheld,hfill⟩ := tlsfAddPool_spec g hm80 hm31 hfresh
  rw [hm] at hfill
  refine ⟨t',B',F',?_,g',huse,hheld,hfill⟩
  rcases tlsfFindBlk_eq g.maps c with ⟨hfind,-⟩ | ⟨e,-,hce,hfe⟩
  · rw [tlsfAgain,hfind]
    dsimp only
    change (if f i (moreAmt amt) = 0 then _ else (tlsfAddPool t (f i (moreAmt amt)) (moreAmt amt)).bind _) = _
    rw [if_neg hf,hadd,Option.bind_some]
  · exact absurd hfe (hno e hce)

/-- The block of a new pool is on a list that is searched. -/
def PoolFits (amt : ℕ) : Prop := amt ≤ 8128 ∨ (clsOf amt).lower = amt

theorem StartClass.le_iff (hc : StartClass t amt c) : c.index ≤ d.index ↔ amt ≤ d.lower := by
  constructor
  · intro h
    have := hc.enough
    rcases Nat.lt_or_eq_of_le h with hlt | heq
    · have := Cls.lower_of_index hlt
      omega
    · rwa [← Cls.index_inj heq]
  · intro h
    by_contra hlt
    have := hc.first d (by omega)
    omega

theorem poolFits_iff (hc : StartClass t amt c) (h32 : 32 ≤ amt) (hlt : amt < 2 ^ 31) :
    c.index ≤ (clsOf (max amt 8144)).index ↔ PoolFits amt := by
  have h8144 : (clsOf 8144).lower = 8128 := by decide +kernel
  have hwidth : width (clsOf 8144).l1 = 64 := by decide +kernel
  obtain ⟨hlow,-⟩ := clsOf_range (n := amt) (by omega) (by omega)
  rw [hc.le_iff,PoolFits]
  rcases le_or_gt 8144 amt with hge | hless
  · rw [max_eq_left hge]
    omega
  · rw [max_eq_right hless.le,h8144,iff_self_or]
    intro hleast
    by_contra hno
    rw [clsOf_unique (c := clsOf 8144) (by omega) (by omega)] at hleast
    omega

/-- A free block all of whose class is large enough. -/
def Ample (B : Layout) (amt : ℕ) : Prop := ∃ a x, B a = some x ∧ x.kind = .free ∧ amt ≤ (clsOf x.size).lower

theorem ample_iff (g : Seg tlsf P B (fun _ => False) t F) (hc : StartClass t amt c) :
    Ample B amt ↔ ∃ d : Cls, c.index ≤ d.index ∧ Filled F d := by
  constructor
  · rintro ⟨a,x,ha,hk,hle⟩
    exact ⟨clsOf x.size,hc.le_iff.2 hle,a + 8,(g.heap.listed _ _).2 (.inr ⟨a,x,rfl,ha,hk,not_false,rfl⟩)⟩
  · rintro ⟨d,hcd,hd⟩
    obtain ⟨a,x,-,ha,hk,rfl⟩ := g.first hd
    exact ⟨a,x,ha,hk,hc.le_iff.1 hcd⟩

/-- Two searches, with at most one call of `add_mem_func` between them, give a block with room for the
request. -/
def Grants (tlsf : ℕ) (t : Tlsf) (f : ℕ → ℕ → ℕ) (req : ℕ) : Prop :=
  ∃ a k t' P' B' F', tlsfMalloc (some f) 2 t req = some (a + 8,t') ∧ Seg tlsf P' B' (fun _ => False) t' F' ∧ InUse B' a k ∧ req + 8 ≤ k

theorem tlsfMalloc_grants (g : Seg tlsf P B (fun _ => False) t F) (hreq : req < 2 ^ 30) (hamt : tlsfAmount req = some amt)
    (hfresh : Fresh tlsf P (f 0 (moreAmt amt)) (moreAmt amt)) (hfits : Ample B amt ∨ PoolFits amt) : Grants tlsf t f req := by
  obtain ⟨amt',hamt',h8,h32,hge,hlt⟩ := tlsfAmount_spec (show req < 2 ^ 30 + 64 by omega)
  obtain rfl := Option.some.inj (hamt'.symm.trans hamt)
  obtain ⟨c,hc⟩ := startClass g.maps h8 h32 (by omega)
  rw [ample_iff g hc] at hfits
  by_cases hample : ∃ d : Cls, c.index ≤ d.index ∧ Filled F d
  · obtain ⟨d,hcd,hd⟩ := hample
    obtain ⟨a,k,t',B',F',hcall,g',hk,hgives⟩ := tlsfAgain_found g h8 h32 hc.enough hd hcd (some f) 1 0
    exact ⟨a,k,t',P,B',F',by rw [tlsfMalloc_eq hamt hc,hcall],g',(hgives.used a k).2 (.inr ⟨rfl,rfl⟩),hge.trans hk⟩
  · have hpool := (poolFits_iff hc h32 (by omega)).2 (hfits.resolve_left hample)
    obtain ⟨t1,B1,F1,hadd,g1,-,-,hfill⟩ := tlsfAgain_add g f h8 hlt (fun d hcd hd => hample ⟨d,hcd,hd⟩) hfresh.pos.ne' hfresh 1
    obtain ⟨a,k,t',B',F',hcall,g',hk,hgives⟩ := tlsfAgain_found g1 h8 h32 hc.enough ((hfill _).2 (.inr rfl)) hpool (some f) 0 1
    exact ⟨a,k,t',_,B',F',by rw [tlsfMalloc_eq hamt hc,hadd,hcall],g',(hgives.used a k).2 (.inr ⟨rfl,rfl⟩),hge.trans hk⟩

theorem tlsfMalloc_misses (g : Seg tlsf P B (fun _ => False) t F) (hreq : req < 2 ^ 30) (hamt : tlsfAmount req = some amt)
    (hfresh : Fresh tlsf P (f 0 (moreAmt amt)) (moreAmt amt)) (hno : ¬(Ample B amt ∨ PoolFits amt)) : ¬Grants tlsf t f req := by
  obtain ⟨amt',hamt',h8,h32,-,hlt⟩ := tlsfAmount_spec (show req < 2 ^ 30 + 64 by omega)
  obtain rfl := Option.some.inj (hamt'.symm.trans hamt)
  obtain ⟨c,hc⟩ := startClass g.maps h8 h32 (by omega)
  rw [ample_iff g hc,← poolFits_iff hc h32 (by omega),not_or] at hno
  obtain ⟨t1,B1,F1,hadd,g1,-,-,hfill⟩ := tlsfAgain_add g f h8 hlt (fun d hcd hd => hno.1 ⟨d,hcd,hd⟩) hfresh.pos.ne' hfresh 1
  rintro ⟨a,k,t',P',B',F',hcall,-⟩
  rw [tlsfMalloc_eq hamt hc,hadd] at hcall
  rcases tlsfFindBlk_eq g1.maps c with ⟨hfind,-⟩ | ⟨e,-,hce,he⟩
  · simp only [tlsfAgain,hfind] at hcall
    split at hcall
    · cases hcall
    · obtain ⟨t2,-,hcall⟩ := Option.bind_eq_some_iff.1 hcall
      cases hcall
  · rcases (hfill e).1 he with h | rfl
    · exact hno.1 ⟨e,hce,h⟩
    · exact hno.2 hce

/-- With memory from `add_mem_func`, `tlsf_malloc` gives a block if and only if there is one in a class
that is large enough, or the block of the new pool is in such a class. -/
theorem tlsfMalloc_grants_iff (g : Seg tlsf P B (fun _ => False) t F) (hreq : req < 2 ^ 30) (hamt : tlsfAmount req = some amt)
    (hfresh : Fresh tlsf P (f 0 (moreAmt amt)) (moreAmt amt)) : Grants tlsf t f req ↔ Ample B amt ∨ PoolFits amt :=
  ⟨fun h => by_contra fun hno => tlsfMalloc_misses g hreq hamt hfresh hno h,tlsfMalloc_grants g hreq hamt hfresh⟩

theorem fresh_empty (hlen : len < 2 ^ 31) : Fresh 8 [] (2 ^ 20) len := by
  refine ⟨by decide,by decide,by omega,nofun,fun j => .inl ?_⟩
  have hsize : 8 + tlsfSize ≤ 2 ^ 20 := by decide
  exact (tlsfHeads_le 8 j).2.trans hsize

theorem tlsfMalloc_grants_100 : Grants 8 (tlsfInit (fun _ => 0) 8) (fun _ _ => 2 ^ 20) 100 :=
  (tlsfMalloc_grants_iff (tlsfInit_spec _ (by decide)) (by decide) (rfl : tlsfAmount 100 = some 112) (fresh_empty (by decide))).2
    (.inr (.inl (by decide)))

/-- A request of 8128 bytes looks for 8136; the pool that comes for it has 8144 in one block, which is on
a list of lengths from 8128 on. -/
theorem tlsfMalloc_misses_8128 : ¬∀ tlsf P B t F req amt (f : ℕ → ℕ → ℕ), Seg tlsf P B (fun _ => False) t F → req < 2 ^ 30 →
    tlsfAmount req = some amt → Fresh tlsf P (f 0 (moreAmt amt)) (moreAmt amt) → Grants tlsf t f req := by
  intro h
  have hamt : tlsfAmount 8128 = some 8136 := rfl
  have hfresh : Fresh 8 [] (2 ^ 20) (moreAmt 8136) := fresh_empty (by decide)
  have hempty := tlsfInit_spec (fun _ => 0) (show 0 < 8 by decide)
  refine tlsfMalloc_misses hempty (by decide) hamt hfresh ?_ (h 8 [] _ _ _ 8128 8136 (fun _ _ => 2 ^ 20) hempty (by decide) hamt hfresh)
  rintro (⟨a,x,ha,-⟩ | h | h)
  · cases ha
  · exact absurd h (by decide)
  · exact absurd h (by decide +kernel)

end Catlib.Alloc
