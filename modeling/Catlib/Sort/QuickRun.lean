import Catlib.Sort.Quick

/-! # The outer loop of quick sort

Between two turns the array is in order except within the pending segments: the current
one and those on the stack. The depth of a stack entry exceeds its height, which keeps
the stack below its capacity.
-/
namespace Catlib.Sort

variable {M α : Type} {A : Cells M α} {cmp : α → α → ℤ} {m m' m₀ : M} {s n N B fuel lo hi : ℕ}

/-! ## Pending segments -/

/-- Two positions below `N` are in order unless they lie in one segment of the list. -/
def Pending (A : Cells M α) (cmp : α → α → ℤ) (m : M) (N : ℕ) (gs : List (ℕ × ℕ)) : Prop :=
  ∀ i j, i < j → j < N → cmp (A.elem m i) (A.elem m j) ≤ 0 ∨ ∃ g ∈ gs, g.1 ≤ i ∧ j < g.1 + g.2

/-- The second segment lies apart from the first. -/
def Apart (g k : ℕ × ℕ) : Prop := g.1 + g.2 ≤ k.1 ∨ k.1 + k.2 ≤ g.1

variable {gs : List (ℕ × ℕ)}

theorem Pending.swaps (hp : Pending A cmp m N ((s,n) :: gs)) (hd : ∀ g ∈ gs, Apart (s,n) g) (hN : s + n ≤ N)
    (hn : N ≤ A.nelem) (hsw : Swaps A s (s + n) m m') : Pending A cmp m' N ((s,n) :: gs) := by
  intro i j hij hj
  have hout : ∀ g ∈ gs, ∀ x, s ≤ x → x < s + n → ¬(g.1 ≤ x ∧ x < g.1 + g.2) := by
    intro g hg x hx1 hx2 hgx
    rcases hd g hg with h | h <;> dsimp only at h <;> lia
  by_cases hi : s ≤ i ∧ i < s + n
  · by_cases hjs : j < s + n
    · exact Or.inr ⟨_,List.mem_cons_self,hi.1,hjs⟩
    refine Or.inl ?_
    rw [hsw.outside (by lia) (by lia) (Or.inr (not_lt.mp hjs))]
    refine hsw.forall (P := fun a => cmp a (A.elem m j) ≤ 0) (by lia) (fun x hx1 hx2 => ?_) i hi.1 hi.2
    refine (hp x j (by lia) hj).resolve_right ?_
    rintro ⟨g,hg,hg1,hg2⟩
    rcases List.mem_cons.mp hg with rfl | hg
    · exact hjs hg2
    · exact hout g hg x hx1 hx2 ⟨hg1,by lia⟩
  · by_cases hjs : s ≤ j ∧ j < s + n
    · refine Or.inl ?_
      rw [hsw.outside (by lia) (by lia) (by lia)]
      refine hsw.forall (P := fun a => cmp (A.elem m i) a ≤ 0) (by lia) (fun x hx1 hx2 => ?_) j hjs.1 hjs.2
      refine (hp i x (by lia) (by lia)).resolve_right ?_
      rintro ⟨g,hg,hg1,hg2⟩
      rcases List.mem_cons.mp hg with rfl | hg
      · dsimp only at hg1
        lia
      · exact hout g hg x hx1 hx2 ⟨by lia,hg2⟩
    · rw [hsw.outside (by lia) (by lia) (by lia),hsw.outside (by lia) (by lia) (by lia)]
      exact hp i j hij hj

theorem Pending.split (hc : IsCmp cmp) (hp : Pending A cmp m' N ((s,n) :: gs)) (h : Partitioned A cmp m s n lo hi m') :
    Pending A cmp m' N ((s,lo - s) :: (hi,s + n - hi) :: gs) := by
  have hhi := h.hi_eq
  have hlo := h.lo_ge
  have hle := h.hi_le
  intro i j hij hj
  rcases hp i j hij hj with h0 | ⟨g,hg,hg1,hg2⟩
  · exact Or.inl h0
  · rcases List.mem_cons.mp hg with rfl | hg
    · dsimp only at hg1 hg2
      by_cases hjl : j < lo
      · exact Or.inr ⟨_,List.mem_cons_self,hg1,by dsimp only; omega⟩
      · by_cases hil : lo < i
        · exact Or.inr ⟨_,List.mem_cons_of_mem _ List.mem_cons_self,by dsimp only; omega,by dsimp only; omega⟩
        · refine Or.inl ?_
          have h1 : cmp (A.elem m' i) (A.elem m' lo) ≤ 0 := by
            rcases Nat.eq_or_lt_of_le (not_lt.mp hil) with rfl | hil
            · exact (hc.refl _).le
            · exact h.low i hg1 hil
          have h2 : cmp (A.elem m' lo) (A.elem m' j) ≤ 0 := by
            rcases Nat.eq_or_lt_of_le (not_lt.mp hjl) with rfl | hjl
            · exact (hc.refl _).le
            · exact h.high j (by omega) hg2
          exact hc.trans _ _ _ h1 h2
    · exact Or.inr ⟨g,List.mem_cons_of_mem _ (List.mem_cons_of_mem _ hg),hg1,hg2⟩

theorem Pending.sorted (hp : Pending A cmp m N ((s,n) :: gs)) (hs : SortedOn A cmp m s n) : Pending A cmp m N gs := by
  intro i j hij hj
  rcases hp i j hij hj with h0 | ⟨g,hg,hg1,hg2⟩
  · exact Or.inl h0
  · rcases List.mem_cons.mp hg with rfl | hg
    · exact Or.inl (hs i j hg1 hij hg2)
    · exact Or.inr ⟨g,hg,hg1,hg2⟩

theorem Pending.settle (hp : Pending A cmp m N ((s,n) :: gs)) (hd : ∀ g ∈ gs, Apart (s,n) g) (hN : s + n ≤ N)
    (hn : N ≤ A.nelem) (hs : SortsTo A cmp m s n m') : Pending A cmp m' N gs :=
  (hp.swaps hd hN hn hs.1).sorted hs.2

theorem Pending.swap {g k : ℕ × ℕ} (hp : Pending A cmp m N (g :: k :: gs)) : Pending A cmp m N (k :: g :: gs) := by
  intro i j hij hj
  rcases hp i j hij hj with h0 | ⟨x,hx,hx'⟩
  · exact Or.inl h0
  · exact Or.inr ⟨x,by simp only [List.mem_cons] at hx ⊢; tauto,hx'⟩

theorem Pending.sortedOn (hp : Pending A cmp m N []) : SortedOn A cmp m 0 N := by
  intro i j _ hij hj
  rcases hp i j hij (by omega) with h0 | ⟨g,hg,-⟩
  · exact h0
  · simp at hg

/-! ## The invariant -/

/-- The segments of the stack. -/
def segments (stack : List QsWork) : List (ℕ × ℕ) := stack.map (fun w => (w.start,w.nelem))

/-- Every entry lies deeper than its height in the stack, and within the bailout depth. -/
def DeepEnough (B : ℕ) : List QsWork → Prop
  | [] => True
  | w :: ws => ws.length + 2 ≤ w.qdepth ∧ w.qdepth ≤ B + 1 ∧ DeepEnough B ws

/-- Segments that are long enough to be pushed, within the array and apart from each other. -/
structure SegmentsOk (N : ℕ) (gs : List (ℕ × ℕ)) : Prop where
  long : ∀ g ∈ gs, 8 < g.2
  inside : ∀ g ∈ gs, g.1 + g.2 ≤ N
  apart : gs.Pairwise Apart

structure QsInv (A : Cells M α) (cmp : α → α → ℤ) (B N : ℕ) (m₀ : M) (k : ℕ) (x : QsState M) : Prop where
  measure : k = x.n + ((segments x.stack).map Prod.snd).sum
  segs : SegmentsOk N ((x.start,x.n) :: segments x.stack)
  pending : Pending A cmp x.mem N ((x.start,x.n) :: segments x.stack)
  swaps : Swaps A 0 N m₀ x.mem
  depth : x.stack.length < x.depth ∧ x.depth ≤ B + 1
  stack : DeepEnough B x.stack

variable {x : QsState M} {k : ℕ}

theorem SegmentsOk.tail {g : ℕ × ℕ} (h : SegmentsOk N (g :: gs)) : SegmentsOk N gs ∧ ∀ k ∈ gs, Apart g k :=
  ⟨⟨fun k hk => h.long k (List.mem_cons_of_mem _ hk),fun k hk => h.inside k (List.mem_cons_of_mem _ hk),
    (List.pairwise_cons.mp h.apart).2⟩,(List.pairwise_cons.mp h.apart).1⟩

theorem SegmentsOk.shrink {a b : ℕ} (h : SegmentsOk N ((s,n) :: gs)) (ha : s ≤ a) (hab : a + b ≤ s + n) (hb : 8 < b) :
    SegmentsOk N ((a,b) :: gs) := by
  obtain ⟨ht,hd⟩ := h.tail
  have hN := h.inside _ List.mem_cons_self
  refine ⟨?_,?_,List.pairwise_cons.mpr ⟨fun k hk => ?_,ht.apart⟩⟩
  · simp only [List.mem_cons, forall_eq_or_imp]
    exact ⟨hb,ht.long⟩
  · simp only [List.mem_cons, forall_eq_or_imp]
    exact ⟨by dsimp only at hN ⊢; omega,ht.inside⟩
  · rcases hd k hk with h | h <;> simp only [Apart] at h ⊢ <;> omega

theorem popOrLeave_spec (hg : SegmentsOk N (segments x.stack)) (hp : Pending A cmp m' N (segments x.stack))
    (hsw : Swaps A 0 N m₀ m') (hst : DeepEnough B x.stack) :
    (∃ x', popOrLeave x.stack m' = .again x' ∧ QsInv A cmp B N m₀ ((segments x.stack).map Prod.snd).sum x') ∨
      popOrLeave x.stack m' = .leave m' ∧ SortsTo A cmp m₀ 0 N m' := by
  cases hs : x.stack with
  | nil =>
    rw [hs] at hp
    exact Or.inr ⟨rfl,by simpa using hsw,hp.sortedOn⟩
  | cons w ws =>
    rw [hs] at hg hp hst
    exact Or.inl ⟨_,rfl,by simp [segments],hg,hp,hsw,⟨by dsimp only; have := hst.1; omega,hst.2.1⟩,hst.2.2⟩

theorem qsBody_spec (hc : IsCmp cmp) (hN : N ≤ A.nelem) (hB : B ≤ 45) (hf : N < fuel) (hx : QsInv A cmp B N m₀ k x) :
    (∃ x' j, qsBody A cmp B fuel x = some (.again x') ∧ j < k ∧ QsInv A cmp B N m₀ j x') ∨
      ∃ m', qsBody A cmp B fuel x = some (.leave m') ∧ SortsTo A cmp m₀ 0 N m' := by
  obtain ⟨rfl,hseg,hpend,hsw,⟨hdep1,hdep2⟩,hst⟩ := hx
  obtain ⟨htl,hap⟩ := hseg.tail
  have hin : x.start + x.n ≤ N := hseg.inside _ List.mem_cons_self
  have hlong : 8 < x.n := hseg.long _ List.mem_cons_self
  by_cases hb : x.depth > B
  · obtain ⟨m₁,hm₁,hs₁⟩ := hsortI_spec (m := x.mem) hc (hin.trans hN) (show x.n < fuel by lia)
    have hp₁ := hpend.settle hap hin hN hs₁
    have hsw₁ := hsw.trans (hs₁.1.mono (Nat.zero_le _) hin)
    have hq : qsBody A cmp B fuel x = some (popOrLeave x.stack m₁) := by simp [qsBody, hb, hm₁]
    rw [hq]
    rcases popOrLeave_spec htl hp₁ hsw₁ hst with ⟨x',hx',hi'⟩ | ⟨hl,hs⟩
    · exact Or.inl ⟨x',_,by rw [hx'],by lia,hi'⟩
    · exact Or.inr ⟨m₁,by rw [hl],hs⟩
  obtain ⟨lo,hi,m₁,hpart,hP⟩ := partition_spec (m := x.mem) hc (hin.trans hN) hlong (show x.n < fuel by lia)
  have hp₁ := (hpend.swaps hap hin hN hP.swaps).split hc hP
  have hsw₁ := hsw.trans (hP.swaps.mono (Nat.zero_le _) hin)
  have hhi := hP.hi_eq
  have hlo := hP.lo_ge
  have hle := hP.hi_le
  have hfar : Apart (x.start,lo - x.start) (hi,x.start + x.n - hi) := Or.inl (by dsimp only; lia)
  have hlow : ∀ g ∈ segments x.stack, Apart (x.start,lo - x.start) g := by
    intro g hg
    rcases hap g hg with h | h <;> simp only [Apart] at h ⊢ <;> lia
  have hhigh : ∀ g ∈ segments x.stack, Apart (hi,x.start + x.n - hi) g := by
    intro g hg
    rcases hap g hg with h | h <;> simp only [Apart] at h ⊢ <;> lia
  by_cases hn : x.start + x.n - hi > 8
  · by_cases hnlo : lo - x.start > 8
    · -- the low part goes to the stack
      have hroom : x.stack.length < qsMaxdepth := by unfold qsMaxdepth; lia
      refine Or.inl ⟨⟨hi,x.start + x.n - hi,x.depth + 1,⟨x.start,lo - x.start,x.depth + 1⟩ :: x.stack,m₁⟩,_,?_,?_,
        rfl,?_,hp₁.swap,hsw₁,?_,?_,?_,hst⟩
      · simp [qsBody, hb, hpart, isortThresh, hn, hnlo, push, hroom]
      · simp only [segments, List.map_cons, List.sum_cons]
        lia
      · have h1 := hseg.shrink le_rfl (show x.start + (lo - x.start) ≤ _ by lia) hnlo
        have h2 := hseg.shrink (show x.start ≤ hi by lia) (show hi + (x.start + x.n - hi) ≤ _ by lia) hn
        refine ⟨?_,?_,List.pairwise_cons.mpr ⟨?_,h1.apart⟩⟩
        · intro g hg
          rcases List.mem_cons.mp hg with rfl | hg
          · exact hn
          · exact h1.long g hg
        · intro g hg
          rcases List.mem_cons.mp hg with rfl | hg
          · exact h2.inside _ List.mem_cons_self
          · exact h1.inside g hg
        · intro g hg
          rcases List.mem_cons.mp hg with rfl | hg
          · exact hfar.symm
          · exact hhigh g hg
      · simp only [List.length_cons]
        lia
      · dsimp only
        lia
      · dsimp only
        lia
    · -- the low part is short
      obtain ⟨m₂,hm₂,hs₂⟩ := isortI_spec (m := m₁) hc (show x.start + (lo - x.start) ≤ A.nelem by lia)
        (show lo - x.start < fuel by lia)
      refine Or.inl ⟨⟨hi,x.start + x.n - hi,x.depth + 1,x.stack,m₂⟩,_,?_,?_,rfl,
        hseg.shrink (show x.start ≤ hi by lia) (show hi + (x.start + x.n - hi) ≤ _ by lia) hn,hp₁.settle ?_ (by lia) hN hs₂,
        hsw₁.trans (hs₂.1.mono (Nat.zero_le _) (by lia)),⟨by dsimp only; lia,by dsimp only; lia⟩,hst⟩
      · simp [qsBody, hb, hpart, isortThresh, hn, hnlo, hm₂]
      · dsimp only
        lia
      · intro g hg
        rcases List.mem_cons.mp hg with rfl | hg
        · exact hfar
        · exact hlow g hg
  · -- the high part is short
    obtain ⟨m₂,hm₂,hs₂⟩ := isortI_spec (m := m₁) hc (show hi + (x.start + x.n - hi) ≤ A.nelem by lia)
      (show x.start + x.n - hi < fuel by lia)
    have hp₂ : Pending A cmp m₂ N ((x.start,lo - x.start) :: segments x.stack) := by
      refine hp₁.swap.settle ?_ (by lia) hN hs₂
      intro g hg
      rcases List.mem_cons.mp hg with rfl | hg
      · exact hfar.symm
      · exact hhigh g hg
    have hsw₂ := hsw₁.trans (hs₂.1.mono (Nat.zero_le _) (by lia))
    by_cases hnlo : lo - x.start ≤ 8
    · obtain ⟨m₃,hm₃,hs₃⟩ := isortI_spec (m := m₂) hc (show x.start + (lo - x.start) ≤ A.nelem by lia)
        (show lo - x.start < fuel by lia)
      have hp₃ := hp₂.settle hlow (by lia) hN hs₃
      have hsw₃ := hsw₂.trans (hs₃.1.mono (Nat.zero_le _) (by lia))
      have hq : qsBody A cmp B fuel x = some (popOrLeave x.stack m₃) := by
        simp [qsBody, hb, hpart, isortThresh, hn, hm₂, hm₃]
        lia
      rw [hq]
      rcases popOrLeave_spec htl hp₃ hsw₃ hst with ⟨x',hx',hi'⟩ | ⟨hl,hs⟩
      · exact Or.inl ⟨x',_,by rw [hx'],by lia,hi'⟩
      · exact Or.inr ⟨m₃,by rw [hl],hs⟩
    · refine Or.inl ⟨⟨x.start,lo - x.start,x.depth + 1,x.stack,m₂⟩,_,?_,?_,rfl,
        hseg.shrink le_rfl (show x.start + (lo - x.start) ≤ _ by lia) (not_le.mp hnlo),hp₂,hsw₂,⟨by dsimp only; lia,by dsimp only; lia⟩,hst⟩
      · simp [qsBody, hb, hpart, isortThresh, hn, hm₂]
        lia
      · dsimp only
        lia

theorem bailoutDepth_spec (hf : n < fuel) : ∃ B, bailoutDepth n fuel = some B ∧ B ≤ 45 := by
  have hl : ∃ b, loop log2Body fuel (n,0) = some b ∧ True := by
    refine loop_total (I := fun k x => k = x.1) ?_ rfl hf
    rintro k ⟨_,b⟩ rfl
    by_cases hk : k >>> 1 ≠ 0
    · refine Or.inl ⟨(k >>> 1,b + 1),k >>> 1,by simp [log2Body, hk],?_,rfl⟩
      rw [Nat.shiftRight_one] at hk ⊢
      omega
    · exact Or.inr ⟨b,by simp [log2Body, hk],trivial⟩
  obtain ⟨b,hb,-⟩ := hl
  by_cases hcap : b * 2 > qsMaxdepth - 3
  · exact ⟨qsMaxdepth - 3,by simp [bailoutDepth, hb, hcap],le_rfl⟩
  · exact ⟨b * 2,by simp [bailoutDepth, hb, hcap],not_lt.mp hcap⟩

theorem qsInv_init (hn : 8 < N) (B : ℕ) : QsInv A cmp B N m N ⟨0,N,1,[],m⟩ := by
  refine ⟨by simp [segments],⟨?_,?_,List.pairwise_singleton _ _⟩,fun i j _ hj => Or.inr ⟨(0,N),by simp,Nat.zero_le _,?_⟩,
    .refl,⟨Nat.one_pos,by dsimp only; omega⟩,trivial⟩
  · simpa [segments] using hn
  · simp [segments]
  · simpa using hj

theorem qsortI_spec (hc : IsCmp cmp) (hN : N ≤ A.nelem) (hf : N < fuel) :
    (∃ m', qsortI A cmp m N fuel = some m' ∧ SortsTo A cmp m 0 N m') ∧
      ∀ B x, 8 < N → bailoutDepth N fuel = some B → Reaches (qsBody A cmp B fuel) ⟨0,N,1,[],m⟩ x →
        x.stack.length < qsMaxdepth := by
  obtain ⟨B,hB,hB'⟩ := bailoutDepth_spec hf
  have hbody := fun k (x : QsState M) (hx : QsInv A cmp B N m k x) => qsBody_spec hc hN hB' hf hx
  constructor
  · by_cases hn : N ≤ 8
    · obtain ⟨m',hm,hs⟩ := isortI_spec (m := m) hc (show 0 + N ≤ A.nelem by omega) hf
      exact ⟨m',by simp [qsortI, isortThresh, hn, hm],hs⟩
    · obtain ⟨m',hm,hs⟩ := loop_total hbody (qsInv_init (not_le.mp hn) B) hf
      exact ⟨m',by simp [qsortI, isortThresh, hn, hB, hm],hs⟩
  · intro B₁ x hn hB₁ hr
    obtain rfl : B₁ = B := by
      rw [hB] at hB₁
      exact (Option.some.inj hB₁).symm
    obtain ⟨k,hk⟩ := hr.invariant hbody (qsInv_init hn B₁)
    have := hk.depth
    unfold qsMaxdepth
    omega

end Catlib.Sort
