import Catlib.Logic.Compare
import Catlib.Memory.Dbgmem
import Mathlib.Tactic.NormNum

/-! # Comparing pointers as keys, in aux.c

A pointer has 64 bits and an int 32: the comparisons that subtract keep the low half of the difference.
-/
namespace Catlib.PtrKeys

open Dbgmem

/-- `ptr2int`: the address as a signed word. -/
def ptr2int (p : ℕ) : ℤ := (p : ℤ).bmod (2 ^ 64)

/-- `cmp_intptr`: the difference of two words, returned as an int. -/
def cmpIntptr (k1 k2 : ℕ) : ℤ := ((ptr2int k1 - ptr2int k2).bmod (2 ^ 64)).bmod (2 ^ 32)

/-- `cmp_uintptr`, which tests instead. -/
def cmpUintptr (k1 k2 : ℕ) : ℤ :=
  let v1 := k1 % 2 ^ 64
  let v2 := k2 % 2 ^ 64
  if v1 < v2 then -1 else if v1 = v2 then 0 else 1

theorem cmpPtr_eq (k1 k2 : ℕ) : cmpPtr k1 k2 = cutSub (2 ^ 31) k1 k2 := rfl

theorem cmpIntptr_eq (k1 k2 : ℕ) : cmpIntptr k1 k2 = cmpPtr k1 k2 := by
  have hdvd : 2 ^ 32 ∣ 2 ^ 64 := Nat.pow_dvd_pow 2 (by decide)
  unfold cmpIntptr ptr2int cmpPtr
  rw [Int.bmod_sub_bmod,Int.sub_bmod_bmod]
  exact Int.bmod_bmod_of_dvd hdvd

/-- No two of the keys agree in their low words, and these lie in one half of the ring. -/
def Close (K : Set ℕ) : Prop :=
  (∀ a ∈ K, ∀ b ∈ K, a % 2 ^ 32 = b % 2 ^ 32 → a = b) ∧ ∃ m : ℤ, ∀ a ∈ K, (a - m) % 2 ^ 32 < 2 ^ 31

theorem cutSub_distinguishes_iff (K : Set ℕ) :
    Distinguishes (fun a b : K => cutSub (2 ^ 31) (a : ℕ) (b : ℕ)) ↔ Close K := by
  rw [distinguishes_cutSub_iff (by decide : 0 < 2 ^ 31)]
  have hcast : 2 * ((2 ^ 31 : ℕ) : ℤ) = 2 ^ 32 := by norm_num
  have hhalf : ((2 ^ 31 : ℕ) : ℤ) = 2 ^ 31 := by norm_num
  have hlow (a b : ℕ) : (a : ℤ) % 2 ^ 32 = (b : ℤ) % 2 ^ 32 ↔ a % 2 ^ 32 = b % 2 ^ 32 := by omega
  rw [hcast,hhalf]
  simp only [hlow,Subtype.forall,Subtype.mk.injEq,Close]

/-- The keys a container can hold in order: those whose low words are distinct and close. -/
theorem cmp_keys_iff (K : Set ℕ) :
    (Distinguishes (fun a b : K => cmpPtr a b) ↔ Close K) ∧
      (Distinguishes (fun a b : K => cmpIntptr a b) ↔ Close K) := by
  simp only [cmpIntptr_eq,cmpPtr_eq]
  exact ⟨cutSub_distinguishes_iff K,cutSub_distinguishes_iff K⟩

/-- Of two keys half a ring apart each is the smaller, and a whole ring apart they are equal. -/
theorem cmp_ring : ¬ Distinguishes cmpPtr ∧ ¬ Distinguishes cmpIntptr ∧
    (∀ cmp ∈ [cmpPtr,cmpIntptr], cmp 0 (2 ^ 31) < 0 ∧ cmp (2 ^ 31) 0 < 0 ∧ cmp 0 (2 ^ 32) = 0) := by
  have h : ∀ cmp ∈ [cmpPtr,cmpIntptr], cmp 0 (2 ^ 31) < 0 ∧ cmp (2 ^ 31) 0 < 0 ∧ cmp 0 (2 ^ 32) = 0 := by decide
  have hne (cmp : ℕ → ℕ → ℤ) (hz : cmp 0 (2 ^ 32) = 0) : ¬ Distinguishes cmp :=
    fun hd => by have := hd.2 _ _ hz; omega
  exact ⟨hne _ (h _ (by simp)).2.2,hne _ (h _ (by simp)).2.2,h⟩

theorem close_of_span {K : Set ℕ} {base : ℕ} (h : ∀ a ∈ K, base ≤ a ∧ a < base + 2 ^ 31) : Close K := by
  refine ⟨fun a ha b hb he => ?_,base,fun a ha => ?_⟩
  · have := h a ha
    have := h b hb
    omega
  · have := h a ha
    omega

theorem cmpUintptr_distinguishes : Distinguishes (fun a b : {k : ℕ | k < 2 ^ 64} => cmpUintptr a b) := by
  refine ⟨⟨fun a b => ?_,fun a b c => ?_⟩,fun a b he => Subtype.ext ?_⟩
  · simp only [cmpUintptr]
    split_ifs <;> lia
  · simp only [cmpUintptr]
    split_ifs <;> lia
  · have ha : (a : ℕ) < 2 ^ 64 := a.2
    have hb : (b : ℕ) < 2 ^ 64 := b.2
    simp only [cmpUintptr] at he
    split_ifs at he <;> lia

end Catlib.PtrKeys
