import Catlib.Bits.Compress
import Catlib.Logic.Bits

/-! # Permuting the bits of a word

A sheep-and-goats step is the stable partition of the bits by its mask. The vectors of an array
hold the digits of the target of each bit, each brought to where the bit is when its turn comes,
so the steps sort the bits by their targets.
-/
namespace Catlib.Bits
open BitVec

variable {w n : ℕ} {x y z : BitVec w} {p q : ℕ → ℕ}

/-- The set bits of `y` are those of `x`, each moved by `p`. -/
def Moves (p : ℕ → ℕ) (x y : BitVec w) : Prop :=
  ∀ j, y.getLsbD j = true ↔ ∃ k, x.getLsbD k = true ∧ p k = j

namespace Moves

theorem trans (h : Moves p x y) (h' : Moves q y z) : Moves (fun k => q (p k)) x z := by
  intro j
  rw [h' j]
  constructor
  · rintro ⟨k,hk,rfl⟩
    obtain ⟨i,hi,rfl⟩ := (h k).1 hk
    exact ⟨i,hi,rfl⟩
  · rintro ⟨i,hi,rfl⟩
    exact ⟨p i,(h _).2 ⟨i,hi,rfl⟩,rfl⟩

theorem bit (h : Moves p x y) (hp : ∀ a < w, ∀ b < w, p a = p b → a = b) {k : ℕ} (hk : k < w) :
    y.getLsbD (p k) = x.getLsbD k := by
  rw [Bool.eq_iff_iff,h (p k)]
  constructor
  · rintro ⟨i,hi,heq⟩
    rwa [← hp i (BitVec.lt_of_getLsbD hi) k hk heq]
  · exact fun hx => ⟨k,hx,rfl⟩

end Moves

theorem sag_moves (hw : w ≤ 2 ^ n) (x m : BitVec w) : Moves (part w m.getLsbD) x (sag n x m) := by
  intro j
  have hnot : ∀ k ≤ w, rank (~~~m).getLsbD true k = rank m.getLsbD false k := fun k hk =>
    rank_not (fun i hi => by rw [getLsbD_not]; simp [show i < w by omega])
  rw [sag,getLsbD_or,Bool.or_eq_true,compressL_bit hw,compressR_bit hw]
  constructor
  · rintro (⟨k,hm,hx,hk⟩ | ⟨k,hm,hx,hk⟩)
    · exact ⟨k,hx,by rw [part,if_pos hm]; exact hk⟩
    · have hkw := BitVec.lt_of_getLsbD hx
      rw [getLsbD_not,Bool.and_eq_true,Bool.not_eq_true'] at hm
      rw [hnot k hkw.le] at hk
      exact ⟨k,hx,by rw [part,hm.2]; exact hk⟩
  · rintro ⟨k,hx,hk⟩
    have hkw := BitVec.lt_of_getLsbD hx
    rw [part] at hk
    cases hm : m.getLsbD k with
    | true => exact Or.inl ⟨k,hm,hx,by rw [if_pos hm] at hk; exact hk⟩
    | false =>
      rw [hm,if_neg Bool.false_ne_true] at hk
      exact Or.inr ⟨k,by rw [getLsbD_not,hm,decide_eq_true hkw]; rfl,hx,by rw [hnot k hkw.le]; exact hk⟩

example : sag32 0x12345678 0x0000ffff = 0x56781234 := by decide

/-- Where the vectors take a bit. -/
def place (pv : List (BitVec w)) (k : ℕ) : ℕ := pv.foldl (fun k v => part w v.getLsbD k) k

theorem permuteSAG_moves (hw : w ≤ 2 ^ n) (pv : List (BitVec w)) (x : BitVec w) :
    Moves (place pv) x (permuteSAG n x pv) := by
  induction pv generalizing x with
  | nil => exact fun j => by simp [permuteSAG, place]
  | cons v vs ih => exact (sag_moves hw x v).trans (ih (sag n x v))

theorem alignVectors_placing (hw : w ≤ 2 ^ n) (key : ℕ → ℕ) (vs done : List (BitVec w))
    (hvs : ∀ i, (hi : i < vs.length) → ∀ k < w, vs[i].getLsbD k = (key k).testBit (done.length + i))
    (h : Placing w (fun k => key k % 2 ^ done.length) (place done)) :
    Placing w (fun k => key k % 2 ^ (done.length + vs.length)) (place (alignVectors n done vs)) := by
  induction vs generalizing done with
  | nil => exact h
  | cons v vs ih =>
    have hmask : ∀ k < w, (permuteSAG n v done).getLsbD (place done k) = (key k).testBit done.length := by
      intro k hk
      rw [(permuteSAG_moves hw done v).bit h.injective hk]
      exact hvs 0 (Nat.succ_pos _) k hk
    have hnext := h.next hmask
    have hplace : place (done ++ [permuteSAG n v done]) =
        fun k => part w (permuteSAG n v done).getLsbD (place done k) := by
      funext k
      simp [place]
    have hall := ih (done ++ [permuteSAG n v done]) (fun i hi k hk => by
      have hbit := hvs (i + 1) (Nat.succ_lt_succ hi) k hk
      rw [List.length_append,List.length_singleton,Nat.add_assoc,Nat.add_comm 1 i]
      exact hbit) (by rw [hplace,List.length_append,List.length_singleton]; exact hnext)
    rw [List.length_append,List.length_singleton,Nat.add_assoc,Nat.add_comm 1] at hall
    exact hall

section Gather
variable {f : Fin w → BitVec w}

theorem foldl_or_bit (l : List (Fin w)) (v : BitVec w) (k : ℕ) (g : Fin w → BitVec w) :
    (l.foldl (fun v j => v ||| g j) v).getLsbD k = (v.getLsbD k || l.any fun j => (g j).getLsbD k) := by
  induction l generalizing v with
  | nil => simp
  | cons a l ih => rw [List.foldl_cons,ih,getLsbD_or,List.any_cons,Bool.or_assoc]

theorem gather_bit (hf : ∀ j, ∀ t, 0 < t → (f j).getLsbD t = false) (k : Fin w) :
    ((List.finRange w).foldl (fun v j => v ||| f j <<< j.val) 0).getLsbD k = (f k).getLsbD 0 := by
  rw [foldl_or_bit]
  have hone : ∀ j : Fin w, (f j <<< j.val).getLsbD k = true ↔ j = k ∧ (f j).getLsbD 0 = true := by
    intro j
    rw [getLsbD_shiftLeft]
    rcases Nat.lt_trichotomy k.val j.val with hlt | heq | hgt
    · simp [hlt, show j ≠ k from fun h => by rw [h] at hlt; exact lt_irrefl _ hlt]
    · rw [← Fin.ext heq]
      simp
    · simp [hf j (k.val - j.val) (by omega), show j ≠ k from fun h => by rw [h] at hgt; exact lt_irrefl _ hgt]
  have hzero : (0 : BitVec w).getLsbD k = false := by simp
  rw [Bool.eq_iff_iff,hzero,Bool.false_or,List.any_eq_true]
  simp only [hone]
  exact ⟨fun ⟨j,_,hj,hb⟩ => hj ▸ hb,fun hb => ⟨k,List.mem_finRange k,rfl,hb⟩⟩

end Gather

theorem positionBits_bit (arr : Fin w → UInt8) (i : ℕ) (k : Fin w) :
    (positionBits arr i).getLsbD k = (arr k).toNat.testBit i := by
  have hw : 0 < w := k.pos
  rw [positionBits,gather_bit (f := fun j => BitVec.ofNat w (((arr j).toNat >>> i) &&& 1))]
  · rw [getLsbD_ofNat]
    simp [hw, Nat.testBit_eq_decide_div_mod_eq, Nat.shiftRight_eq_div_pow]
  · intro j t ht
    rw [getLsbD_ofNat,Nat.testBit_and]
    have hone : Nat.testBit 1 t = false := Nat.testBit_lt_two_pow (Nat.one_lt_two_pow ht.ne')
    simp [hone]

theorem bitgather_bit (hw : w = 2 ^ n) (bits : BitVec w) {pos : Fin w → UInt8} (k : Fin w)
    (hk : (pos k).toNat < w) : (bitgather bits pos).getLsbD k = bits.getLsbD (pos k).toNat := by
  have hw0 : 0 < w := k.pos
  rw [bitgather,gather_bit (f := fun i => (bits >>> ((pos i).toNat &&& (w - 1))) &&& 1)]
  · have hmask : (pos k).toNat &&& (w - 1) = (pos k).toNat := by
      rw [and_low (n := n) (by rw [hw]),Nat.mod_eq_of_lt (by omega)]
    rw [hmask,getLsbD_and,getLsbD_ushiftRight]
    simp [hw0]
  · intro j t ht
    rw [getLsbD_and]
    simp [ht.ne']

section Check

theorem and_bit_eq_zero (t : BitVec w) {a : ℕ} (ha : a < w) : t &&& (1 : BitVec w) <<< a = 0 ↔ t.getLsbD a = false := by
  have hbit : ∀ j, (t &&& (1 : BitVec w) <<< a).getLsbD j = true ↔ j = a ∧ t.getLsbD a = true := by
    intro j
    rw [getLsbD_and,getLsbD_shiftLeft]
    rcases Nat.lt_trichotomy j a with hlt | heq | hgt
    · simp [hlt, hlt.ne]
    · rw [heq]
      simp [ha]
      omega
    · simp [hgt.ne', show j - a ≠ 0 by omega]
  constructor
  · intro h
    have := hbit a
    rw [h] at this
    simpa using this
  · intro h
    apply BitVec.eq_of_getLsbD_eq
    intro j _
    rw [Bool.eq_iff_iff,hbit]
    simp [h]

theorem or_bit (t : BitVec w) {a j : ℕ} (ha : a < w) :
    (t ||| (1 : BitVec w) <<< a).getLsbD j = false ↔ t.getLsbD j = false ∧ j ≠ a := by
  rw [getLsbD_or,getLsbD_shiftLeft,Bool.or_eq_false_iff]
  rcases Nat.lt_trichotomy j a with hlt | heq | hgt
  · simp [hlt, hlt.ne]
  · rw [heq]
    simp [ha]
    omega
  · simp [hgt.ne', show j - a ≠ 0 by omega]

theorem checkPositions_iff (l : List UInt8) (t : BitVec w) : checkPositions l t = true ↔
    (∀ a ∈ l, a.toNat < w) ∧ l.Nodup ∧ ∀ a ∈ l, t.getLsbD a.toNat = false := by
  induction l generalizing t with
  | nil => simp [checkPositions]
  | cons a l ih =>
    rw [checkPositions]
    by_cases ha : w ≤ a.toNat
    · simp [ha]
    · rw [if_neg ha]
      have haw := not_le.1 ha
      by_cases ht : t.getLsbD a.toNat = false
      · rw [if_neg (not_not.2 ((and_bit_eq_zero t haw).2 ht)),ih]
        simp only [or_bit t haw, List.mem_cons, forall_eq_or_imp, List.nodup_cons, haw, ht, true_and]
        constructor
        · rintro ⟨h1,h2,h3⟩
          exact ⟨h1,⟨fun hmem => (h3 a hmem).2 rfl,h2⟩,fun b hb => (h3 b hb).1⟩
        · rintro ⟨h1,⟨h2,h3⟩,h4⟩
          exact ⟨h1,h3,fun b hb => ⟨h4 b hb,fun heq => h2 (UInt8.toNat_inj.1 heq ▸ hb)⟩⟩
      · rw [if_pos (fun h0 => ht ((and_bit_eq_zero t haw).1 h0))]
        simp [ht]

end Check

/-- An array of bit positions that numbers all of them. -/
def IsPermutation (arr : Fin w → UInt8) : Prop := (∀ k, (arr k).toNat < w) ∧ Function.Injective arr

theorem check_iff (arr : Fin w → UInt8) :
    checkPositions (List.ofFn arr) (0 : BitVec w) = true ↔ IsPermutation arr := by
  rw [checkPositions_iff,List.nodup_ofFn]
  simp [IsPermutation, List.mem_ofFn]

/-- What the three functions of a width promise together. -/
def Permutes (permvec : (Fin w → UInt8) → Option (List (BitVec w)))
    (permute : BitVec w → List (BitVec w) → BitVec w) (gather : BitVec w → (Fin w → UInt8) → BitVec w) : Prop :=
  ∀ arr : Fin w → UInt8, (¬ IsPermutation arr → permvec arr = none) ∧
    (IsPermutation arr → ∃ pv, permvec arr = some pv ∧ ∀ bits : BitVec w,
      (∀ k : Fin w, (permute bits pv).getLsbD (arr k).toNat = bits.getLsbD k) ∧
        gather (permute bits pv) arr = bits)

theorem permutes (hw : w = 2 ^ n) : Permutes (w := w) (arrToSAGPermvec n) (permuteSAG n) bitgather := by
  intro arr
  refine ⟨fun h => if_neg (mt (check_iff arr).1 h),fun h => ⟨_,if_pos ((check_iff arr).2 h),fun bits => ?_⟩⟩
  let key : ℕ → ℕ := fun k => if hk : k < w then (arr ⟨k,hk⟩).toNat else 0
  have hkey : ∀ k : Fin w, key k = (arr k).toNat := fun k => dif_pos k.2
  have hlt : ∀ k < w, key k < w := fun k hk => (hkey ⟨k,hk⟩).trans_lt (h.1 ⟨k,hk⟩)
  have hinj : ∀ a < w, ∀ b < w, key a = key b → a = b := by
    intro a ha b hb hab
    rw [hkey ⟨a,ha⟩,hkey ⟨b,hb⟩] at hab
    exact congrArg Fin.val (h.2 (UInt8.toNat_inj.1 hab))
  have hplacing := alignVectors_placing hw.le key ((List.range n).map (positionBits arr)) []
    (fun i hi k hk => by
      rw [List.getElem_map,List.getElem_range,List.length_nil,Nat.zero_add,positionBits_bit arr i ⟨k,hk⟩]
      exact congrArg (Nat.testBit · i) (hkey ⟨k,hk⟩).symm) (Placing.start w key)
  have hmoves := permuteSAG_moves hw.le (alignVectors n [] ((List.range n).map (positionBits arr))) bits
  have hfull : (fun k => key k % 2 ^ (([] : List (BitVec w)).length + ((List.range n).map (positionBits arr)).length)) =
      fun k => key k % 2 ^ n := by simp
  rw [hfull] at hplacing
  have hmod : ∀ k < w, key k % 2 ^ n = key k := fun k hk => Nat.mod_eq_of_lt (hw ▸ hlt k hk)
  have hplace : ∀ k < w, place (alignVectors n [] ((List.range n).map (positionBits arr))) k = key k := by
    intro k hk
    rw [hplacing.eq_key (fun k hk => (hmod k hk).trans_lt (hlt k hk))
      (fun a ha b hb hab => hinj a ha b hb (by rwa [hmod a ha,hmod b hb] at hab)) hk,hmod k hk]
  have hbits : ∀ k : Fin w, (permuteSAG n bits (alignVectors n [] ((List.range n).map (positionBits arr)))).getLsbD
      (arr k).toNat = bits.getLsbD k := by
    intro k
    rw [← hkey,← hplace k k.2]
    exact hmoves.bit hplacing.injective k.2
  refine ⟨hbits,BitVec.eq_of_getLsbD_eq fun k hk => ?_⟩
  rw [bitgather_bit hw _ ⟨k,hk⟩ (h.1 _),hbits]

/-- Both widths: an array that numbers the bit positions gets its vectors, with which every bit
goes to its position and comes back by the gather; every other array is rejected. -/
theorem sag_permutes : Permutes arrToSAGPermvec32 permute32SAG bitgather32 ∧
    Permutes arrToSAGPermvec64 permute64SAG bitgather64 :=
  ⟨permutes (n := 5) rfl,permutes (n := 6) rfl⟩

end Catlib.Bits
