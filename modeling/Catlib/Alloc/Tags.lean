import Catlib.Alloc.Blocks
import Catlib.Logic.Bits

/-! # The tags of dynmem.c

The macros that read and write the first word of a block, and what they do to a tag.
-/
namespace Catlib.Alloc

/-- `UNITSIZE`, the size of a `union align_u`. -/
def unitsize : ℕ := 8

/-- `round2u`, in a `size_t`. -/
def round2u (n : ℕ) : ℕ := (n + unitsize - 1) % 2 ^ 64 / unitsize * unitsize

/-- `MINNU` times `UNITSIZE`: a `struct memblk` of three units and one for the size at the end. -/
def minsz : ℕ := 32

def minasz : ℕ := 48

def maxAlloc : ℕ := round2u (2 ^ 64 - 1 - unitsize)

def allocBit : ℕ := 1
def prevAllocBit : ℕ := 2
def ctlbmask : ℕ := allocBit ||| prevAllocBit

/-- `~` of a `size_t`. -/
def compl (n : ℕ) : ℕ := 2 ^ 64 - 1 - n

def mbSize (m : Mem) (p : ℕ) : ℕ := m p &&& compl ctlbmask

/-- `CAT_MIN_MOREMEM`. -/
def minMoremem : ℕ := 8192

/-- `CAT_MIN_ALLOC_SHRINK`. -/
def minAllocShrink : ℕ := 128

def memcpy (m : Mem) (dst src n : ℕ) : Mem := fun w => if dst ≤ w ∧ w < dst + n then m (src + (w - dst)) else m w

/-- The address of `mb_entry`. -/
def entry (mb : ℕ) : ℕ := mb + unitsize

def setFreeMb (m : Mem) (mb size bits : ℕ) : Mem := put (put m mb (size ||| bits)) (mb + size - unitsize) size

variable {k b c n : ℕ} {x : Blk} {m : Mem} {a mb size bits : ℕ}

theorem round2u_spec (hn : n + 8 ≤ 2 ^ 64) : n ≤ round2u n ∧ round2u n < n + 8 ∧ 8 ∣ round2u n := by
  have hmod : (n + unitsize - 1) % 2 ^ 64 = n + 7 := by
    rw [show n + unitsize - 1 = n + 7 from rfl]
    exact Nat.mod_eq_of_lt (by omega)
  rw [round2u,hmod]
  unfold unitsize
  exact ⟨by omega,by omega,Nat.dvd_mul_left _ _⟩

/-! ## Words of eights -/

theorem testBit_eight (hb : b < 8) (i : ℕ) : (8 * k + b).testBit i = if i < 3 then b.testBit i else k.testBit (i - 3) :=
  Nat.testBit_two_pow_mul_add k (i := 3) hb i

theorem eight_or (hb : b < 8) (hc : c < 8) : (8 * k + b) ||| c = 8 * k + (b ||| c) := by
  have hbc : b ||| c < 8 := Nat.or_lt_two_pow (n := 3) hb hc
  apply Nat.eq_of_testBit_eq
  intro i
  rw [Nat.testBit_or,testBit_eight hb,testBit_eight hbc]
  split
  · rw [Nat.testBit_or]
  · rename_i hi
    have hzero : c.testBit i = false :=
      Nat.testBit_lt_two_pow (Nat.lt_of_lt_of_le hc (Nat.pow_le_pow_right (n := 2) (i := 3) (by decide) (by omega)))
    rw [hzero,Bool.or_false]

theorem eight_and (hb : b < 8) (hc : c < 8) : (8 * k + b) &&& c = b &&& c := by
  have hbc : b &&& c < 8 := Nat.lt_of_le_of_lt Nat.and_le_left hb
  apply Nat.eq_of_testBit_eq
  intro i
  rw [Nat.testBit_and,testBit_eight hb]
  split
  · rw [Nat.testBit_and]
  · rename_i hi
    have hpow : 8 ≤ 2 ^ i := Nat.pow_le_pow_right (n := 2) (i := 3) (by decide) (by omega)
    rw [Nat.testBit_lt_two_pow (Nat.lt_of_lt_of_le hc hpow),Nat.testBit_lt_two_pow (Nat.lt_of_lt_of_le hbc hpow),Bool.and_false]

theorem eight_compl (hk : k < 2 ^ 61) (hb : b < 8) (hc : c < 8) : (8 * k + b) &&& compl c = 8 * k + (b &&& (7 - c)) := by
  have hcompl : compl c = 8 * (2 ^ 61 - 1) + (7 - c) := by
    rw [compl]
    omega
  have hc7 : 7 - c < 8 := by omega
  have hbc : b &&& (7 - c) < 8 := Nat.lt_of_le_of_lt Nat.and_le_left hb
  rw [hcompl]
  apply Nat.eq_of_testBit_eq
  intro i
  rw [Nat.testBit_and,testBit_eight hb,testBit_eight hc7,testBit_eight hbc]
  split
  · rw [Nat.testBit_and]
  · have h : k &&& (2 ^ 61 - 1) = k := Nat.and_two_pow_sub_one_of_lt_two_pow hk
    conv_rhs => rw [← h]
    rw [Nat.testBit_and]

/-! ## Tags -/

/-- The flags of a tag. -/
def flags (x : Blk) : ℕ := (if x.kind = .free then 0 else allocBit) + if x.prev then prevAllocBit else 0

theorem flags_lt (x : Blk) : flags x < 8 := by
  rw [flags]
  split <;> split <;> decide

theorem tag_eight (h8 : 8 ∣ x.size) : ∃ k, tag x = 8 * k + flags x ∧ (x.kind ≠ .fence → 8 * k = x.size) ∧ 8 * k ≤ x.size := by
  obtain ⟨k,hk⟩ := h8
  by_cases hf : x.kind = .fence
  · exact ⟨0,by rw [tag,if_pos hf]; rfl,fun h => absurd hf h,Nat.zero_le _⟩
  · exact ⟨k,by rw [tag,if_neg hf,hk]; rfl,fun _ => hk.symm,Nat.le_of_eq hk.symm⟩

theorem tag_size (h8 : 8 ∣ x.size) (hlt : x.size < 2 ^ 64) (hk : x.kind ≠ .fence) : tag x &&& compl ctlbmask = x.size := by
  obtain ⟨k,htag,hsize,-⟩ := tag_eight h8
  have hsize := hsize hk
  have hzero : flags x &&& (7 - ctlbmask) = 0 := by
    rw [flags]
    split <;> split <;> rfl
  rw [htag,eight_compl (by omega) (flags_lt x) (by decide),hzero]
  exact hsize

theorem tag_flags (h8 : 8 ∣ x.size) : tag x &&& ctlbmask = flags x := by
  obtain ⟨k,htag,-⟩ := tag_eight h8
  rw [htag,eight_and (flags_lt x) (by decide),flags]
  split <;> split <;> rfl

theorem tag_alloc (h8 : 8 ∣ x.size) : tag x &&& allocBit = 0 ↔ x.kind = .free := by
  obtain ⟨k,htag,-⟩ := tag_eight h8
  rw [htag,eight_and (flags_lt x) (by decide),flags]
  by_cases hk : x.kind = .free
  · rw [if_pos hk]
    exact iff_of_true (by split <;> rfl) hk
  · rw [if_neg hk]
    exact iff_of_false (by split <;> decide) hk

theorem tag_prev (h8 : 8 ∣ x.size) : tag x &&& prevAllocBit = if x.prev then prevAllocBit else 0 := by
  obtain ⟨k,htag,-⟩ := tag_eight h8
  rw [htag,eight_and (flags_lt x) (by decide),flags]
  split <;> split <;> rfl

theorem tag_prev_zero (h8 : 8 ∣ x.size) : tag x &&& prevAllocBit = 0 ↔ x.prev = false := by
  rw [tag_prev h8]
  cases x.prev with
  | true => exact iff_of_false (by decide) nofun
  | false => exact iff_of_true rfl rfl

theorem or_flags (h8 : 8 ∣ x.size) (hk : x.kind ≠ .fence) : x.size ||| flags x = tag x := by
  obtain ⟨k,hs⟩ := h8
  have h := eight_or (k := k) (b := 0) (by decide) (flags_lt x)
  rw [Nat.add_zero,Nat.zero_or] at h
  rw [tag,if_neg hk,hs,h]
  rfl

theorem tag_or_alloc (h8 : 8 ∣ x.size) (hk : x.kind = .free) : tag x ||| allocBit = tag { x with kind := .used } := by
  obtain ⟨k,hs⟩ := h8
  have hne : x.kind ≠ .fence := by rw [hk]; exact nofun
  have htag : tag x = 8 * k + flags x := by rw [tag,if_neg hne,hs]; rfl
  rw [htag,eight_or (flags_lt x) (by decide),tag,if_neg nofun,if_neg nofun,hs,flags,if_pos hk]
  split <;> rfl

theorem tag_mark (h8 : 8 ∣ x.size) (v : Bool) : ∃ k, tag x = 8 * k + flags x ∧ 8 * k ≤ x.size ∧
    tag { x with prev := v } = 8 * k + flags { x with prev := v } := by
  obtain ⟨k,hs⟩ := h8
  by_cases hf : x.kind = .fence
  · exact ⟨0,by rw [tag,if_pos hf]; rfl,Nat.zero_le _,by rw [tag,if_pos hf]; rfl⟩
  · exact ⟨k,by rw [tag,if_neg hf,hs]; rfl,Nat.le_of_eq hs.symm,by rw [tag,if_neg hf,← hs]; rfl⟩

theorem tag_or_prev (h8 : 8 ∣ x.size) : tag x ||| prevAllocBit = tag { x with prev := true } := by
  obtain ⟨k,htag,-,htag'⟩ := tag_mark h8 true
  have hflags : flags x ||| prevAllocBit = flags { x with prev := true } := by
    cases h : x.prev <;> simp only [flags, h, if_true, Bool.false_eq_true, if_false] <;> split <;> rfl
  rw [htag,eight_or (flags_lt x) (by decide),hflags,htag']

theorem tag_clear_prev (h8 : 8 ∣ x.size) (hlt : x.size < 2 ^ 64) : tag x &&& compl prevAllocBit = tag { x with prev := false } := by
  obtain ⟨k,htag,hk,htag'⟩ := tag_mark h8 false
  have hflags : flags x &&& (7 - prevAllocBit) = flags { x with prev := false } := by
    cases h : x.prev <;> simp only [flags, h, if_true, Bool.false_eq_true, if_false] <;> split <;> rfl
  rw [htag,eight_compl (by omega) (flags_lt x) (by decide),hflags,htag']

/-! ## The tags of a heap -/

section Heap

variable {ι : Type*} {cls : ℕ → ι} {head : Option ι → ℕ} {P : List Arena} {B : Layout} {H : ℕ → Prop}
  {F : ℕ → Option (Option ι)}

theorem Heap.eights (h : Heap cls head P B H m F) (ha : B a = some x) : 8 ∣ x.size := (h.sized a x ha).2.1

theorem Heap.lt (h : Heap cls head P B H m F) (ha : B a = some x) : a + x.size ≤ 2 ^ 64 ∧ x.size < 2 ^ 64 := by
  obtain ⟨p,hp,h1,h2,-⟩ := h.tiled.arena ha
  have := h.fits p hp
  have := h.tiled.order p hp
  omega

theorem Heap.mbSize (h : Heap cls head P B H m F) (ha : B a = some x) (hk : x.kind ≠ .fence) : mbSize m a = x.size := by
  rw [Alloc.mbSize,h.tags a x ha]
  exact tag_size (h.eights ha) (h.lt ha).2 hk

theorem Heap.alloc_zero (h : Heap cls head P B H m F) (ha : B a = some x) : m a &&& allocBit = 0 ↔ x.kind = .free := by
  rw [h.tags a x ha]
  exact tag_alloc (h.eights ha)

theorem Heap.prev_zero (h : Heap cls head P B H m F) (ha : B a = some x) : m a &&& prevAllocBit = 0 ↔ x.prev = false := by
  rw [h.tags a x ha]
  exact tag_prev_zero (h.eights ha)

end Heap

end Catlib.Alloc
