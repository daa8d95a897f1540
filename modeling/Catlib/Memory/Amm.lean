import Catlib.Logic.Runs
import Mathlib.Data.List.Basic
import Mathlib.Algebra.Group.Int.Defs
import Mathlib.Algebra.Group.Nat.Defs

/-! # The array memory managers of mem.c

Blocks are carved from the low or from the high end of one array. An address is its offset in the array.
-/
namespace Catlib.Memory

/-! ## The code -/

/-- `struct arraymm`, with the end that blocks are carved from. -/
structure Arraymm where
  mem : ℕ
  mlen : ℕ
  fill : ℕ
  alignp2 : ℕ
  hi2lo : Bool
  deriving DecidableEq

/-- The size of `cat_align_t`. -/
def sizeofAlign : ℕ := 8

/-- The loop that counts the bits of the alignment. -/
def lgLoop : ℕ → ℕ → ℕ → Option ℕ
  | 0, _, _ => none
  | fuel + 1, align, i => if align >>> 1 > 0 then lgLoop fuel (align >>> 1) (i + 1) else some i

/-- `amm_init`, on an array of `mlen` bytes. -/
def ammInit (mlen : ℕ) (align : ℤ) (hi2lo : Bool) : Option Arraymm :=
  if mlen > 0 ∧ align ≥ 0 ∧ align.toNat &&& (align.toNat - 1) = 0 then do
    let i ← lgLoop 32 (if align = 0 then sizeofAlign else align.toNat) 0
    return { mem := if hi2lo then (mlen >>> i) <<< i else 0, mlen := mlen >>> i, fill := 0, alignp2 := i, hi2lo := hi2lo }
  else none

/-- The units of a request, in the arithmetic of size_t. -/
def Arraymm.units (amm : Arraymm) (len : ℕ) : ℕ := ((len + 2 ^ amm.alignp2 - 1) % 2 ^ 64) >>> amm.alignp2

def ammGetHi2lo (amm : Arraymm) (len : ℕ) : Option ℕ × Arraymm :=
  let nu := amm.units len
  if nu > amm.mlen - amm.fill then (none,amm)
  else
    let amm := { amm with fill := amm.fill + nu }
    (some (amm.mem - amm.fill <<< amm.alignp2),amm)

def ammGetLo2hi (amm : Arraymm) (len : ℕ) : Option ℕ × Arraymm :=
  let nu := amm.units len
  if nu > amm.mlen - amm.fill then (none,amm)
  else (some (amm.mem + amm.fill <<< amm.alignp2),{ amm with fill := amm.fill + nu })

/-- `mem_get`, through the function that `amm_init` has set. -/
def ammGet (amm : Arraymm) (len : ℕ) : Option ℕ × Arraymm := if amm.hi2lo then ammGetHi2lo amm len else ammGetLo2hi amm len

def ammReset (amm : Arraymm) : Arraymm := { amm with fill := 0 }

/-! ## Runs -/

inductive Request where
  | get (len : ℕ)
  | reset

/-- A block: its first byte and the bytes that the manager has carved for it. -/
structure Carved where
  off : ℕ
  size : ℕ

/-- The manager and the blocks that it has returned since it was reset. -/
structure Carvings where
  amm : Arraymm
  live : List Carved

def Carvings.step (s : Carvings) : Request → Carvings
  | .reset => ⟨ammReset s.amm,[]⟩
  | .get len =>
    match ammGet s.amm len with
    | (none,amm) => ⟨amm,s.live⟩
    | (some off,amm) => ⟨amm,⟨off,(amm.fill - s.amm.fill) <<< amm.alignp2⟩ :: s.live⟩

def Carved.Apart (b c : Carved) : Prop := ∀ i, b.off ≤ i ∧ i < b.off + b.size → ¬(c.off ≤ i ∧ i < c.off + c.size)

/-- The block of a request is inside the array of `mlen` bytes, long enough, aligned and apart from the others. -/
def Sound (mlen align len : ℕ) (live : List Carved) (b : Carved) : Prop :=
  b.off + b.size ≤ mlen ∧ len ≤ b.size ∧ align ∣ b.off ∧ ∀ c ∈ live, b.Apart c

/-- A request returns no block or a sound one. -/
def Carvings.Meets (mlen align : ℕ) (s : Carvings) : Request → Prop
  | .reset => True
  | .get len => ∀ off amm, ammGet s.amm len = (some off,amm) →
      Sound mlen align len s.live ⟨off,(amm.fill - s.amm.fill) <<< amm.alignp2⟩

/-- The alignment that was asked for. -/
def alignment (align : ℤ) : ℕ := if align = 0 then sizeofAlign else align.toNat

/-- The rounding up of the length does not wrap. -/
def Request.Fits (align : ℕ) : Request → Prop
  | .reset => True
  | .get len => len + align - 1 < 2 ^ 64

/-! ## What is carved -/

variable {mlen k len fuel : ℕ} {align : ℤ} {hi2lo : Bool} {amm : Arraymm} {s : Carvings} {r : Request}

theorem lgLoop_pow (hk : k < fuel) (i : ℕ) : lgLoop fuel (2 ^ k) i = some (i + k) := by
  induction fuel generalizing k i with
  | zero => exact absurd hk (Nat.not_lt_zero k)
  | succ fuel ih =>
    rw [lgLoop,Nat.shiftRight_eq_div_pow,Nat.pow_one]
    cases k with
    | zero => rfl
    | succ k =>
      rw [Nat.pow_succ,Nat.mul_div_cancel _ Nat.two_pos,if_pos (Nat.two_pow_pos k),ih (Nat.lt_of_succ_lt_succ hk),Nat.add_right_comm,
        Nat.add_assoc]

theorem ammInit_spec (h : ammInit mlen align hi2lo = some amm) (halign : align < 2 ^ 31) : ∃ k, k < 31 ∧ alignment align = 2 ^ k ∧
    amm = { mem := if hi2lo then (mlen >>> k) <<< k else 0, mlen := mlen >>> k, fill := 0, alignp2 := k, hi2lo := hi2lo } := by
  rw [ammInit] at h
  split at h
  · rename_i hpre
    obtain ⟨-,hpos,hpow⟩ := hpre
    have hk : ∃ k, k < 31 ∧ alignment align = 2 ^ k := by
      rw [alignment]
      split
      · exact ⟨3,by decide,rfl⟩
      · obtain ⟨k,hk⟩ := (Nat.and_sub_one_eq_zero_iff_isPowerOfTwo (by omega)).mp hpow
        refine ⟨k,?_,hk⟩
        by_contra hle
        have : 2 ^ 31 ≤ 2 ^ k := Nat.pow_le_pow_right Nat.two_pos (Nat.not_lt.mp hle)
        omega
    obtain ⟨k,hlt,hk⟩ := hk
    refine ⟨k,hlt,hk,?_⟩
    rw [alignment] at hk
    rw [hk,lgLoop_pow (by omega),Nat.zero_add] at h
    exact (Option.some_inj.mp h).symm
  · cases h

theorem units_fits (hfit : len + 2 ^ amm.alignp2 - 1 < 2 ^ 64) : len ≤ amm.units len * 2 ^ amm.alignp2 := by
  have hpos : 0 < 2 ^ amm.alignp2 := Nat.two_pow_pos _
  rw [Arraymm.units,Nat.mod_eq_of_lt hfit,Nat.shiftRight_eq_div_pow]
  have := Nat.div_add_mod (len + 2 ^ amm.alignp2 - 1) (2 ^ amm.alignp2)
  have := Nat.mod_lt (len + 2 ^ amm.alignp2 - 1) hpos
  rw [Nat.mul_comm]
  omega

theorem units_wraps (hlen : len < 2 ^ 64) (hp2 : amm.alignp2 < 31) (hfit : ¬len + 2 ^ amm.alignp2 - 1 < 2 ^ 64) : amm.units len = 0 := by
  have hpos : 0 < 2 ^ amm.alignp2 := Nat.two_pow_pos _
  have hlt : 2 ^ amm.alignp2 ≤ 2 ^ 31 := Nat.pow_le_pow_right Nat.two_pos (Nat.le_of_lt hp2)
  rw [Arraymm.units,Nat.shiftRight_eq_div_pow,Nat.mod_eq_sub_mod (by omega),Nat.mod_eq_of_lt (by omega)]
  exact Nat.div_eq_of_lt (by omega)

/-- The state along a run: the blocks are in the part of the array that is used up. -/
structure Carvings.Inv (mlen k : ℕ) (s : Carvings) : Prop where
  p2 : s.amm.alignp2 = k
  units : s.amm.mlen = mlen >>> k
  mem : s.amm.mem = if s.amm.hi2lo then (mlen >>> k) <<< k else 0
  fill : s.amm.fill ≤ mlen >>> k
  live : ∀ c ∈ s.live, if s.amm.hi2lo then (mlen >>> k - s.amm.fill) * 2 ^ k ≤ c.off ∧ c.off + c.size ≤ (mlen >>> k) * 2 ^ k
    else c.off + c.size ≤ s.amm.fill * 2 ^ k

/-- The block that a request returns. -/
def Carvings.carved (s : Carvings) (nu : ℕ) : Carved :=
  ⟨if s.amm.hi2lo then (s.amm.mlen - (s.amm.fill + nu)) * 2 ^ s.amm.alignp2 else s.amm.fill * 2 ^ s.amm.alignp2,nu * 2 ^ s.amm.alignp2⟩

theorem ammGet_eq (h : s.Inv mlen k) (len : ℕ) : ammGet s.amm len =
    if s.amm.units len > s.amm.mlen - s.amm.fill then (none,s.amm)
    else (some (s.carved (s.amm.units len)).off,{ s.amm with fill := s.amm.fill + s.amm.units len }) := by
  have hmem := h.mem
  rw [ammGet,Carvings.carved]
  split at hmem <;> rename_i hdir
  · rw [if_pos hdir,ammGetHi2lo]
    dsimp only
    rw [if_pos hdir,hmem,h.p2,Nat.shiftLeft_eq,Nat.shiftLeft_eq,← Nat.sub_mul,h.units]
  · rw [if_neg hdir,ammGetLo2hi]
    dsimp only
    rw [if_neg hdir,hmem,Nat.zero_add,Nat.shiftLeft_eq]

theorem shiftRight_mul_le (mlen k : ℕ) : mlen >>> k * 2 ^ k ≤ mlen := by
  rw [Nat.shiftRight_eq_div_pow]
  exact Nat.div_mul_le_self ..

theorem carved_sound (h : s.Inv mlen k) {nu : ℕ} (hroom : nu ≤ s.amm.mlen - s.amm.fill) (hlen : len ≤ nu * 2 ^ k) :
    Sound mlen (2 ^ k) len s.live (s.carved nu) := by
  have hall := shiftRight_mul_le mlen k
  have hfill := h.fill
  rw [h.units] at hroom
  have hused : (s.amm.fill + nu) * 2 ^ k ≤ mlen >>> k * 2 ^ k := Nat.mul_le_mul_right _ (by omega)
  rw [Nat.add_mul] at hused
  rw [Sound,Carvings.carved,h.p2,h.units]
  by_cases hdir : s.amm.hi2lo = true
  · have hoff : (mlen >>> k - (s.amm.fill + nu)) * 2 ^ k + nu * 2 ^ k = (mlen >>> k - s.amm.fill) * 2 ^ k := by
      rw [← Nat.add_mul]
      congr 1
      omega
    have htop : (mlen >>> k - s.amm.fill) * 2 ^ k ≤ mlen >>> k * 2 ^ k := Nat.mul_le_mul_right _ (Nat.sub_le ..)
    rw [if_pos hdir]
    refine ⟨by dsimp only; omega,hlen,⟨_,Nat.mul_comm ..⟩,fun c hc i hb hin => ?_⟩
    have hlive := h.live c hc
    rw [if_pos hdir] at hlive
    dsimp only at hb
    omega
  · rw [if_neg hdir]
    refine ⟨by dsimp only; omega,hlen,⟨_,Nat.mul_comm ..⟩,fun c hc i hb hin => ?_⟩
    have hlive := h.live c hc
    rw [if_neg hdir] at hlive
    dsimp only at hb
    omega

theorem step_eq (h : s.Inv mlen k) (len : ℕ) : s.step (.get len) = if s.amm.units len > s.amm.mlen - s.amm.fill then s
    else ⟨{ s.amm with fill := s.amm.fill + s.amm.units len },s.carved (s.amm.units len) :: s.live⟩ := by
  rw [Carvings.step,ammGet_eq h]
  by_cases hroom : s.amm.units len > s.amm.mlen - s.amm.fill
  · rw [if_pos hroom,if_pos hroom]
  · rw [if_neg hroom,if_neg hroom]
    dsimp only
    rw [Nat.add_sub_cancel_left,Nat.shiftLeft_eq]
    rfl

theorem step_inv (h : s.Inv mlen k) : (s.step r).Inv mlen k := by
  cases r with
  | reset => exact ⟨h.p2,h.units,h.mem,Nat.zero_le _,nofun⟩
  | get len =>
    rw [step_eq h]
    split
    · exact h
    rename_i hroom
    have hfill := h.fill
    rw [h.units] at hroom
    refine ⟨h.p2,h.units,h.mem,by dsimp only; omega,fun c hc => ?_⟩
    dsimp only at hc ⊢
    rw [Carvings.carved,h.p2,h.units] at hc
    split
    · rename_i hdir
      rw [if_pos hdir] at hc
      obtain rfl | hc := List.mem_cons.mp hc
      · refine ⟨Nat.le_refl _,?_⟩
        dsimp only
        rw [← Nat.add_mul]
        exact Nat.mul_le_mul_right _ (by omega)
      · have hlive := h.live c hc
        rw [if_pos hdir] at hlive
        exact ⟨Nat.le_trans (Nat.mul_le_mul_right _ (by omega)) hlive.1,hlive.2⟩
    · rename_i hdir
      rw [if_neg hdir] at hc
      obtain rfl | hc := List.mem_cons.mp hc
      · exact Nat.le_of_eq (Nat.add_mul ..).symm
      · have hlive := h.live c hc
        rw [if_neg hdir] at hlive
        exact Nat.le_trans hlive (Nat.mul_le_mul_right _ (Nat.le_add_right ..))

theorem step_meets (h : s.Inv mlen k) (hk : k < 31) (hr : ∀ len, r = .get len → len < 2 ^ 64) :
    s.Meets mlen (2 ^ k) r ↔ r.Fits (2 ^ k) := by
  cases r with
  | reset => exact Iff.rfl
  | get len =>
    have hp2 := h.p2
    constructor
    · intro hmeets
      by_contra hfit
      rw [Request.Fits] at hfit
      have hnone : s.amm.units len = 0 := units_wraps (hr len rfl) (hp2 ▸ hk) (hp2 ▸ hfit)
      have hget := ammGet_eq h len
      rw [hnone,if_neg (Nat.not_lt_zero _)] at hget
      obtain ⟨-,hlong,-⟩ := hmeets _ _ hget
      have hlt : 2 ^ k ≤ 2 ^ 31 := Nat.pow_le_pow_right Nat.two_pos (Nat.le_of_lt hk)
      simp at hlong
      omega
    · intro hfit off amm hget
      rw [ammGet_eq h] at hget
      split at hget
      · cases hget
      · rename_i hroom
        obtain ⟨hoff,rfl⟩ := Prod.mk.inj hget
        obtain rfl := Option.some_inj.mp hoff
        have hsound := carved_sound h (Nat.not_lt.mp hroom) (hp2 ▸ units_fits (hp2.symm ▸ hfit))
        dsimp only
        rw [Nat.add_sub_cancel_left,Nat.shiftLeft_eq]
        exact hsound

/-- Along a run all blocks are sound if and only if no length wraps when it is rounded up. -/
theorem amm_run_iff (mlen : ℕ) (align : ℤ) (hi2lo : Bool) (amm : Arraymm) (requests : List Request) (halign : align < 2 ^ 31)
    (hinit : ammInit mlen align hi2lo = some amm) (hsize : ∀ len, .get len ∈ requests → len < 2 ^ 64) :
    Along (fun s r s' => s.step r = s') (Carvings.Meets mlen (alignment align)) requests ⟨amm,[]⟩ ↔
      ∀ r ∈ requests, r.Fits (alignment align) := by
  obtain ⟨k,hk,halign,rfl⟩ := ammInit_spec hinit halign
  rw [halign]
  have hinv : Carvings.Inv mlen k ⟨⟨if hi2lo then (mlen >>> k) <<< k else 0,mlen >>> k,0,k,hi2lo⟩,[]⟩ :=
    ⟨rfl,rfl,rfl,Nat.zero_le _,nofun⟩
  have hproper : Along (fun s r s' => Carvings.step s r = s') (fun _ r => ∀ len, r = .get len → len < 2 ^ 64) requests
      ⟨⟨if hi2lo then (mlen >>> k) <<< k else 0,mlen >>> k,0,k,hi2lo⟩,[]⟩ :=
    (along_inputs ..).mpr fun r hr len hlen => hsize len (hlen ▸ hr)
  have hiff : ∀ s r, Carvings.Inv mlen k s → (∀ len, r = .get len → len < 2 ^ 64) → (s.Meets mlen (2 ^ k) r ↔ r.Fits (2 ^ k)) :=
    fun s r h hr => step_meets h hk hr
  refine (Along.iff hiff ?_ hinv hproper).trans (along_inputs ..)
  rintro s r h - - s' rfl
  exact step_inv h

theorem amm_run_three : Along (fun s r s' => Carvings.step s r = s') (Carvings.Meets 64 8) [.get 9,.get 8,.reset,.get 64]
    ⟨⟨64,8,0,3,true⟩,[]⟩ :=
  (amm_run_iff 64 0 true ⟨64,8,0,3,true⟩ [.get 9,.get 8,.reset,.get 64] (by decide) (by rfl)
    (by simp only [List.mem_cons]; rintro len (h | h | h | h | h) <;> cases h <;> decide)).mpr
    (by simp only [List.mem_cons]; rintro r (rfl | rfl | rfl | rfl | h) <;> first | exact trivial | cases h | (show _ < _; decide))

/-- A request for all the bytes that a size_t can count gets the first byte, and so does the next one. -/
theorem amm_run_wraps : ammInit 64 8 false = some ⟨0,8,0,3,false⟩ ∧
    ammGet ⟨0,8,0,3,false⟩ (2 ^ 64 - 1) = (some 0,⟨0,8,0,3,false⟩) ∧ ammGet ⟨0,8,0,3,false⟩ 8 = (some 0,⟨0,8,1,3,false⟩) ∧
    ¬Along (fun s r s' => Carvings.step s r = s') (Carvings.Meets 64 8) [.get (2 ^ 64 - 1)] ⟨⟨0,8,0,3,false⟩,[]⟩ := by
  refine ⟨by rfl,by rfl,by rfl,fun h => ?_⟩
  obtain ⟨-,hlong,-⟩ := h.1 0 ⟨0,8,0,3,false⟩ (by rfl)
  exact absurd hlong (by decide)

end Catlib.Memory
