import Catlib.Logic.Moves
import Mathlib.Algebra.Order.Ring.Nat

/-! # The memory functions of catlibc.c

Memory is bytes at addresses, 0 being NULL. The ranges lie in the address space, and a failed
`abort_unless` has no result.
-/
namespace Catlib.Libc

abbrev Bytes := ℕ → UInt8

/-! ## The code -/

/-- `while ( len-- ) *d++ = *s++;` -/
def copyUp (m : Bytes) (d s : ℕ) : ℕ → Bytes
  | 0 => m
  | len + 1 => copyUp (Function.update m d (m s)) (d + 1) (s + 1) len

/-- `while ( len-- ) *--d = *--s;` -/
def copyDown (m : Bytes) (d s : ℕ) : ℕ → Bytes
  | 0 => m
  | len + 1 => copyDown (Function.update m (d - 1) (m (s - 1))) (d - 1) (s - 1) len

def memmove (m : Bytes) (dst src len : ℕ) : Option (Bytes × ℕ) :=
  if dst ≠ 0 ∧ src ≠ 0 then
    if src < dst then some (copyUp m dst src len,dst)
    else if src > dst then some (copyDown m (dst + len) (src + len) len,dst)
    else some (m,dst)
  else none

def memcpy (m : Bytes) (dst src len : ℕ) : Option (Bytes × ℕ) := memmove m dst src len

/-- `while ( len-- ) *p = c;`: the pointer stays. -/
def setLoop (m : Bytes) (p : ℕ) (c : UInt8) : ℕ → Bytes
  | 0 => m
  | len + 1 => setLoop (Function.update m p c) p c len

/-- `memset`, the value being stored as an uchar. -/
def memset (m : Bytes) (dst : ℕ) (c : ℤ) (len : ℕ) : Bytes × ℕ := (setLoop m dst (UInt8.ofInt c) len,dst)

/-- `calloc`, on whatever `malloc` makes of the memory. -/
def calloc (malloc : Bytes → ℕ → Bytes × ℕ) (m : Bytes) (nmem osiz : ℕ) : Bytes × ℕ :=
  if nmem = 0 then (m,0)
  else if osiz > (2 ^ 64 - 1) / nmem then (m,0)
  else
    let len := osiz * nmem
    let (m,p) := malloc m len
    if p ≠ 0 then ((memset m p 0 len).1,p) else (m,p)

/-! ## What they are for -/

/-- The bytes from `dst` on become others, and no other byte changes. -/
def written (m : Bytes) (dst len : ℕ) (val : ℕ → UInt8) : Bytes :=
  fun x => if dst ≤ x ∧ x < dst + len then val (x - dst) else m x

/-- The bytes that were at `src`. -/
def moved (m : Bytes) (dst src len : ℕ) : Bytes := written m dst len fun i => m (src + i)

def filled (m : Bytes) (dst : ℕ) (c : UInt8) (len : ℕ) : Bytes := written m dst len fun _ => c

variable {m m' : Bytes} {dst src len : ℕ} {val : ℕ → UInt8}

theorem written_iff (h : ∀ x, (∀ i < len, x ≠ dst + i) → m' x = m x) :
    m' = written m dst len val ↔ ∀ i < len, m' (dst + i) = val i := by
  constructor
  · intro he i hi
    rw [he,written,if_pos ⟨by omega,by omega⟩,Nat.add_sub_cancel_left]
  · intro hw
    funext x
    by_cases hx : dst ≤ x ∧ x < dst + len
    · have := hw (x - dst) (by omega)
      rw [Nat.add_sub_cancel' hx.1] at this
      rw [this,written,if_pos hx]
    · rw [written,if_neg hx]
      exact h x fun i hi he => hx (by omega)

/-! ## Moves -/

theorem copyUp_eq (m : Bytes) (d s len : ℕ) : copyUp m d s len = moves (d + ·) (s + ·) m len := by
  induction len generalizing m d s with
  | zero => rfl
  | succ len ih =>
    rw [copyUp,ih,moves_succ]
    simp only [Nat.add_zero,Nat.add_assoc,Nat.add_comm 1]

theorem copyDown_eq (m : Bytes) (d s len : ℕ) : copyDown m d s len = moves (d - 1 - ·) (s - 1 - ·) m len := by
  induction len generalizing m d s with
  | zero => rfl
  | succ len ih =>
    have hshift (p : ℕ) : (fun i => p - 1 - 1 - i) = fun i => p - 1 - (i + 1) := funext fun i => by omega
    rw [copyDown,ih,moves_succ,hshift,hshift]
    rfl

theorem copyUp_iff (h : src < dst) :
    copyUp m dst src len = moved m dst src len ↔ ∀ i, i + (dst - src) < len → m (src + i) = m (src + (i + (dst - src))) := by
  have hl : Lags (dst + ·) (src + ·) (dst - src) len :=
    ⟨by omega,fun i _ j _ => by omega,fun i _ _ => by omega,fun i _ _ j _ => by omega⟩
  rw [copyUp_eq,moved,written_iff fun x hx => moves_of_ne hx]
  exact moves_copies_iff hl

theorem copyDown_iff (h : dst < src) :
    copyDown m (dst + len) (src + len) len = moved m dst src len ↔
      ∀ i, i + (src - dst) < len → m (src + i) = m (src + (i + (src - dst))) := by
  have hl : Lags (dst + len - 1 - ·) (src + len - 1 - ·) (src - dst) len :=
    ⟨by lia,fun i _ j _ => by lia,fun i _ _ => by lia,fun i _ _ j _ => by lia⟩
  have hout (x : ℕ) (hx : ∀ i < len, x ≠ dst + i) : ∀ j < len, x ≠ dst + len - 1 - j := fun j hj => by
    have := hx (len - 1 - j) (by lia)
    lia
  rw [copyDown_eq,moved,written_iff fun x hx => moves_of_ne (hout x hx)]
  -- step `i` copies the byte `len - 1 - i`
  calc (∀ i < len, moves (dst + len - 1 - ·) (src + len - 1 - ·) m len (dst + i) = m (src + i))
      ↔ ∀ i < len, moves (dst + len - 1 - ·) (src + len - 1 - ·) m len (dst + len - 1 - i) = m (src + len - 1 - i) := by
        refine ⟨fun h i hi => ?_,fun h i hi => ?_⟩
        · have hd : dst + (len - 1 - i) = dst + len - 1 - i := by lia
          have hs : src + (len - 1 - i) = src + len - 1 - i := by lia
          rw [← hd,← hs]
          exact h _ (by lia)
        · have hd : dst + len - 1 - (len - 1 - i) = dst + i := by lia
          have hs : src + len - 1 - (len - 1 - i) = src + i := by lia
          have := h (len - 1 - i) (by lia)
          rwa [hd,hs] at this
    _ ↔ ∀ i, i + (src - dst) < len → m (src + len - 1 - i) = m (src + len - 1 - (i + (src - dst))) := moves_copies_iff hl
    _ ↔ ∀ i, i + (src - dst) < len → m (src + i) = m (src + (i + (src - dst))) := by
        refine ⟨fun h i hi => ?_,fun h i hi => ?_⟩
        · have hlo : src + len - 1 - (len - 1 - (i + (src - dst)) + (src - dst)) = src + i := by lia
          have hhi : src + len - 1 - (len - 1 - (i + (src - dst))) = src + (i + (src - dst)) := by lia
          have := h (len - 1 - (i + (src - dst))) (by lia)
          rw [hlo,hhi] at this
          exact this.symm
        · have hlo : src + (len - 1 - (i + (src - dst))) = src + len - 1 - (i + (src - dst)) := by lia
          have hhi : src + (len - 1 - (i + (src - dst)) + (src - dst)) = src + len - 1 - i := by lia
          have := h (len - 1 - (i + (src - dst))) (by lia)
          rw [hlo,hhi] at this
          exact this.symm

/-- The source repeats at the distance of the two ranges, as far as they overlap. -/
def Repeats (m : Bytes) (dst src len : ℕ) : Prop :=
  ∀ i, i + (dst - src + (src - dst)) < len → m (src + i) = m (src + (i + (dst - src + (src - dst))))

theorem memmove_iff (m : Bytes) (dst src len : ℕ) :
    memmove m dst src len = some (moved m dst src len,dst) ↔ dst ≠ 0 ∧ src ≠ 0 ∧ Repeats m dst src len := by
  unfold memmove
  by_cases h0 : dst ≠ 0 ∧ src ≠ 0
  · rw [if_pos h0,← and_assoc,and_iff_right h0,Repeats]
    rcases lt_trichotomy src dst with hlt | rfl | hgt
    · rw [if_pos hlt,Option.some_inj,Prod.mk.injEq,and_iff_left rfl,copyUp_iff hlt,Nat.sub_eq_zero_of_le hlt.le,Nat.add_zero]
    · rw [if_neg (lt_irrefl _),if_neg (lt_irrefl _),Option.some_inj,Prod.mk.injEq,and_iff_left rfl,moved,
        written_iff fun _ _ => rfl]
      simp
    · rw [if_neg hgt.not_gt,if_pos hgt,Option.some_inj,Prod.mk.injEq,and_iff_left rfl,copyDown_iff hgt,
        Nat.sub_eq_zero_of_le hgt.le,Nat.zero_add]
  · rw [if_neg h0,← and_assoc]
    exact ⟨nofun,fun h => absurd h.1 h0⟩

/-! ## Fills -/

theorem setLoop_succ (m : Bytes) (p : ℕ) (c : UInt8) (len : ℕ) : setLoop m p c (len + 1) = Function.update m p c := by
  induction len generalizing m with
  | zero => rfl
  | succ len ih => rw [setLoop,ih,Function.update_idem]

theorem setLoop_iff (m : Bytes) (dst : ℕ) (c : UInt8) (len : ℕ) :
    setLoop m dst c len = filled m dst c len ↔ ∀ i, 0 < i → i < len → m (dst + i) = c := by
  cases len with
  | zero =>
    rw [setLoop,filled,written_iff fun _ _ => rfl]
    exact ⟨fun _ i _ hi => absurd hi (Nat.not_lt_zero i),fun _ i hi => absurd hi (Nat.not_lt_zero i)⟩
  | succ len =>
    have hout (x : ℕ) (hx : ∀ i < len + 1, x ≠ dst + i) : Function.update m dst c x = m x :=
      Function.update_of_ne (hx 0 (Nat.succ_pos len)) ..
    rw [setLoop_succ,filled,written_iff hout]
    refine ⟨fun h i hi hlen => ?_,fun h i hi => ?_⟩
    · rw [← h i hlen,Function.update_of_ne (by omega)]
    · rcases Nat.eq_zero_or_pos i with rfl | hpos
      · exact Function.update_self ..
      · rw [Function.update_of_ne (by omega),h i hpos hi]

theorem memset_iff (m : Bytes) (dst : ℕ) (c : ℤ) (len : ℕ) :
    memset m dst c len = (filled m dst (UInt8.ofInt c) len,dst) ↔ ∀ i, 0 < i → i < len → m (dst + i) = UInt8.ofInt c := by
  rw [memset,Prod.mk.injEq,and_iff_left rfl]
  exact setLoop_iff ..

/-- What calloc is for: the bytes of the elements are 0 in the block that malloc has for them. -/
def cleared (malloc : Bytes → ℕ → Bytes × ℕ) (m : Bytes) (nmem osiz : ℕ) : Bytes × ℕ :=
  if nmem ≠ 0 ∧ osiz * nmem < 2 ^ 64 then
    let (m,p) := malloc m (osiz * nmem)
    (if p = 0 then m else filled m p 0 (osiz * nmem),p)
  else (m,0)

theorem calloc_iff (malloc : Bytes → ℕ → Bytes × ℕ) (m : Bytes) (nmem osiz : ℕ) :
    calloc malloc m nmem osiz = cleared malloc m nmem osiz ↔
      (nmem ≠ 0 → osiz * nmem < 2 ^ 64 → (malloc m (osiz * nmem)).2 ≠ 0 →
        ∀ i, 0 < i → i < osiz * nmem → (malloc m (osiz * nmem)).1 ((malloc m (osiz * nmem)).2 + i) = 0) := by
  unfold calloc cleared
  by_cases h0 : nmem = 0
  · simp [h0]
  have hfits : osiz > (2 ^ 64 - 1) / nmem ↔ ¬ osiz * nmem < 2 ^ 64 := by
    rw [gt_iff_lt,Nat.div_lt_iff_lt_mul (Nat.pos_of_ne_zero h0)]
    omega
  by_cases hlt : osiz * nmem < 2 ^ 64
  · rw [if_neg h0,if_neg (by rwa [hfits,not_not]),if_pos ⟨h0,hlt⟩]
    by_cases hp : (malloc m (osiz * nmem)).2 = 0
    · simp [hp]
    · simp only [if_neg hp,if_pos (show (malloc m (osiz * nmem)).2 ≠ 0 from hp),Prod.mk.injEq,and_true]
      exact (setLoop_iff ..).trans ⟨fun h _ _ _ => h,fun h => h h0 hlt hp⟩
  · rw [if_neg h0,if_pos (hfits.mpr hlt),if_neg fun h => hlt h.2]
    exact ⟨fun _ _ h => absurd h hlt,fun _ => rfl⟩

/-- The three at once. -/
theorem mem_iff (m : Bytes) :
    (∀ dst src len, memmove m dst src len = some (moved m dst src len,dst) ↔ dst ≠ 0 ∧ src ≠ 0 ∧ Repeats m dst src len) ∧
    (∀ dst c len, memset m dst c len = (filled m dst (UInt8.ofInt c) len,dst) ↔
      ∀ i, 0 < i → i < len → m (dst + i) = UInt8.ofInt c) ∧
    ∀ malloc nmem osiz, calloc malloc m nmem osiz = cleared malloc m nmem osiz ↔
      (nmem ≠ 0 → osiz * nmem < 2 ^ 64 → (malloc m (osiz * nmem)).2 ≠ 0 →
        ∀ i, 0 < i → i < osiz * nmem → (malloc m (osiz * nmem)).1 ((malloc m (osiz * nmem)).2 + i) = 0) :=
  ⟨memmove_iff m,memset_iff m,fun malloc => calloc_iff malloc m⟩

theorem memmove_disjoint (h : dst ≠ 0 ∧ src ≠ 0) (hd : dst + len ≤ src ∨ src + len ≤ dst) :
    memmove m dst src len = some (moved m dst src len,dst) :=
  (memmove_iff m dst src len).mpr ⟨h.1,h.2,fun i hi => by omega⟩

/-- Three bytes moved up by one are all the first, and of two that are set or cleared the second stays. -/
theorem mem_overlap :
    (memmove UInt8.ofNat 2 1 3).map (fun r => (r.1 2,r.1 3,r.1 4)) = some (1,1,1) ∧
      memmove UInt8.ofNat 2 1 3 ≠ some (moved UInt8.ofNat 2 1 3,2) ∧
      (memset UInt8.ofNat 1 0 2).1 2 = 2 ∧ memset UInt8.ofNat 1 0 2 ≠ (filled UInt8.ofNat 1 0 2,1) ∧
      calloc (fun m _ => (m,1)) UInt8.ofNat 2 1 ≠ cleared (fun m _ => (m,1)) UInt8.ofNat 2 1 := by
  refine ⟨by decide,fun h => ?_,by decide,fun h => ?_,fun h => ?_⟩
  · have := ((memmove_iff ..).mp h).2.2 0 (by decide)
    exact absurd this (by decide)
  · have := (memset_iff UInt8.ofNat 1 0 2).mp h 1 (by decide) (by decide)
    exact absurd this (by decide)
  · have := (calloc_iff ..).mp h (by decide) (by decide) (by decide) 1 (by decide) (by decide)
    exact absurd this (by decide)

end Catlib.Libc
