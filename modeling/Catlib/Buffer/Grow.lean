import Catlib.Buffer.Dynbuf

/-! # Growing blocks in grow.c

A pointer is null, a block of the heap, or the address of the variable that holds the caller's
pointer: `mm_grow` takes that for the block.
-/
namespace Catlib.Buffer

/-! ## The code -/

inductive Ptr where
  | null
  | block (cells : List UInt8)
  | variable

def Ptr.isNull : Ptr → Bool
  | .null => true
  | _ => false

/-- The bytes behind a pointer. -/
def Ptr.cells : Ptr → Option (List UInt8)
  | .block l => some l
  | _ => none

/-- `realloc`, and `mem_resize` of a manager that behaves like it. Nothing is said of an address that is no block. -/
def resize (mm : MemMgr UInt8) : Ptr → ℕ → Option Ptr
  | .null, sz => some ((memResize mm [] sz).elim .null .block)
  | .block old, sz => some ((memResize mm old sz).elim .null .block)
  | .variable, _ => none

def catMinGrow : ℕ := 32

/-- The loop that doubles the length. -/
def growLoop (maxmem min : ℕ) : ℕ → ℕ → Option ℕ
  | 0, newlen => if newlen < min then none else some newlen
  | fuel + 1, newlen =>
    if newlen < min then
      let n := newlen * 2 % 2 ^ 64
      growLoop maxmem min fuel (if n < newlen ∨ n > maxmem then maxmem else n)
    else some newlen

/-- What `agrow` and `mm_agrow` have in common; `resized` is the request for `newlen` elements. -/
def agrowWith (resized : Ptr → ℕ → Option Ptr) (ptr : Ptr) (ilen len min : ℕ) : Option (ℤ × Ptr × ℕ) :=
  let maxmem := ulongMax / ilen
  if ilen = 0 ∨ ¬(len > 0 ∨ ptr.isNull = true) ∨ len > maxmem then none
  else if min > maxmem then some (-1,ptr,len)
  else
    let min := if min = 0 ∧ len < maxmem then len + 1 else min
    if min ≤ len then some (0,ptr,len)
    else do
      let newlen ← growLoop maxmem min 64
        (if len > 0 then len else if catMinGrow / ilen = 0 then 1 else catMinGrow / ilen)
      let p ← resized ptr newlen
      if p.isNull then return (-1,ptr,len) else return (0,p,newlen)

def agrow (mm : MemMgr UInt8) (ptr : Ptr) (ilen len min : ℕ) : Option (ℤ × Ptr × ℕ) :=
  agrowWith (fun p newlen => resize mm p (newlen * ilen % 2 ^ 64)) ptr ilen len min

/-- `mm_agrow`, which asks for `newlen` bytes. -/
def mmAgrow (mm : MemMgr UInt8) (ptr : Ptr) (ilen len min : ℕ) : Option (ℤ × Ptr × ℕ) :=
  agrowWith (resize mm) ptr ilen len min

def grow (mm : MemMgr UInt8) (ptr : Ptr) (len min : ℕ) : Option (ℤ × Ptr × ℕ) := agrow mm ptr 1 len min

/-- `mm_grow`: `p2` begins as the address of the caller's pointer, whatever that is. -/
def mmGrow (mm : MemMgr UInt8) (_ptr : Ptr) (len min : ℕ) : Option (ℤ × Ptr × ℕ) := mmAgrow mm .variable 1 len min

/-! ## The new length -/

variable {mm : MemMgr UInt8} {ptr : Ptr} {resized : Ptr → ℕ → Option Ptr} {ilen len min maxmem newlen fuel n sz : ℕ} {old : List UInt8}

theorem growLoop_spec (hmin : min ≤ maxmem) (hmax : maxmem < 2 ^ 64) (hpos : 0 < newlen) (hle : newlen ≤ maxmem)
    (hfuel : min ≤ newlen * 2 ^ fuel) : ∃ n, growLoop maxmem min fuel newlen = some n ∧ min ≤ n ∧ newlen ≤ n ∧ n ≤ maxmem := by
  induction fuel generalizing newlen with
  | zero =>
    rw [Nat.pow_zero,Nat.mul_one] at hfuel
    exact ⟨newlen,if_neg (Nat.not_lt.mpr hfuel),hfuel,le_rfl,hle⟩
  | succ fuel ih =>
    rw [growLoop]
    split
    · rename_i hlt
      dsimp only
      split
      · obtain ⟨n,hn,h1,h2,h3⟩ := ih (show 0 < maxmem by omega) le_rfl (hmin.trans (Nat.le_mul_of_pos_right _ (Nat.two_pow_pos _)))
        exact ⟨n,hn,h1,hle.trans h2,h3⟩
      · rename_i hno
        have hn : newlen * 2 % 2 ^ 64 = newlen * 2 := Nat.mod_eq_of_lt (by omega)
        rw [hn] at hno ⊢
        rw [Nat.pow_succ',← Nat.mul_assoc] at hfuel
        obtain ⟨n,hn,h1,h2,h3⟩ := ih (by omega) (by omega) hfuel
        exact ⟨n,hn,h1,by omega,h3⟩
    · exact ⟨newlen,rfl,Nat.not_lt.mp ‹_›,le_rfl,hle⟩

/-- No more room is asked for than there is. -/
def Enough (ilen len min : ℕ) : Prop := min ≤ len ∧ (min ≠ 0 ∨ len = ulongMax / ilen)

/-- The calls that the functions are for: a null pointer has no elements, and a block all of its own. -/
def Held (ilen len : ℕ) : Ptr → Prop
  | .null => len = 0
  | .block old => 0 < len ∧ len * ilen ≤ old.length
  | .variable => False

theorem Held.started (h : Held ilen len ptr) : 0 < len ∨ ptr.isNull = true :=
  match ptr, h with
  | .null, _ => .inr rfl
  | .block _, h => .inl h.1

theorem no_abort (hilen : 0 < ilen) (hstart : 0 < len ∨ ptr.isNull = true) (hlen : len ≤ ulongMax / ilen) :
    ¬(ilen = 0 ∨ ¬(len > 0 ∨ ptr.isNull = true) ∨ len > ulongMax / ilen) := by
  rintro (h | h | h)
  · exact hilen.ne' h
  · exact h hstart
  · exact h.not_ge hlen

theorem agrowWith_refuses (hilen : 0 < ilen) (hstart : 0 < len ∨ ptr.isNull = true) (hlen : len ≤ ulongMax / ilen)
    (hmin : ulongMax / ilen < min) : agrowWith resized ptr ilen len min = some (-1,ptr,len) := by
  rw [agrowWith]
  dsimp only
  rw [if_neg (no_abort hilen hstart hlen),if_pos hmin]

theorem agrowWith_enough (hilen : 0 < ilen) (hstart : 0 < len ∨ ptr.isNull = true) (hlen : len ≤ ulongMax / ilen)
    (h : Enough ilen len min) : agrowWith resized ptr ilen len min = some (0,ptr,len) := by
  obtain ⟨hmin,hzero⟩ := h
  rw [agrowWith]
  dsimp only
  rw [if_neg (no_abort hilen hstart hlen),if_neg (by omega),if_neg (show ¬(min = 0 ∧ len < ulongMax / ilen) by omega),if_pos hmin]

theorem agrowWith_grows (hilen : 0 < ilen) (hsize : ilen < 2 ^ 64) (hstart : 0 < len ∨ ptr.isNull = true) (hlen : len ≤ ulongMax / ilen)
    (hmin : min ≤ ulongMax / ilen) (h : ¬Enough ilen len min) : ∃ n, 0 < n ∧ min ≤ n ∧ len ≤ n ∧ n ≤ ulongMax / ilen ∧
      ∀ resized, agrowWith resized ptr ilen len min =
        (resized ptr n).bind fun p => if p.isNull = true then some (-1,ptr,len) else some (0,p,n) := by
  have hmax : ulongMax / ilen < 2 ^ 64 := (Nat.div_le_self ..).trans_lt (by decide)
  have hone : 1 ≤ ulongMax / ilen := (Nat.one_le_div_iff hilen).mpr (by rw [ulongMax]; lia)
  have hfirst : ∃ first, first = (if len > 0 then len else if catMinGrow / ilen = 0 then 1 else catMinGrow / ilen) ∧
      0 < first ∧ len ≤ first ∧ first ≤ ulongMax / ilen := by
    refine ⟨_,rfl,?_⟩
    split
    · exact ⟨‹_›,le_rfl,hlen⟩
    · split
      · lia
      · exact ⟨Nat.pos_of_ne_zero ‹_›,(Nat.eq_zero_of_not_pos ‹_›).trans_le (Nat.zero_le _),Nat.div_le_div_right (by decide)⟩
  obtain ⟨first,heq,hpos,hle,hfit⟩ := hfirst
  have hwant : (if min = 0 ∧ len < ulongMax / ilen then len + 1 else min) ≤ ulongMax / ilen := by
    split <;> lia
  have hmore : ¬(if min = 0 ∧ len < ulongMax / ilen then len + 1 else min) ≤ len := by
    rw [Enough] at h
    split <;> lia
  have hfuel : (if min = 0 ∧ len < ulongMax / ilen then len + 1 else min) ≤ first * 2 ^ 64 :=
    hwant.trans (hmax.le.trans (Nat.le_mul_of_pos_left _ hpos))
  have hmore' : min ≤ (if min = 0 ∧ len < ulongMax / ilen then len + 1 else min) := by
    split <;> lia
  obtain ⟨n,hn,hle',hge,hnmax⟩ := growLoop_spec hwant hmax hpos hfit hfuel
  refine ⟨n,by lia,hmore'.trans hle',by lia,hnmax,fun resized => ?_⟩
  rw [agrowWith]
  dsimp only
  rw [if_neg (no_abort hilen hstart hlen),if_neg (by lia),if_neg hmore,← heq,hn]
  rfl

/-! ## The outcomes -/

/-- A block with room for the new elements begins with the old ones. -/
def Enlarged (ilen len : ℕ) (ptr p : Ptr) (n : ℕ) : Prop :=
  ∃ cells, p = .block cells ∧ n * ilen ≤ cells.length ∧ ∀ old, ptr = .block old → old.take (len * ilen) <+: cells

/-- Two calls have the same outcome: both grow the block, or both leave the pointer and the length. -/
def SameOutcome (ilen len : ℕ) (ptr : Ptr) (f g : Option (ℤ × Ptr × ℕ)) : Prop :=
  ∃ r p q n, f = some (r,p,n) ∧ g = some (r,q,n) ∧
    (r = 0 ∧ Enlarged ilen len ptr p n ∧ Enlarged ilen len ptr q n ∨ r = -1 ∧ p = ptr ∧ q = ptr ∧ n = len)

theorem memResize_prefix {cells : List UInt8} (h : memResize mm old sz = some cells) (hle : n ≤ old.length) (hsz : n ≤ sz) :
    cells.length = sz ∧ old.take n <+: cells := by
  obtain ⟨fill,-,rfl⟩ := Option.map_eq_some_iff.mp h
  refine ⟨by rw [List.length_map,List.length_range],?_⟩
  rw [List.prefix_iff_eq_take,List.length_take_of_le hle]
  apply List.ext_getElem
  · simp
    omega
  · intro i h1 h2
    rw [List.length_take] at h1
    simp [List.getD_eq_getElem?_getD, List.getElem?_eq_getElem (show i < old.length by omega)]

theorem resize_held (h : Held ilen len ptr) (hsz : len * ilen ≤ sz) (hn : n * ilen ≤ sz) :
    resize mm ptr sz = some .null ∨ ∃ p, resize mm ptr sz = some p ∧ p.isNull = false ∧ Enlarged ilen len ptr p n := by
  cases ptr with
  | null =>
    rw [resize]
    cases hcells : memResize mm [] sz with
    | none => exact .inl rfl
    | some cells =>
      obtain ⟨hlen,-⟩ := memResize_prefix hcells (Nat.zero_le _) (Nat.zero_le _)
      exact .inr ⟨_,rfl,rfl,cells,rfl,hlen ▸ hn,nofun⟩
  | block old =>
    rw [resize]
    cases hcells : memResize mm old sz with
    | none => exact .inl rfl
    | some cells =>
      obtain ⟨hlen,hpre⟩ := memResize_prefix hcells h.2 hsz
      refine .inr ⟨_,rfl,rfl,cells,rfl,hlen ▸ hn,?_⟩
      rintro _ ⟨rfl⟩
      exact hpre
  | «variable» => exact h.elim

theorem SameOutcome.refl {f : Option (ℤ × Ptr × ℕ)}
    (h : f = some (-1,ptr,len) ∨ ∃ p n, f = some (0,p,n) ∧ Enlarged ilen len ptr p n) : SameOutcome ilen len ptr f f := by
  obtain h | ⟨p,n,h,hp⟩ := h
  · exact ⟨_,_,_,_,h,h,.inr ⟨rfl,rfl,rfl,rfl⟩⟩
  · exact ⟨_,_,_,_,h,h,.inl ⟨rfl,hp,hp⟩⟩

theorem Held.enlarged (h : Held ilen len ptr) (hlen : 0 < len) : Enlarged ilen len ptr ptr len := by
  cases ptr with
  | null => exact absurd h hlen.ne'
  | block old =>
    refine ⟨old,rfl,h.2,?_⟩
    rintro _ ⟨rfl⟩
    exact List.take_prefix ..
  | «variable» => exact h.elim

theorem resize_available (h : Held ilen len ptr) (sz : ℕ) :
    ∃ cells, resize (fun _ => some fun _ => 0) ptr sz = some (.block cells) ∧ cells.length = sz := by
  cases ptr with
  | null => exact ⟨_,rfl,by rw [List.length_map,List.length_range]⟩
  | block old => exact ⟨_,rfl,by rw [List.length_map,List.length_range]⟩
  | «variable» => exact h.elim

theorem agrow_run (mm : MemMgr UInt8) (hilen : 0 < ilen) (hsize : ilen < 2 ^ 64) (hlen : len ≤ ulongMax / ilen) (hptr : Held ilen len ptr) :
    agrow mm ptr ilen len min = some (-1,ptr,len) ∨ ∃ p n, agrow mm ptr ilen len min = some (0,p,n) ∧ Enlarged ilen len ptr p n := by
  by_cases hmin : ulongMax / ilen < min
  · exact .inl (agrowWith_refuses hilen hptr.started hlen hmin)
  by_cases henough : Enough ilen len min
  · refine .inr ⟨_,_,agrowWith_enough hilen hptr.started hlen henough,hptr.enlarged (Nat.pos_of_ne_zero fun h => ?_)⟩
    subst h
    have hone : 1 ≤ ulongMax / ilen := (Nat.one_le_div_iff hilen).mpr (by rw [ulongMax]; omega)
    rw [Enough] at henough
    omega
  obtain ⟨n,-,-,hle,hmax,hrun⟩ := agrowWith_grows hilen hsize hptr.started hlen (Nat.not_lt.mp hmin) henough
  have hbytes : n * ilen % 2 ^ 64 = n * ilen := by
    have := (Nat.le_div_iff_mul_le hilen).mp hmax
    exact Nat.mod_eq_of_lt (by rw [ulongMax] at this; omega)
  rw [agrow,hrun,hbytes]
  obtain hnull | ⟨p,hp,hnot,henl⟩ := resize_held hptr (Nat.mul_le_mul_right ilen hle) le_rfl
  · exact .inl (by rw [hnull]; rfl)
  · exact .inr ⟨p,n,by rw [hp,Option.bind_some,hnot,if_neg Bool.false_ne_true],henl⟩

theorem grow_block (hmem : ∀ sz, (mm sz).isSome = true) (hlen : 0 < len) (hmin : len < min) (hmax : min ≤ ulongMax)
    (hold : old.length = len) :
    ∃ cells n, grow mm (.block old) len min = some (0,.block cells,n) ∧ min ≤ n ∧ n ≤ ulongMax ∧ cells.length = n ∧ old <+: cells := by
  have hone : ulongMax / 1 = ulongMax := Nat.div_one _
  obtain ⟨n,-,hge,hle,hfit,hrun⟩ := agrowWith_grows Nat.one_pos (by decide) (.inl hlen : 0 < len ∨ (Ptr.block old).isNull = true)
    (hone ▸ (Nat.le_of_lt hmin).trans hmax) (hone ▸ hmax) fun h => absurd h.1 (Nat.not_le.mpr hmin)
  rw [hone] at hfit
  obtain ⟨fill,hfill⟩ := Option.isSome_iff_exists.mp (hmem n)
  obtain ⟨cells,hcells⟩ : ∃ cells, memResize mm old n = some cells := ⟨_,by rw [memResize,hfill]; rfl⟩
  obtain ⟨hcount,hpre⟩ := memResize_prefix hcells hold.ge hle
  rw [List.take_of_length_le hold.le] at hpre
  refine ⟨cells,n,?_,hge,hfit,hcount,hpre⟩
  rw [grow,agrow,hrun,Nat.mul_one,Nat.mod_eq_of_lt (by rw [ulongMax] at hfit; omega),resize,hcells]
  rfl

theorem mmGrow_differs (hlen : len ≤ ulongMax) (hptr : Held 1 len ptr) :
    ¬SameOutcome 1 len ptr (grow mm ptr len min) (mmGrow mm ptr len min) := by
  rintro ⟨r,p,q,n,-,hg,hout⟩
  have hq : q ≠ .variable := by
    rintro rfl
    obtain ⟨-,-,_,h,-⟩ | ⟨-,-,h,-⟩ := hout
    · cases h
    · rw [← h] at hptr
      exact hptr
  obtain rfl | hpos := Nat.eq_zero_or_pos len
  · -- the address of a variable is no null pointer
    simp [mmGrow, mmAgrow, agrowWith, Ptr.isNull] at hg
  rw [← Nat.div_one ulongMax] at hlen
  by_cases hmin : ulongMax / 1 < min
  · rw [mmGrow,mmAgrow,agrowWith_refuses Nat.one_pos (.inl hpos) hlen hmin] at hg
    cases hg
    exact hq rfl
  by_cases henough : Enough 1 len min
  · rw [mmGrow,mmAgrow,agrowWith_enough Nat.one_pos (.inl hpos) hlen henough] at hg
    cases hg
    exact hq rfl
  · obtain ⟨n,-,-,-,-,hrun⟩ := agrowWith_grows Nat.one_pos (by decide) (.inl hpos) hlen (Nat.not_lt.mp hmin) henough
    rw [mmGrow,mmAgrow,hrun] at hg
    cases hg

/-- `mm_agrow` asks for bytes where `agrow` asks for elements, and that is the same for elements of one byte or
where nothing is asked for. The pointer that `mm_grow` leaves is never that of `grow`. -/
theorem mmAgrow_iff (ilen len min : ℕ) (ptr : Ptr) (hilen : 0 < ilen) (hsize : ilen < 2 ^ 64) (hlen : len ≤ ulongMax / ilen)
    (hptr : Held ilen len ptr) :
    ((∀ mm, SameOutcome ilen len ptr (agrow mm ptr ilen len min) (mmAgrow mm ptr ilen len min)) ↔
      ilen = 1 ∨ ulongMax / ilen < min ∨ Enough ilen len min) ∧
    ∀ mm len min ptr, len ≤ ulongMax → Held 1 len ptr → ¬SameOutcome 1 len ptr (grow mm ptr len min) (mmGrow mm ptr len min) := by
  refine ⟨⟨fun h => ?_,fun h mm => ?_⟩,fun mm len min ptr hlen hptr => mmGrow_differs hlen hptr⟩
  · by_contra hno
    push Not at hno
    obtain ⟨hone,hmin,hmore⟩ := hno
    obtain ⟨n,hpos,-,-,-,hrun⟩ := agrowWith_grows hilen hsize hptr.started hlen hmin hmore
    -- a manager that always has memory gives a block of too few bytes
    obtain ⟨cells,hcells,hcount⟩ := resize_available hptr n
    obtain ⟨r,p,q,n',-,hg,hout⟩ := h fun _ => some fun _ => 0
    rw [mmAgrow,hrun,hcells,Option.bind_some,if_neg (show ¬(Ptr.block cells).isNull = true from Bool.false_ne_true)] at hg
    cases hg
    obtain ⟨-,-,_,⟨rfl⟩,hroom,-⟩ | ⟨h,-⟩ := hout
    · have : n * 2 ≤ n * ilen := Nat.mul_le_mul_left n (by omega)
      omega
    · cases h
  · suffices heq : mmAgrow mm ptr ilen len min = agrow mm ptr ilen len min by
      rw [heq]
      exact .refl (agrow_run mm hilen hsize hlen hptr)
    by_cases hmin : ulongMax / ilen < min
    · rw [mmAgrow,agrow,agrowWith_refuses hilen hptr.started hlen hmin,agrowWith_refuses hilen hptr.started hlen hmin]
    by_cases henough : Enough ilen len min
    · rw [mmAgrow,agrow,agrowWith_enough hilen hptr.started hlen henough,agrowWith_enough hilen hptr.started hlen henough]
    obtain rfl : ilen = 1 := (h.resolve_right fun h => h.elim hmin henough)
    obtain ⟨n,-,-,-,hmax,hrun⟩ := agrowWith_grows hilen hsize hptr.started hlen (Nat.not_lt.mp hmin) henough
    rw [mmAgrow,agrow,hrun,hrun,Nat.mul_one,Nat.mod_eq_of_lt]
    rw [Nat.div_one,ulongMax] at hmax
    omega

theorem mmAgrow_full : SameOutcome 4 1 (.block [1,2,3,4]) (agrow (fun _ => some fun _ => 0) (.block [1,2,3,4]) 4 1 1)
    (mmAgrow (fun _ => some fun _ => 0) (.block [1,2,3,4]) 4 1 1) :=
  (mmAgrow_iff 4 1 1 (.block [1,2,3,4]) (by decide) (by decide) (by decide) ⟨by decide,by decide⟩).1.mpr
      (.inr (.inr ⟨by decide,.inl (by decide)⟩)) _

/-- Eight elements of four bytes get a block of eight bytes. -/
theorem mmAgrow_short : agrow (fun _ => some fun _ => 0) .null 4 0 1 = some (0,.block (List.replicate 32 0),8) ∧
    mmAgrow (fun _ => some fun _ => 0) .null 4 0 1 = some (0,.block (List.replicate 8 0),8) ∧
    ¬SameOutcome 4 0 .null (agrow (fun _ => some fun _ => 0) .null 4 0 1) (mmAgrow (fun _ => some fun _ => 0) .null 4 0 1) := by
  have hg : mmAgrow (fun _ => some fun _ => 0) .null 4 0 1 = some (0,.block (List.replicate 8 0),8) := by rfl
  refine ⟨by rfl,hg,?_⟩
  rintro ⟨r,p,q,n,-,hg',hout⟩
  rw [hg] at hg'
  cases hg'
  obtain ⟨-,-,_,⟨rfl⟩,hroom,-⟩ | ⟨h,-⟩ := hout
  · exact absurd hroom (by decide)
  · cases h

end Catlib.Buffer
