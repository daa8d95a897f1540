import Catlib.Buffer.Grow
import Catlib.Buffer.Ring

/-! # Room in a ring

`ring_alloc` gives a place for bytes behind the queue of a ring: the ring is compacted or grown where
there is no such place. The pointer is the offset in the memory.
-/
namespace Catlib.Buffer

/-! ## The code -/

/-- What follows the growth of the memory to `d`, of `alloc` bytes. -/
def ringRegrown (r : Ring UInt8) (len last : ℕ) (d : List UInt8) (alloc : ℕ) : Option (ℕ × Ring UInt8) :=
  let osiz := r.alloc
  if last < r.start then
    let toend := osiz - r.start
    (memcpy d (r.start + (alloc - osiz)) d r.start toend).map fun d => (last,⟨alloc,d,r.start + (alloc - osiz),r.len⟩)
  else if len > alloc - last then (memcpy d 0 d r.start r.len).map fun d => (r.len,⟨alloc,d,0,r.len⟩)
  else some (last,⟨alloc,d,r.start,r.len⟩)

/-- `ring_alloc`; `err` ends the program. -/
def ringAlloc (mm : MemMgr UInt8) (r : Ring UInt8) (len : ℕ) : Option (ℕ × Ring UInt8) :=
  if ¬r.Ck then none
  else if len > ulongMax - r.len then none
  else
    let last := ringLast r
    if r.alloc - r.len ≥ len then
      if len > r.alloc - last then
        (memcpy r.data 0 r.data r.start r.len).map fun d => (r.len,{ r with data := d, start := 0 })
      else some (r.len,r)
    else
      match grow mm (.block r.data) r.alloc (r.len + len) with
      | some (0,.block d,alloc) => ringRegrown r len last d alloc
      | _ => none

/-! ## A place for bytes -/

variable {mm : MemMgr UInt8} {r r' : Ring UInt8} {len p last n : ℕ} {d l : List UInt8}

/-- The call keeps the queue, and what is written at the place is appended to it. -/
structure AllocRight (r : Ring UInt8) (len p : ℕ) (r' : Ring UInt8) : Prop where
  good : r'.Good
  bytes : r'.bytes = r.bytes
  inside : p + len ≤ r'.alloc
  free : ∀ i < r'.len, ¬(p ≤ wrap r'.alloc (r'.start + i) ∧ wrap r'.alloc (r'.start + i) < p + len)
  appends : ∀ l : List UInt8, l.length ≤ len → ∃ d, writeMem r'.data p l = some d ∧
    Ring.Good ⟨r'.alloc,d,r'.start,r'.len + l.length⟩ ∧ Ring.bytes ⟨r'.alloc,d,r'.start,r'.len + l.length⟩ = r.bytes ++ l

theorem AllocRight.of_last (hgood : r'.Good) (hbytes : r'.bytes = r.bytes) (hlast : 0 < len → p = wrap r'.alloc (r'.start + r'.len))
    (hroom : r'.len + len ≤ r'.alloc) (hin : p + len ≤ r'.alloc) : AllocRight r len p r' where
  good := hgood
  bytes := hbytes
  inside := hin
  free := by
    rintro i hi ⟨h1,h2⟩
    obtain ⟨-,hs,-⟩ := hgood.ck
    have hp := hlast (by lia)
    have := wrap_cases r'.alloc (r'.start + i)
    have := wrap_cases r'.alloc (r'.start + r'.len)
    lia
  appends := by
    intro l hl
    obtain ⟨h0,hs,hle⟩ := hgood.ck
    have hfit : p + l.length ≤ r'.data.length := by rw [hgood.data]; lia
    refine ⟨_,writeMem_some hfit,?_⟩
    have hput := put_bytes r'.start r'.len l.length l hgood le_rfl le_rfl (by lia)
      (by rw [Nat.sub_self,Nat.add_zero,wrap,if_pos hs]) (writeMem_length (writeMem_some hfit) |>.trans hgood.data) fun t ht => ?_
    · rwa [Nat.sub_self,List.drop_zero,List.take_length,hbytes] at hput
    rw [getElem?_write hfit,ringLast_eq hgood.ck]
    obtain hnil | hpos := Nat.eq_zero_or_pos l.length
    · rw [if_neg (by lia),if_neg (by lia)]
    · have hp := hlast (by lia)
      rw [← hp]
      have := wrap_cases r'.alloc (p + t)
      by_cases htn : t < l.length
      · rw [if_pos (by lia),if_pos htn]
        congr 1
        lia
      · rw [if_neg (by lia),if_neg htn]

theorem compacted {alloc : ℕ} (h : r.Good) (hd : d.length = alloc) (hcells : ∀ i < r.alloc, d[i]? = r.data[i]?)
    (hlen : r.start + r.len ≤ r.alloc)
    (halloc : r.alloc ≤ alloc) (hroom : r.len + len ≤ alloc) (hpos : 0 < len) :
    ∃ d', memcpy d 0 d r.start r.len = some d' ∧ AllocRight r len r.len ⟨alloc,d',0,r.len⟩ := by
  obtain ⟨h0,hs,hle⟩ := h.ck
  obtain ⟨d',hcopy,hd',hget⟩ := memcpy_spec d 0 d r.start r.len (by lia) (by lia)
  have hgood : Ring.Good ⟨alloc,d',0,r.len⟩ := ⟨⟨by dsimp only; lia,by dsimp only; lia,by dsimp only; lia⟩,hd'.trans hd⟩
  refine ⟨d',hcopy,.of_last hgood (hgood.bytes_eq h.bytes_length fun i hi => ?_) (fun _ => ?_) hroom hroom⟩
  · dsimp only at hi ⊢
    rw [h.getElem?_bytes hi,wrap,if_pos (by lia),wrap,if_pos (by lia),hget,if_pos (by lia),hcells _ (by lia)]
    congr 1
    lia
  · dsimp only
    rw [wrap,if_pos (by lia),Nat.zero_add]

theorem ringAlloc_room (h : r.Good) (hlim : len ≤ ulongMax - r.len) (hroom : len ≤ r.alloc - r.len) :
    (∃ p r', ringAlloc mm r len = some (p,r') ∧ AllocRight r len p r') ↔ len = 0 ∨ r.start = 0 ∨ r.alloc - ringLast r < len := by
  obtain ⟨h0,hs,hle⟩ := h.ck
  have hlast := ringLast_eq h.ck
  have hcases := wrap_cases r.alloc (r.start + r.len)
  rw [ringAlloc,if_neg (not_not.mpr h.ck),if_neg (by lia)]
  dsimp only
  rw [if_pos hroom]
  by_cases hmove : len > r.alloc - ringLast r
  · rw [if_pos hmove]
    obtain ⟨d,hcopy,hright⟩ := compacted h h.data (fun _ _ => rfl) (by lia) le_rfl (by lia) (by lia : 0 < len)
    exact iff_of_true ⟨_,_,by rw [hcopy]; rfl,hright⟩ (.inr (.inr hmove))
  rw [if_neg hmove]
  constructor
  · rintro ⟨p,r',heq,hright⟩
    by_contra hno
    cases heq
    -- a byte that differs from what is in its place behind the queue
    have hin : ringLast r < r.data.length := by rw [h.data]; lia
    obtain ⟨d,hwrite,hgood,hbytes⟩ := hright.appends [r.data[ringLast r] + 1] (by rw [List.length_singleton]; lia)
    have hput : r.len + [r.data[ringLast r] + 1].length ≤ r.data.length := by rw [List.length_singleton,h.data]; lia
    rw [writeMem_some hput] at hwrite
    cases hwrite
    have hget := hgood.getElem?_bytes (i := r.len) (Nat.lt_succ_self _)
    rw [hbytes,List.getElem?_append_right h.bytes_length.le,h.bytes_length,Nat.sub_self] at hget
    dsimp only at hget
    rw [← hlast,getElem?_write hput,if_neg (by rw [List.length_singleton]; lia),List.getElem?_eq_getElem hin] at hget
    simp at hget
  · intro hok
    refine ⟨_,_,rfl,.of_last h rfl (fun hpos => ?_) (by lia) (by lia)⟩
    lia

theorem ringAlloc_grows (hmem : ∀ sz, (mm sz).isSome = true) (h : r.Good) (hlim : len ≤ ulongMax - r.len)
    (hroom : ¬len ≤ r.alloc - r.len) : (∃ p r', ringAlloc mm r len = some (p,r') ∧ AllocRight r len p r') ↔ r.len < r.alloc := by
  obtain ⟨h0,hs,hle⟩ := h.ck
  have hlast := ringLast_eq h.ck
  have hcases := wrap_cases r.alloc (r.start + r.len)
  obtain ⟨d,n,hgrow,hmin,-,hd,hpre⟩ := grow_block hmem h0 (by lia : r.alloc < r.len + len) (by lia) h.data
  have hcells : ∀ i < r.alloc, d[i]? = r.data[i]? := by
    intro i hi
    obtain ⟨t,rfl⟩ := hpre
    rw [List.getElem?_append_left (by rw [h.data]; exact hi)]
  rw [ringAlloc,if_neg (not_not.mpr h.ck),if_neg (by lia)]
  dsimp only
  rw [if_neg hroom,hgrow]
  show (∃ p r', ringRegrown r len (ringLast r) d n = some (p,r') ∧ _) ↔ _
  rw [ringRegrown]
  dsimp only
  by_cases hwrap : ringLast r < r.start
  · -- the part up to the end of the old memory goes to the end of the new one
    rw [if_pos hwrap]
    obtain ⟨d',hcopy,hd',hget⟩ := memcpy_spec d (r.start + (n - r.alloc)) d r.start (r.alloc - r.start) (by lia) (by lia)
    have hgood : Ring.Good ⟨n,d',r.start + (n - r.alloc),r.len⟩ :=
      ⟨⟨by dsimp only; lia,by dsimp only; lia,by dsimp only; lia⟩,hd'.trans hd⟩
    refine iff_of_true ⟨_,_,by rw [hcopy]; rfl,.of_last hgood (hgood.bytes_eq h.bytes_length fun i hi => ?_) (fun _ => ?_) hmin ?_⟩
        (by lia)
    · dsimp only at hi ⊢
      rw [h.getElem?_bytes hi,hget]
      have := wrap_cases r.alloc (r.start + i)
      have := wrap_cases n (r.start + (n - r.alloc) + i)
      split
      · rw [hcells _ (by lia)]
        congr 1
        lia
      · rw [hcells _ (by lia)]
        congr 1
        lia
    · dsimp only
      have := wrap_cases n (r.start + (n - r.alloc) + r.len)
      lia
    · dsimp only
      lia
  rw [if_neg hwrap]
  by_cases hfull : r.len = r.alloc
  · -- the place is that of the oldest byte
    have hstart : ringLast r = r.start := by lia
    rw [hstart,if_neg (by lia)]
    refine iff_of_false ?_ (by lia)
    rintro ⟨p,r',heq,hright⟩
    cases heq
    refine hright.free 0 (by dsimp only; lia) ?_
    dsimp only
    rw [Nat.add_zero,wrap,if_pos (by lia)]
    lia
  have hline : ringLast r = r.start + r.len := by lia
  by_cases hmove : len > n - ringLast r
  · rw [if_pos hmove]
    obtain ⟨d',hcopy,hright⟩ := compacted h hd hcells (by lia) (by lia) hmin (by lia)
    exact iff_of_true ⟨_,_,by rw [hcopy]; rfl,hright⟩ (by lia)
  · rw [if_neg hmove]
    have hgood : Ring.Good ⟨n,d,r.start,r.len⟩ := ⟨⟨by dsimp only; lia,by dsimp only; lia,by dsimp only; lia⟩,hd⟩
    refine iff_of_true ⟨_,_,rfl,.of_last hgood (hgood.bytes_eq h.bytes_length fun i hi => ?_) (fun _ => ?_) hmin ?_⟩ (by lia)
    · dsimp only at hi ⊢
      rw [h.getElem?_bytes hi,wrap,if_pos (by lia),wrap,if_pos (by lia),hcells _ (by lia)]
    · dsimp only
      rw [wrap,if_pos (by lia),hline]
    · dsimp only
      lia

/-- With memory, the place is right where the ring need not grow and begins at the front or is compacted, and
where it grows and was not full. -/
theorem ringAlloc_iff (mm : MemMgr UInt8) (r : Ring UInt8) (len : ℕ) (hmem : ∀ sz, (mm sz).isSome = true) (h : r.Good)
    (hlim : len ≤ ulongMax - r.len) : (∃ p r', ringAlloc mm r len = some (p,r') ∧ AllocRight r len p r') ↔
      if len ≤ r.alloc - r.len then len = 0 ∨ r.start = 0 ∨ r.alloc - ringLast r < len else r.len < r.alloc := by
  split
  · exact ringAlloc_room h hlim ‹_›
  · exact ringAlloc_grows hmem h hlim ‹_›

theorem ringAlloc_front : ∃ p r', ringAlloc (fun _ => some fun _ => 0) ⟨4,[1,2,3,4],0,2⟩ 2 = some (p,r') ∧
    AllocRight ⟨4,[1,2,3,4],0,2⟩ 2 p r' :=
  (ringAlloc_iff (fun _ => some fun _ => 0) ⟨4,[1,2,3,4],0,2⟩ 2 (fun _ => rfl) ⟨⟨by decide,by decide,by decide⟩,rfl⟩ (by decide)).mpr
    (.inr (.inl rfl))

/-- The queue is the third byte, and the place is that of the second. -/
theorem ringAlloc_behind : Ring.bytes (⟨4,[1,2,3,4],2,1⟩ : Ring UInt8) = [3] ∧
    ringAlloc (fun _ => some fun _ => 0) ⟨4,[1,2,3,4],2,1⟩ 1 = some (1,⟨4,[1,2,3,4],2,1⟩) ∧
    ¬∃ p r', ringAlloc (fun _ => some fun _ => 0) ⟨4,[1,2,3,4],2,1⟩ 1 = some (p,r') ∧ AllocRight ⟨4,[1,2,3,4],2,1⟩ 1 p r' := by
  have hrun : ringAlloc (fun _ => some fun _ => 0) ⟨4,[1,2,3,4],2,1⟩ 1 = some (1,⟨4,[1,2,3,4],2,1⟩) := by rfl
  refine ⟨rfl,hrun,?_⟩
  rintro ⟨p,r',heq,hright⟩
  cases hrun.symm.trans heq
  obtain ⟨d,hwrite,-,hbytes⟩ := hright.appends [9] (by decide)
  cases hwrite
  exact absurd hbytes (by decide)

end Catlib.Buffer
